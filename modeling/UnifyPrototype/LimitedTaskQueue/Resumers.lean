import UnifyPrototype.LimitedTaskQueue.Assign
import UnifyPrototype.Utils.Threads

/-!
# `Resumer`s account for every pause

A queue is paused once for each `Resumer` of it and once for each thread that is going to resume it. An
assignment that is in the `resume()` of the old queue is counted twice, by the `Resumer` that it is
going to overwrite and by the thread.
-/

namespace UnifyPrototype.LimitedTaskQueue.Resumer

open UnifyPrototype.Utils
open SerialTaskQueue (Point Thread)

variable {k n i l r : ℕ} {queues : ℕ → List (Fin k)} {s s' : State k}
  {p p' : LimitedTaskQueue.State k} {o o' : Option (Assignment k)} {q : Fin k}

/-! ## What the parts of an assignment do to the `Resumer`s -/

/-- Writing one `Resumer`, as far as those with another `m_queue` are counted. -/
lemma count_set {xs : List (Option (Fin k))} {a : Option (Fin k)} (b x : Option (Fin k))
    (h : xs[i]? = some a) :
    (xs.set i b).count x + (if a = x then 1 else 0) = xs.count x + if b = x then 1 else 0 := by
  induction xs generalizing i with
  | nil => cases h
  | cons c xs ih =>
    cases i with
    | zero =>
      obtain rfl : c = a := by simpa using h
      simp only [List.set_cons_zero, List.count_cons, beq_iff_eq]
      omega
    | succ i =>
      have hrest := ih (i := i) (by simpa using h)
      simp only [List.set_cons_succ, List.count_cons, beq_iff_eq]
      omega

/-- Taking the queue of the right-hand side gives up the old one, also if both are the same. -/
lemma count_take {x y : Option (Fin k)} (hl : p.resumers[l]? = some x) (hr : p.resumers[r]? = some y) :
    (take p l r).resumers.count (some q) + (if x = some q then 1 else 0)
      = p.resumers.count (some q) := by
  have hleft := count_set y (some q) hl
  have hnone : (if (none : Option (Fin k)) = some q then 1 else 0) = 0 := if_neg nofun
  simp only [take, hr, Option.join_some]
  by_cases hlr : l = r
  · subst hlr
    have hlt := (List.getElem?_eq_some_iff.mp hl).1
    have hright := count_set none (some q) (List.getElem?_set_self (a := y) hlt)
    omega
  · have hright := count_set none (some q) ((List.getElem?_set_ne hlr (a := y)).trans hr)
    omega

lemma length_take : (take p l r).resumers.length = p.resumers.length := by
  simp [take]

/-- A move leaves the other `Resumer`s alone. -/
lemma getElem?_take {c : ℕ} (hl : c ≠ l) (hr : c ≠ r) :
    (take p l r).resumers[c]? = p.resumers[c]? := by
  simp only [take]
  rw [List.getElem?_set_ne hr.symm, List.getElem?_set_ne hl.symm]

/-- The `Resumer` that a step of the program writes. -/
def written : LimitedTaskQueue.Label → List ℕ
  | .move _ r | .release _ r => [r]
  | _ => []

/-- Every other one stays as it is. -/
lemma resumers_step {a : LimitedTaskQueue.Label} (hstep : LimitedTaskQueue.step p a = some p') :
    p.resumers.length ≤ p'.resumers.length ∧
      ∀ c < p.resumers.length, c ∉ written a → p'.resumers[c]? = p.resumers[c]? := by
  -- a step of the queues alone touches no `Resumer`
  have hsame : p'.resumers = p.resumers → p.resumers.length ≤ p'.resumers.length ∧
      ∀ c < p.resumers.length, c ∉ written a → p'.resumers[c]? = p.resumers[c]? := by
    intro heq
    rw [heq]
    exact ⟨le_rfl, fun _ _ _ => rfl⟩
  -- a constructed `Resumer` goes behind those there are
  have happend : ∀ new, p'.resumers = p.resumers ++ new → p.resumers.length ≤ p'.resumers.length ∧
      ∀ c < p.resumers.length, c ∉ written a → p'.resumers[c]? = p.resumers[c]? := by
    intro new heq
    rw [heq]
    exact ⟨by simp, fun c hc _ => List.getElem?_append_left hc⟩
  cases a with
  | fork =>
    simp only [LimitedTaskQueue.step] at hstep
    obtain ⟨b, -, rfl⟩ := Option.map_eq_some_iff.mp hstep
    exact hsame rfl
  | push i g | pushAndPause i g =>
    simp only [LimitedTaskQueue.step] at hstep
    split at hstep
    · obtain rfl := Option.some.inj hstep
      exact hsame rfl
    · cases hstep
  | copy i r =>
    simp only [LimitedTaskQueue.step, State.copy] at hstep
    split at hstep
    · split at hstep
      · obtain ⟨b, -, rfl⟩ := Option.map_eq_some_iff.mp hstep
        exact hsame rfl
      · obtain rfl := Option.some.inj hstep
        exact happend _ rfl
      · cases hstep
    · cases hstep
  | move i r =>
    simp only [LimitedTaskQueue.step, State.move] at hstep
    split at hstep
    · obtain ⟨x, -, rfl⟩ := Option.map_eq_some_iff.mp hstep
      refine ⟨by simp, ?_⟩
      intro c hc hne
      have hcr : c ≠ r := fun heq => hne (List.mem_singleton.mpr heq)
      rw [List.getElem?_append_left (by simpa using hc), List.getElem?_set_ne hcr.symm]
    · cases hstep
  | release i r =>
    simp only [LimitedTaskQueue.step, State.release] at hstep
    split at hstep
    · split at hstep
      · obtain ⟨b, -, rfl⟩ := Option.map_eq_some_iff.mp hstep
        refine ⟨by simp, ?_⟩
        intro c _ hne
        have hcr : c ≠ r := fun heq => hne (List.mem_singleton.mpr heq)
        exact List.getElem?_set_ne hcr.symm
      · obtain rfl := Option.some.inj hstep
        exact hsame rfl
      · cases hstep
    · cases hstep
  | proceed i =>
    simp only [LimitedTaskQueue.step] at hstep
    split at hstep
    next hout =>
      -- the task runner holds no `Resumer` of its own
      cases steps_proceed hout hstep with
      | pushes | returns | fails | claims | pauses => exact hsame rfl
      | resumers _ hnew => cases hnew
      | enter _ hnew => cases hnew
    next => cases hstep
  | actionEnds i =>
    simp only [LimitedTaskQueue.step] at hstep
    split at hstep
    · obtain rfl := Option.some.inj hstep
      exact hsame rfl
    · cases hstep
  | advance i =>
    simp only [LimitedTaskQueue.step] at hstep
    split at hstep
    · obtain ⟨b, -, rfl⟩ := Option.map_eq_some_iff.mp hstep
      exact happend _ rfl
    · cases hstep
  | finish i threw =>
    simp only [LimitedTaskQueue.step] at hstep
    split at hstep
    · obtain ⟨b, -, rfl⟩ := Option.map_eq_some_iff.mp hstep
      exact hsame rfl
    · cases hstep

/-! ## The account -/

/-- One if the assignment has called `resume()` on the queue and not overwritten its pointer yet. -/
def overwrites (q : Fin k) : Option (Assignment k) → ℕ
  | some (.moving _ _ _ q') => if q' = q then 1 else 0
  | _ => 0

/-- The `Resumer`s of the queue that are going to be overwritten. -/
def State.overwriting (s : State k) (q : Fin k) : ℕ :=
  tally (overwrites q) s.assignments

/-- The threads that are going to decrement the count of the queue. -/
def State.releasing (s : State k) (q : Fin k) : ℕ :=
  s.program.base.count Point.resumes q

/-- The `Resumer`s whose `m_queue` points to the queue. -/
def State.pointing (s : State k) (q : Fin k) : ℕ :=
  s.program.resumers.count (some q)

def State.pauseCount (s : State k) (q : Fin k) : ℕ :=
  (s.program.base.queue q).pauseCount

/-- The pauses are accounted for; a `Resumer` that is going to be overwritten still has its old queue;
two assignments write different `Resumer`s. -/
structure State.Accounted (s : State k) : Prop where
  balance : ∀ q, s.pauseCount q + s.overwriting q = s.pointing q + s.releasing q
  old : ∀ (n i l r : ℕ) (q : Fin k), s.assignments[n]? = some (some (.moving i l r q)) →
    s.program.resumers[l]? = some (some q)
  inRange : ∀ (n : ℕ) (a : Assignment k), s.assignments[n]? = some (some a) →
    ∀ c ∈ a.cells, c < s.program.resumers.length
  apart : ∀ (m n : ℕ) (a b : Assignment k), m ≠ n → s.assignments[m]? = some (some a) →
    s.assignments[n]? = some (some b) → ∀ c ∈ a.cells, c ∉ b.cells

/-- What an operation outside the assignments keeps. -/
lemma accounted_program (h : s.Accounted) (hassignments : s'.assignments = s.assignments)
    (hbalance : ∀ q, s'.pauseCount q + s.pointing q + s.releasing q
      = s.pauseCount q + s'.pointing q + s'.releasing q)
    (hlength : s.program.resumers.length ≤ s'.program.resumers.length)
    (hframe : ∀ (n : ℕ) (a : Assignment k), s.assignments[n]? = some (some a) → ∀ c ∈ a.cells,
      s'.program.resumers[c]? = s.program.resumers[c]?) : s'.Accounted := by
  refine ⟨?_, ?_, ?_, ?_⟩
  · intro q
    have hbefore := h.balance q
    have hchange := hbalance q
    unfold State.overwriting at *
    rw [hassignments]
    omega
  · intro n i l r q hn
    rw [hassignments] at hn
    rw [hframe n _ hn l (by simp [Assignment.cells])]
    exact h.old n i l r q hn
  · intro n a hn c hc
    rw [hassignments] at hn
    have hlt := h.inRange n a hn c hc
    omega
  · intro m n a b hmn hm hn
    rw [hassignments] at hm hn
    exact h.apart m n a b hmn hm hn

/-- What a step of the assignment number `n` keeps: it writes what no other one is going to write. -/
lemma accounted_assignment (h : s.Accounted) (hn : s.assignments[n]? = some o)
    (hassignments : s'.assignments = s.assignments.set n o')
    (hbalance : ∀ q, s'.pauseCount q + s.pointing q + s.releasing q + overwrites q o'
      = s.pauseCount q + s'.pointing q + s'.releasing q + overwrites q o)
    (hlength : s.program.resumers.length ≤ s'.program.resumers.length)
    (hframe : ∀ (m : ℕ) (b : Assignment k), m ≠ n → s.assignments[m]? = some (some b) →
      ∀ c ∈ b.cells, s'.program.resumers[c]? = s.program.resumers[c]?)
    (hold : ∀ i l r q, o' = some (.moving i l r q) → s'.program.resumers[l]? = some (some q))
    (hcells : ∀ a, o' = some a → ∀ c ∈ a.cells, c < s'.program.resumers.length ∧
      ∀ (m : ℕ) (b : Assignment k), m ≠ n → s.assignments[m]? = some (some b) → c ∉ b.cells) :
    s'.Accounted := by
  refine ⟨?_, ?_, ?_, ?_⟩
  · intro q
    have hset := tally_set (overwrites q) o' hn
    have hbefore := h.balance q
    have hchange := hbalance q
    unfold State.overwriting at *
    rw [hassignments]
    omega
  · intro m i l r q hm
    rw [hassignments] at hm
    rcases getElem?_goto hm with ⟨-, ho⟩ | ⟨hne, hm⟩
    · -- the assignment that took the step, then every other one
      exact hold i l r q ho
    · rw [hframe m _ hne hm l (by simp [Assignment.cells])]
      exact h.old m i l r q hm
  · intro m a hm c hc
    rw [hassignments] at hm
    rcases getElem?_goto hm with ⟨-, ho⟩ | ⟨-, hm⟩
    · exact (hcells a ho c hc).1
    · have hlt := h.inRange m a hm c hc
      omega
  · intro m m' a b hne hm hm' c hc hc'
    rw [hassignments] at hm hm'
    rcases getElem?_goto hm with ⟨rfl, ho⟩ | ⟨hmn, ha⟩
    · rcases getElem?_goto hm' with ⟨rfl, -⟩ | ⟨hmn', hb⟩
      · exact hne rfl
      · exact (hcells a ho c hc).2 m' b hmn' hb hc'
    · rcases getElem?_goto hm' with ⟨rfl, ho⟩ | ⟨-, hb⟩
      · -- the assignment that took the step is now the second of the two
        exact (hcells b ho c hc').2 m a hmn ha hc
      · exact h.apart m m' a b hne ha hb c hc hc'

/-- An assignment that has not begun. -/
lemma accounted_new (h : s.Accounted) :
    State.Accounted { s with assignments := s.assignments ++ [none] } := by
  refine ⟨?_, ?_, ?_, ?_⟩
  · intro q
    have hbefore := h.balance q
    have hsame : tally (overwrites q) (s.assignments ++ [none]) = tally (overwrites q) s.assignments := by
      simp [overwrites]
    show s.pauseCount q + tally (overwrites q) (s.assignments ++ [none]) = _
    rw [hsame]
    exact hbefore
  · intro n i l r q hn
    exact h.old n i l r q (getElem?_fork hn)
  · intro n a hn
    exact h.inRange n a (getElem?_fork hn)
  · intro m n a b hmn hm hn
    exact h.apart m n a b hmn (getElem?_fork hm) (getElem?_fork hn)

/-! ## The steps -/

/-- A call of a member function of a queue. -/
lemma callQueue_spec {op : SerialTaskQueue.Op (Closure k)} (hcall : p.callQueue i q op = some p') :
    p'.resumers = p.resumers ∧ ∀ q', (p'.base.queue q').pauseCount = (p.base.queue q').pauseCount ∧
      p'.base.count Point.resumes q' = p.base.count Point.resumes q'
        + if q = q' then Point.resumes (op.entry p.base.nextId) else 0 := by
  obtain ⟨b, hb, rfl⟩ := Option.map_eq_some_iff.mp hcall
  refine ⟨rfl, fun q' => ?_⟩
  obtain ⟨hqueue, hcount⟩ := SerialTaskQueue.count_call hb Point.resumes q'
  refine ⟨?_, hcount⟩
  show (b.queue q').pauseCount = _
  rw [hqueue]

/-- The move assignment begins: it calls `resume()` on the old queue, or takes the new one at once. -/
lemma accounted_moveAssign (h : s.Accounted) (hn : s.assignments[n]? = some o)
    (ho : ∀ q, overwrites q o = 0) (hr : r < s.program.resumers.length)
    (hfree : ∀ c, c = l ∨ c = r → ∀ (m : ℕ) (b : Assignment k), m ≠ n →
      s.assignments[m]? = some (some b) → c ∉ b.cells)
    (hstep : moveAssign s.program i l r = some (p', o')) :
    State.Accounted { program := p', assignments := s.assignments.set n o' } := by
  have hothers : ∀ (m : ℕ) (b : Assignment k), m ≠ n → s.assignments[m]? = some (some b) →
      ∀ c ∈ b.cells, c ≠ l ∧ c ≠ r := by
    intro m b hm hb c hc
    refine ⟨fun heq => ?_, fun heq => ?_⟩
    · exact hfree c (.inl heq) m b hm hb hc
    · exact hfree c (.inr heq) m b hm hb hc
  simp only [moveAssign] at hstep
  split at hstep
  -- the left-hand side has a queue: it is resumed first, and overwritten when that returns
  next q hl =>
    obtain ⟨p₁, hcall, heq⟩ := Option.map_eq_some_iff.mp hstep
    obtain ⟨rfl, rfl⟩ := Prod.mk.inj heq
    obtain ⟨hresumers, hqueue⟩ := callQueue_spec hcall
    refine accounted_assignment h hn rfl ?_ (by rw [hresumers]) ?_ ?_ ?_
    · intro q'
      obtain ⟨hpause, hcount⟩ := hqueue q'
      have hzero := ho q'
      have hone : Point.resumes (SerialTaskQueue.Op.entry s.program.base.nextId
          (.resume : SerialTaskQueue.Op (Closure k))) = 1 := rfl
      have hnew : overwrites q' (some (.moving i l r q)) = if q = q' then 1 else 0 := rfl
      rw [hone] at hcount
      simp only [State.pauseCount, State.pointing, State.releasing, hresumers, hpause, hcount, hnew]
      omega
    · intro m b _ _ c _
      rw [hresumers]
    · intro i' l' r' q' heq
      obtain ⟨-, rfl, -, rfl⟩ := by simpa using heq
      rw [hresumers]
      exact hl
    · intro a ha c hc
      obtain rfl := Option.some.inj ha
      have hc' : c = l ∨ c = r := by simpa [Assignment.cells] using hc
      refine ⟨?_, hfree c hc'⟩
      have hlt := (List.getElem?_eq_some_iff.mp hl).1
      rw [hresumers]
      rcases hc' with rfl | rfl <;> omega
  -- it has none: there is nothing to resume, and the pointer moves over at once
  next hl =>
    obtain ⟨rfl, rfl⟩ := Prod.mk.inj (Option.some.inj hstep)
    refine accounted_assignment h hn rfl ?_ (by rw [length_take]) ?_ (by simp) (by simp)
    · intro q'
      have hzero := ho q'
      have htake := count_take (q := q') hl (List.getElem?_eq_getElem hr)
      have hnone : (if (none : Option (Fin k)) = some q' then 1 else 0) = 0 := if_neg (by simp)
      have hbase : (take s.program l r).base = s.program.base := rfl
      have hnew : overwrites q' (none : Option (Assignment k)) = 0 := rfl
      simp only [State.pauseCount, State.pointing, State.releasing, hbase, hnew]
      omega
    · intro m b hm hb c hc
      obtain ⟨hcl, hcr⟩ := hothers m b hm hb c hc
      exact getElem?_take hcl hcr
  next => cases hstep

/-- The copy assignment begins: it copies its right-hand side. -/
lemma accounted_copyAssign (h : s.Accounted) (hn : s.assignments[n]? = some none)
    (hl : l < s.program.resumers.length)
    (hfree : ∀ (m : ℕ) (b : Assignment k), m ≠ n → s.assignments[m]? = some (some b) → l ∉ b.cells)
    (hstep : copyAssign s.program i l r = some (p', o')) :
    State.Accounted { program := p', assignments := s.assignments.set n o' } := by
  simp only [copyAssign] at hstep
  split at hstep
  -- the copy constructor calls `pause()` first, and makes the copy when that returns
  next q hr =>
    obtain ⟨p₁, hcall, heq⟩ := Option.map_eq_some_iff.mp hstep
    obtain ⟨rfl, rfl⟩ := Prod.mk.inj heq
    obtain ⟨hresumers, hqueue⟩ := callQueue_spec hcall
    refine accounted_assignment h hn rfl ?_ (by rw [hresumers]) ?_ (by simp) ?_
    · intro q'
      obtain ⟨hpause, hcount⟩ := hqueue q'
      have hzero : Point.resumes (SerialTaskQueue.Op.entry s.program.base.nextId
          (.pause : SerialTaskQueue.Op (Closure k))) = 0 := rfl
      rw [hzero, ite_self, Nat.add_zero] at hcount
      simp only [State.pauseCount, State.pointing, State.releasing, hresumers, hpause, hcount]
      rfl
    · intro m b _ _ c _
      rw [hresumers]
    · intro a ha c hc
      obtain rfl := Option.some.inj ha
      obtain rfl : c = l := List.mem_singleton.mp hc
      rw [hresumers]
      exact ⟨hl, hfree⟩
  -- a `Resumer` without a queue is copied without a call
  next hr =>
    obtain ⟨rfl, rfl⟩ := Prod.mk.inj (Option.some.inj hstep)
    refine accounted_assignment h hn rfl ?_ (by simp) ?_ (by simp) ?_
    · intro q'
      simp [State.pauseCount, State.pointing, State.releasing, overwrites]
    · intro m b _ hb c hc
      exact List.getElem?_append_left (h.inRange m b hb c hc)
    · intro a ha c hc
      obtain rfl := Option.some.inj ha
      rcases List.mem_cons.mp hc with rfl | hc
      · exact ⟨by simp; omega, hfree⟩
      · -- the copy is a `Resumer` that was not there before
        obtain rfl := List.mem_singleton.mp hc
        refine ⟨by simp, ?_⟩
        intro m b _ hb hmem
        exact absurd (h.inRange m b hb _ hmem) (lt_irrefl _)
  next => cases hstep

/-- An assignment goes on. -/
lemma accounted_goOn {a : Assignment k} (h : s.Accounted) (hn : s.assignments[n]? = some (some a))
    (hstep : a.step s.program = some (p', o')) :
    State.Accounted { program := p', assignments := s.assignments.set n o' } := by
  cases a with
  -- `pause()` increments the count and the copy appears in the same step
  | copying i l =>
    simp only [Assignment.step] at hstep
    split at hstep
    next q hnext =>
      obtain ⟨p₁, hadvance, heq⟩ := Option.map_eq_some_iff.mp hstep
      obtain ⟨rfl, rfl⟩ := Prod.mk.inj heq
      have hbalance := fun q => balance_step hadvance q
      obtain ⟨hle, hframe⟩ := resumers_step hadvance
      have hlength : p₁.resumers.length = s.program.resumers.length + 1 := by
        simp only [LimitedTaskQueue.step, hnext] at hadvance
        obtain ⟨b, -, rfl⟩ := Option.map_eq_some_iff.mp hadvance
        simp [constructed]
      have hl := h.inRange n _ hn l (by simp [Assignment.cells])
      refine accounted_assignment h hn rfl ?_ hle ?_ (by simp) ?_
      · intro q'
        exact hbalance q'
      · intro m b _ hb c hc
        exact hframe c (h.inRange m b hb c hc) List.not_mem_nil
      · intro a ha c hc
        obtain rfl := Option.some.inj ha
        show c < p₁.resumers.length ∧ _
        rcases List.mem_cons.mp hc with rfl | hc
        · refine ⟨by omega, ?_⟩
          intro m b hm hb
          exact h.apart n m _ b (Ne.symm hm) hn hb c (by simp [Assignment.cells])
        · -- the copy is new, so no other assignment has it
          obtain rfl := List.mem_singleton.mp hc
          refine ⟨by omega, ?_⟩
          intro m b _ hb hmem
          exact absurd (h.inRange m b hb _ hmem) (lt_irrefl _)
    next => cases hstep
  -- from here the copy is moved as `moveAssign` does
  | copied i l t =>
    have ht := h.inRange n _ hn t (by simp [Assignment.cells])
    refine accounted_moveAssign h hn (fun _ => rfl) ht ?_ hstep
    intro c hc m b hm hb
    have hmem : c ∈ (Assignment.copied i l t : Assignment k).cells := by
      simpa [Assignment.cells] using hc
    exact h.apart n m _ b (Ne.symm hm) hn hb c hmem
  | moving i l r q =>
    simp only [Assignment.step] at hstep
    split at hstep
    next =>
      -- the old pointer goes and stops counting as one to be overwritten
      obtain ⟨rfl, rfl⟩ := Prod.mk.inj (Option.some.inj hstep)
      have hold := h.old n i l r q hn
      have hr := h.inRange n _ hn r (by simp [Assignment.cells])
      refine accounted_assignment h hn rfl ?_ (by rw [length_take]) ?_ (by simp) (by simp)
      · intro q'
        have htake := count_take (q := q') hold (List.getElem?_eq_getElem hr)
        have hbase : (take s.program l r).base = s.program.base := rfl
        have hbefore : overwrites q' (some (.moving i l r q)) = if some q = some q' then 1 else 0 := by
          simp [overwrites]
        have hafter : overwrites q' (none : Option (Assignment k)) = 0 := rfl
        simp only [State.pauseCount, State.pointing, State.releasing, hbase, hbefore, hafter]
        omega
      · intro m b hm hb c hc
        have hapart := h.apart m n b _ hm hb hn c hc
        have hne : c ≠ l ∧ c ≠ r := by simpa [Assignment.cells] using hapart
        exact getElem?_take hne.1 hne.2
    next => cases hstep

/-- A `Resumer` that is free is in no assignment. -/
lemma not_mem_cells {c m : ℕ} {b : Assignment k} (hfree : s.free c = true)
    (hb : s.assignments[m]? = some (some b)) : c ∉ b.cells := by
  have hall := List.all_eq_true.mp hfree _ (List.mem_of_getElem? hb)
  simpa using hall

/-- An operation that the threads may make next to the assignments writes no `Resumer` of one. -/
lemma free_of_permits {a : LimitedTaskQueue.Label} {c : ℕ} (hpermits : s.permits a = true)
    (hc : c ∈ written a) : s.free c = true := by
  cases a with
  | move i r | release i r =>
    obtain rfl := List.mem_singleton.mp hc
    simp only [State.permits, Bool.and_eq_true] at hpermits
    exact hpermits.2
  | _ => cases hc

/-- The assignment that begins is the last of the list. -/
lemma accounted_begin {a : Option (Assignment k)} (h : s.Accounted)
    (hbegin : State.Accounted { s with assignments := s.assignments ++ [none] } →
      (s.assignments ++ [none])[s.assignments.length]? = some none →
      (∀ c, s.free c = true → ∀ (m : ℕ) (b : Assignment k), m ≠ s.assignments.length →
        (s.assignments ++ [none])[m]? = some (some b) → c ∉ b.cells) →
      State.Accounted {
        program := p', assignments := (s.assignments ++ [none]).set s.assignments.length a }) :
    State.Accounted { program := p', assignments := s.assignments ++ [a] } := by
  have hset : (s.assignments ++ [none]).set s.assignments.length a = s.assignments ++ [a] := by
    simp
  rw [← hset]
  apply hbegin (accounted_new h)
  · simp
  · intro c hfree m b _ hb
    exact not_mem_cells hfree (getElem?_fork hb)

/-- Each step keeps the balance. -/
lemma accounted_step {a : Label} (h : s.Accounted) (hstep : step queues s a = some s') :
    s'.Accounted := by
  cases a with
  -- the threads write no `Resumer` that an assignment in progress uses
  | program a =>
    simp only [step] at hstep
    split at hstep
    next hpermits =>
      obtain ⟨p₁, hp, rfl⟩ := Option.map_eq_some_iff.mp hstep
      obtain ⟨hle, hframe⟩ := resumers_step hp
      refine accounted_program h rfl (fun q => balance_step hp q) hle ?_
      intro n b hb c hc
      apply hframe c (h.inRange n b hb c hc)
      intro hmem
      exact not_mem_cells (free_of_permits hpermits hmem) hb hc
    next => cases hstep
  | push i g l | pushAndPause i g l =>
    simp only [step] at hstep
    split at hstep
    next =>
      obtain rfl := Option.some.inj hstep
      exact accounted_program h rfl (fun _ => rfl) le_rfl fun _ _ _ _ _ => rfl
    next => cases hstep
  | copyAssign i l r =>
    simp only [step, Bool.and_eq_true, decide_eq_true_eq] at hstep
    split at hstep
    next hcond =>
      obtain ⟨⟨p₁, a⟩, hp, rfl⟩ := Option.map_eq_some_iff.mp hstep
      obtain ⟨⟨⟨-, hfree⟩, -⟩, hl⟩ := hcond
      apply accounted_begin h
      intro hnew hn hothers
      exact accounted_copyAssign hnew hn hl (fun m b => hothers l hfree m b) hp
    next => cases hstep
  | moveAssign i l r =>
    simp only [step, Bool.and_eq_true, decide_eq_true_eq] at hstep
    split at hstep
    next hcond =>
      obtain ⟨⟨p₁, a⟩, hp, rfl⟩ := Option.map_eq_some_iff.mp hstep
      obtain ⟨⟨⟨-, hfree⟩, hfree'⟩, hr⟩ := hcond
      apply accounted_begin h
      intro hnew hn hothers
      refine accounted_moveAssign hnew hn (fun _ => rfl) hr ?_ hp
      rintro c (rfl | rfl) m b hm hb
      · exact hothers c hfree m b hm hb
      · exact hothers c hfree' m b hm hb
    next => cases hstep
  | goOn n =>
    simp only [step] at hstep
    split at hstep
    next a hn =>
      obtain ⟨⟨p₁, a'⟩, hp, rfl⟩ := Option.map_eq_some_iff.mp hstep
      exact accounted_goOn h hn hp
    next => cases hstep

/-- In every reachable state the pauses are accounted for. -/
theorem accounted (h : Reachable queues s) : s.Accounted := by
  refine h.invariant ⟨?_, ?_, ?_, ?_⟩ fun _ _ _ hs _ hstep => accounted_step hs hstep
  · intro q
    rfl
  · intro n i l r q hn
    simp at hn
  · intro n a hn
    simp at hn
  · intro m n a b _ hm
    simp at hm

/-! ## No pause too few -/

/-- The `Resumer` that the assignment is going to overwrite, if it has the queue `q`. -/
def overwritten (q : Fin k) : Option (Assignment k) → List ℕ
  | some (.moving _ l _ q') => if q' = q then [l] else []
  | _ => []

lemma length_overwritten (q : Fin k) (o : Option (Assignment k)) :
    (overwritten q o).length = overwrites q o := by
  unfold overwritten overwrites
  split
  · split <;> rfl
  · rfl

/-- Different places with one value are at most as many as the value is counted. -/
lemma length_le_count {places : List ℕ} {xs : List (Option (Fin k))} (hnodup : places.Nodup)
    (hplaces : ∀ c ∈ places, xs[c]? = some (some q)) : places.length ≤ xs.count (some q) := by
  induction places generalizing xs with
  | nil => exact Nat.zero_le _
  | cons c places ih =>
    obtain ⟨hc, hnodup⟩ := List.nodup_cons.mp hnodup
    -- clear the first place: the others still have the value
    have hset := count_set none (some q) (hplaces c List.mem_cons_self)
    have hnone : (if (none : Option (Fin k)) = some q then 1 else 0) = 0 := if_neg nofun
    have hothers : ∀ c' ∈ places, (xs.set c none)[c']? = some (some q) := by
      intro c' hc'
      have hne : c ≠ c' := (ne_of_mem_of_not_mem hc' hc).symm
      rw [List.getElem?_set_ne hne]
      exact hplaces c' (List.mem_cons_of_mem _ hc')
    have hrest := ih hnodup hothers
    rw [if_pos rfl, hnone] at hset
    rw [List.length_cons]
    omega

/-- The `Resumer`s that are going to be overwritten are different ones. -/
lemma overwriting_le (h : s.Accounted) (q : Fin k) : s.overwriting q ≤ s.pointing q := by
  have hlength : s.overwriting q = (s.assignments.flatMap (overwritten q)).length := by
    rw [length_flatMap_eq_tally]
    exact (tally_congr fun o _ => length_overwritten q o).symm
  -- what is going to be overwritten still points to the queue
  have hmem : ∀ (n : ℕ) (o : Option (Assignment k)) (c : ℕ), s.assignments[n]? = some o →
      c ∈ overwritten q o → s.program.resumers[c]? = some (some q) ∧
        ∃ a, o = some a ∧ c ∈ a.cells := by
    intro n o c hn hc
    unfold overwritten at hc
    split at hc
    next i l r q' =>
      split at hc
      next heq =>
        subst heq
        obtain rfl := List.mem_singleton.mp hc
        exact ⟨h.old n i c r q' hn, _, rfl, by simp [Assignment.cells]⟩
      next => cases hc
    next => cases hc
  rw [hlength]
  apply length_le_count
  · apply List.pairwise_flatMap.mpr
    constructor
    · intro o _
      unfold overwritten
      split
      · split <;> simp
      · exact List.Pairwise.nil
    · -- two assignments never share a left-hand side
      apply List.pairwise_iff_getElem.mpr
      intro m n hm hn hlt c hc c' hc' heq
      subst heq
      obtain ⟨-, a, ha, hac⟩ := hmem m _ c (List.getElem?_eq_getElem hm) hc
      obtain ⟨-, b, hb, hbc⟩ := hmem n _ c (List.getElem?_eq_getElem hn) hc'
      refine h.apart m n a b (Nat.ne_of_lt hlt) ?_ ?_ c hac hbc
      · rw [List.getElem?_eq_getElem hm, ha]
      · rw [List.getElem?_eq_getElem hn, hb]
  · intro c hc
    obtain ⟨o, ho, hc⟩ := List.mem_flatMap.mp hc
    obtain ⟨n, hn⟩ := List.getElem?_of_mem ho
    exact (hmem n o c hn hc).1

/-! ## When a queue restarts -/

/-- No operation on a `Resumer` is in progress: no assignment, and no thread is going to decrement the
count of a queue. -/
def State.Settled (s : State k) : Prop :=
  (∀ o ∈ s.assignments, o = none) ∧ ∀ q, .resume ∉ s.program.base.points q

/-- Thread `i` goes on from the decrement of `resume()` to `pickNextTask`. -/
def State.Restarts (s : State k) (i : ℕ) (q : Fin k) : Prop :=
  ∃ th, s.program.base.threads[i]? = some th ∧ th.call = some (q, .pick .member .readPauseCount)

/-- No `Resumer` of the queue is left but those that an assignment has resumed and is going to
overwrite, and nobody else releases one. -/
def State.Released (s : State k) (q : Fin k) : Prop :=
  s.pointing q = s.overwriting q ∧ s.releasing q = 0

/-- With no assignment going on nothing is being overwritten. -/
lemma overwriting_eq_zero (h : s.Settled) (q : Fin k) : s.overwriting q = 0 := by
  apply tally_eq_zero.mpr
  intro o ho
  rw [h.1 o ho]
  rfl

lemma releasing_eq_zero (h : s.Settled) (q : Fin k) : s.releasing q = 0 := by
  apply tally_eq_zero.mpr
  intro pt hpt
  cases pt with
  | resume => exact absurd hpt (h.2 q)
  | _ => rfl

/-- The decrement of `resume()`. -/
lemma decrement {th : Thread (Fin k) (Closure k)} (hth : s.program.base.threads[i]? = some th)
    (hcall : th.call = some (q, .resume))
    (hstep : step queues s (.program (.advance i)) = some s') :
    s'.pauseCount q + 1 = s.pauseCount q ∧ (s'.Restarts i q ↔ s'.pauseCount q = 0) := by
  simp only [step] at hstep
  split at hstep
  next =>
    obtain ⟨p₁, hp, rfl⟩ := Option.map_eq_some_iff.mp hstep
    have hnext : th.next? = some (q, .resume) := by rw [Thread.next?, hcall]
    obtain ⟨b, hb, hbase⟩ : ∃ b, SerialTaskQueue.step s.program.base (.advance i) = some b ∧
        p₁.base = b := by
      simp only [LimitedTaskQueue.step, hth, Option.bind_some, hnext] at hp
      obtain ⟨b, hb, rfl⟩ := Option.map_eq_some_iff.mp hp
      exact ⟨b, hb, rfl⟩
    obtain ⟨th', q', pt, r, hth', hnext', hr, rfl⟩ := SerialTaskQueue.step_advance hb
    obtain rfl := Option.some.inj (hth.symm.trans hth')
    obtain ⟨rfl, rfl⟩ := Prod.mk.inj (Option.some.inj (hnext.symm.trans hnext'))
    obtain ⟨⟨m, zero⟩, hresume, rfl⟩ := Option.map_eq_some_iff.mp hr
    simp only [SerialTaskQueue.Queue.resume] at hresume
    split at hresume
    next => cases hresume
    -- the decrement goes on to `pickNextTask` exactly when the count it leaves is zero
    next hne =>
      obtain ⟨rfl, rfl⟩ := Prod.mk.inj (Option.some.inj hresume)
      have hcount : State.pauseCount { s with program := p₁ } q
          = (s.program.base.queue q).pauseCount - 1 := by
        simp [State.pauseCount, hbase, SerialTaskQueue.State.put]
      have hthread : p₁.base.threads[i]? = some { th with
          call := if 0 == (s.program.base.queue q).pauseCount - 1
            then some (q, .pick .member .readPauseCount) else none } := by
        have hlt := (List.getElem?_eq_some_iff.mp hth).1
        rw [hbase]
        simp only [SerialTaskQueue.State.put, Thread.goto, hcall]
        rw [List.getElem?_append_left (by simpa using hlt), List.getElem?_set_self hlt]
        split <;> rfl
      rw [hcount]
      refine ⟨by simp only [State.pauseCount]; omega, ?_⟩
      constructor
      · rintro ⟨th', hth', hpick⟩
        obtain rfl := Option.some.inj (hthread.symm.trans hth')
        by_contra hpos
        rw [if_neg (by simpa using Ne.symm hpos)] at hpick
        cases hpick
      · intro hzero
        refine ⟨_, hthread, ?_⟩
        rw [if_pos (by simp [hzero])]
  next => cases hstep

/-- **`Resumer`s account for every pause.** While no operation on a `Resumer` is in progress, the pause
count of each queue is the number of `Resumer`s that point to it; otherwise those count twice that an
assignment has resumed and is going to overwrite. The decrement of `resume()` never comes to a count
of zero, and goes on to start a task if and only if it releases the last `Resumer` of the queue. -/
theorem resumers_account (h : Reachable queues s) :
    (s.Settled → ∀ q, s.pauseCount q = s.pointing q) ∧
    (∀ q, s.pauseCount q + s.overwriting q = s.pointing q + s.releasing q) ∧
    (∀ i th q, s.program.base.threads[i]? = some th → th.call = some (q, .resume) →
      s.pauseCount q ≠ 0 ∧ ∀ s', step queues s (.program (.advance i)) = some s' →
        (s'.Restarts i q ↔ s'.Released q)) := by
  have haccounted := accounted h
  refine ⟨?_, haccounted.balance, ?_⟩
  · intro hsettled q
    have hbalance := haccounted.balance q
    have hoverwriting := overwriting_eq_zero hsettled q
    have hreleasing := releasing_eq_zero hsettled q
    omega
  · intro i th q hth hcall
    have hbalance := haccounted.balance q
    have hle := overwriting_le haccounted q
    have hreleasing : 1 ≤ s.releasing q :=
      SerialTaskQueue.le_count Point.resumes
        (SerialTaskQueue.mem_points (List.mem_of_getElem? hth) (.inr hcall))
    refine ⟨by omega, ?_⟩
    intro s' hstep
    have hafter := accounted_step haccounted hstep
    have hbalance' := hafter.balance q
    have hle' := overwriting_le hafter q
    obtain ⟨-, hrestarts⟩ := decrement hth hcall hstep
    rw [hrestarts]
    unfold State.Released
    omega

/-- The lambda of the first of two queues makes a `Resumer`; the action copies it, assigns the copy to
itself, which releases it, and copy-assigns the first one to the empty copy. -/
def assigned : List Label :=
  [Label.program .fork, .pushAndPause 0 0 0, .program (.proceed 0)]
    ++ List.replicate 7 (Label.program (.advance 0)) ++ [Label.program (.proceed 0)]
    ++ List.replicate 7 (Label.program (.advance 0)) ++ [Label.program (.proceed 0)]
    ++ List.replicate 2 (Label.program (.advance 1)) ++ [Label.program (.proceed 1),
      .program (.proceed 1), .program (.advance 1), .program (.copy 1 0), .program (.advance 1),
      .moveAssign 1 1 1, .program (.advance 1), .goOn 0, .copyAssign 1 1 0, .goOn 1, .goOn 1]

theorem resumers_account_assigned : ∃ s : State 2, s.program.resumers = [some 0, some 0, none] ∧
    s.pauseCount 0 = s.pointing 0 := by
  have hrun : ∃ s : State 2, executeAll (step fun _ => List.finRange 2) {} assigned = some s ∧
      s.program.resumers = [some 0, some 0, none] ∧ s.assignments = [none, none] ∧
      s.program.base.points 0 = [.execute 0 ⟨0, 0, .pushAndPause 0 0⟩] ∧
      s.program.base.points 1 = [.waiting ⟨1, 0, .pushAndPause 1 0⟩] := ⟨_, rfl, rfl, rfl, rfl, rfl⟩
  obtain ⟨s, hs, hresumers, hassignments, hpoints, hpoints'⟩ := hrun
  have hsettled : s.Settled := by
    constructor
    · rw [hassignments]
      decide
    · refine Fin.forall_fin_two.mpr ⟨?_, ?_⟩
      · simp [hpoints]
      · simp [hpoints']
  exact ⟨s, hresumers, (resumers_account (.of_executeAll _ hs)).1 hsettled 0⟩

end UnifyPrototype.LimitedTaskQueue.Resumer
