import UnifyPrototype.Holders.Model
import UnifyPrototype.Utils.Lockstep

/-!
# No bad pointers

The reference count of a task is the number of holders that hold it, and a task that waits to be
executed has none. So a `WaitingTaskWithArenaHolder` never comes to a deleted task, nor to a null
pointer, whatever is done with holders that have no task.
-/

namespace UnifyPrototype.Holders

open UnifyPrototype.Utils HolderClass

variable {E : Type} {w : World E} {h k : WaitingTaskWithArenaHolder} {n n' : ℕ → ℕ} {t : ℕ}

/-- One if the holder holds the task `t`. -/
def WaitingTaskWithArenaHolder.holds (h : WaitingTaskWithArenaHolder) (t : ℕ) : ℕ :=
  if h.task = some t then 1 else 0

/-- The same for an object that may be destroyed. -/
def holds (t : ℕ) : Option WaitingTaskWithArenaHolder → ℕ
  | some h => h.holds t
  | none => 0

/-- A holder with a task has a group and an arena. -/
def WaitingTaskWithArenaHolder.Ready (h : WaitingTaskWithArenaHolder) : Prop :=
  h.task.isSome → h.group.isSome ∧ h.arena.isSome

/-- The task is there. -/
def World.Alive (w : World E) (t : ℕ) : Prop :=
  ∃ m, w.tasks[t]? = some (some m)

/-- When `n t` holders hold the task `t`: this is its reference count, and a task that waits to be
executed waits once and is not held. -/
structure World.Counted (w : World E) (n : ℕ → ℕ) : Prop where
  count : ∀ t m, w.tasks[t]? = some (some m) → m.refCount = n t
  alive : ∀ t, 0 < n t → w.Alive t
  once : (w.waiting.map Prod.snd).Nodup
  waiting : ∀ t ∈ w.waiting.map Prod.snd, n t = 0 ∧ w.Alive t
  group : ∀ item ∈ w.enqueued, item.2.1.isSome

/-- What may be wrong with a sequence of calls. -/
abbrev Permitted (e : Stop) : Prop :=
  e = .excluded

/-! ## Member functions -/

/-- A change of one task, as far as the count is concerned. -/
lemma counted_modify (hw : w.Counted n) (ht : w.Alive t) (f : WaitingTask.Task E → WaitingTask.Task E)
    (hn : ∀ t', t' ≠ t → n' t' = n t') (hf : ∀ m, m.refCount = n t → (f m).refCount = n' t)
    (hwaiting : t ∈ w.waiting.map Prod.snd → n' t = 0) :
    Ensures Permitted (fun v => v.Counted n' ∧ v.Alive t ∧ v.waiting = w.waiting)
      (w.modify (some t) f) := by
  obtain ⟨m, hm⟩ := ht
  have hlt := (List.getElem?_eq_some_iff.mp hm).1
  simp only [World.modify, World.task, hm]
  have hself : (w.tasks.set t (some (f m)))[t]? = some (some (f m)) := List.getElem?_set_self hlt
  have hother : ∀ t', t' ≠ t → (w.tasks.set t (some (f m)))[t']? = w.tasks[t']? :=
    fun t' hne => List.getElem?_set_ne (Ne.symm hne)
  have halive : ∀ t', w.Alive t' → World.Alive { w with tasks := w.tasks.set t (some (f m)) } t' := by
    rintro t' ⟨m', hm'⟩
    by_cases hne : t' = t
    · subst hne
      exact ⟨_, hself⟩
    · exact ⟨m', (hother t' hne).trans hm'⟩
  -- at `t` the count changes with the task, and everywhere else neither does
  refine ⟨⟨?_, ?_, hw.once, ?_, hw.group⟩, ⟨_, hself⟩, rfl⟩
  · intro t' m' hm'
    by_cases hne : t' = t
    · subst hne
      obtain rfl := Option.some.inj (Option.some.inj (hm'.symm.trans hself))
      exact hf m (hw.count t' m hm)
    · rw [hn t' hne]
      exact hw.count t' m' ((hother t' hne).symm.trans hm')
  · intro t' hpos
    apply halive
    by_cases hne : t' = t
    · subst hne
      exact ⟨m, hm⟩
    · rw [hn t' hne] at hpos
      exact hw.alive t' hpos
  · intro t' hmem
    obtain ⟨hzero, hthere⟩ := hw.waiting t' hmem
    refine ⟨?_, halive t' hthere⟩
    by_cases hne : t' = t
    · subst hne
      exact hwaiting hmem
    · rw [hn t' hne, hzero]

/-- A task that is held does not wait. -/
lemma World.Counted.not_waiting (hw : w.Counted n) (hpos : 0 < n t) :
    t ∉ w.waiting.map Prod.snd := by
  intro hmem
  have hzero := (hw.waiting t hmem).1
  omega

/-- A holder more of a task that does not wait. -/
lemma counted_increment (hw : w.Counted n) (ht : w.Alive t) (hnot : t ∉ w.waiting.map Prod.snd)
    (hself : n' t = n t + 1) (hn : ∀ t', t' ≠ t → n' t' = n t') :
    Ensures Permitted (fun v => v.Counted n') (w.incrementRefCount (some t)) := by
  apply (counted_modify hw ht WaitingTask.Task.incrementRefCount hn ?_ ?_).mono
  · rintro v ⟨hv, -⟩
    exact hv
  · intro m hm
    rw [hself, ← hm]
    rfl
  · intro hmem
    exact absurd hmem hnot

/-- A failure is reported to a task that is held. -/
lemma counted_reportFailure (hw : w.Counted n) (hpos : 0 < n t) (e : Option E) :
    Ensures Permitted (fun v => v.Counted n) (w.reportFailure (some t) e) := by
  cases e with
  | none => exact hw
  | some e =>
    apply (counted_modify hw (hw.alive t hpos) (dependentTaskFailed · e) (fun _ _ => rfl) ?_ ?_).mono
    · rintro v ⟨hv, -⟩
      exact hv
    · intro m hm
      rw [← hm]
      unfold dependentTaskFailed
      split <;> rfl
    · intro hmem
      exact absurd hmem (hw.not_waiting hpos)

/-- A holder less; what is returned is the number of those left. -/
lemma counted_decrement (hw : w.Counted n) (hself : n t = n' t + 1)
    (hn : ∀ t', t' ≠ t → n' t' = n t') :
    Ensures Permitted (fun r => r.1.Counted n' ∧ r.1.Alive t ∧ t ∉ r.1.waiting.map Prod.snd ∧
      r.2 = n' t) (w.decrementRefCount (some t)) := by
  have hpos : 0 < n t := by omega
  have hnot := hw.not_waiting hpos
  obtain ⟨m, hm⟩ := hw.alive t hpos
  have hcount := hw.count t m hm
  have htask : w.task (some t) = .ok (t, m) := by simp only [World.task, hm]
  unfold World.decrementRefCount
  rw [htask]
  apply (counted_modify hw ⟨m, hm⟩ (fun m => m.decrementRefCount.1) hn ?_ ?_).bind
  · rintro v ⟨hv, halive, hwaiting⟩
    refine ⟨hv, halive, ?_, ?_⟩
    · rw [hwaiting]
      exact hnot
    · show m.refCount - 1 = n' t
      omega
  · intro m' hm'
    show m'.refCount - 1 = n' t
    omega
  · intro hmem
    exact absurd hmem hnot

/-- A task that nobody holds any more may wait. -/
lemma counted_enqueue {a g : ℕ} (hw : w.Counted n) (halive : w.Alive t)
    (hnot : t ∉ w.waiting.map Prod.snd) (hzero : n t = 0) :
    Ensures Permitted (fun v => v.Counted n) (w.arenaEnqueue (some a) (some g) (some t)) := by
  have hperm : (World.waiting { w with enqueued := w.enqueued ++ [(a, some g, t)] }).Perm
      ((some g, t) :: w.waiting) := by
    simp only [World.waiting, List.map_append, List.map_cons, List.map_nil, List.append_assoc]
    exact List.perm_middle
  refine ⟨hw.count, hw.alive, ?_, ?_, ?_⟩
  · rw [(hperm.map Prod.snd).nodup_iff]
    exact List.nodup_cons.mpr ⟨hnot, hw.once⟩
  · intro t' hmem
    rcases List.mem_cons.mp ((hperm.map Prod.snd).mem_iff.mp hmem) with rfl | hmem
    · exact ⟨hzero, halive⟩
    · exact hw.waiting t' hmem
  · intro item hitem
    rcases List.mem_append.mp hitem with hitem | hitem
    · exact hw.group item hitem
    · rw [List.mem_singleton.mp hitem]
      rfl

lemma holds_self (ht : h.task = some t) : h.holds t = 1 :=
  if_pos ht

lemma holds_of_ne {t' : ℕ} (ht : h.task = some t) (hne : t' ≠ t) : h.holds t' = 0 := by
  unfold WaitingTaskWithArenaHolder.holds
  rw [ht]
  exact if_neg fun heq => hne (Option.some.inj heq).symm

lemma holds_of_none (ht : h.task = none) (t : ℕ) : h.holds t = 0 := by
  unfold WaitingTaskWithArenaHolder.holds
  rw [ht]
  exact if_neg nofun

/-- A new holder has its task counted. -/
lemma counted_construct {attached iGroup iTask : ℕ} (hw : w.Counted n) (ht : w.Alive iTask)
    (hnot : iTask ∉ w.waiting.map Prod.snd) (hh : h = ⟨some iTask, some iGroup, some attached⟩)
    (hn : ∀ t, n' t = n t + h.holds t) :
    Ensures Permitted (fun r => r.1.Counted n' ∧ r.2 = h)
      (WaitingTaskWithArenaHolder.construct w attached iGroup iTask) := by
  have hself : h.task = some iTask := by rw [hh]
  apply (counted_increment hw ht hnot ?_ ?_).bind
  · intro v hv
    exact ⟨hv, hh.symm⟩
  · rw [hn iTask, holds_self hself]
  · intro t' hne
    rw [hn t', holds_of_ne hself hne]
    rfl

/-- `doneWaiting` gives back the reference of the holder. -/
lemma counted_doneWaiting (hw : w.Counted n) (hready : h.Ready) (ht : h.task.isSome)
    (hn : ∀ t, n t = n' t + h.holds t) (e : Option E) :
    Ensures Permitted (fun r => r.1.Counted n' ∧ r.2 = { h with task := none }) (h.doneWaiting w e) := by
  obtain ⟨hg, ha⟩ := hready ht
  obtain ⟨t, htask⟩ := Option.isSome_iff_exists.mp ht
  obtain ⟨g, hg⟩ := Option.isSome_iff_exists.mp hg
  obtain ⟨a, ha⟩ := Option.isSome_iff_exists.mp ha
  have hself : n t = n' t + 1 := by rw [hn t, holds_self htask]
  have hother : ∀ t', t' ≠ t → n' t' = n t' := by
    intro t' hne
    rw [hn t', holds_of_ne htask hne]
    rfl
  unfold WaitingTaskWithArenaHolder.doneWaiting
  rw [htask, hg, ha]
  apply (counted_reportFailure hw (by omega) e).bind
  intro v hv
  apply (counted_decrement hv hself hother).bind
  rintro ⟨u, c⟩ ⟨hu, halive, hnot, hc⟩
  by_cases hzero : 0 = c
  · simp only [if_pos hzero]
    apply (counted_enqueue hu halive hnot (hc.symm.trans hzero.symm)).bind
    intro x hx
    exact ⟨hx, rfl⟩
  · simp only [if_neg hzero]
    exact ⟨hu, rfl⟩

/-- A holder is destroyed and its task, if it has one, is counted down. -/
lemma counted_destroy (hw : w.Counted n) (hready : h.Ready) (hn : ∀ t, n t = n' t + h.holds t) :
    Ensures Permitted (fun v => v.Counted n') (h.destroy w) := by
  unfold WaitingTaskWithArenaHolder.destroy
  split
  next ht =>
    apply (counted_doneWaiting hw hready ht hn none).bind
    rintro r ⟨hr, -⟩
    exact hr
  next ht =>
    have hnone : h.task = none := by simpa using ht
    have hsame : n' = n := by
      funext t
      rw [hn t, holds_of_none hnone]
      rfl
    rw [hsame]
    exact hw

/-- The copy has a reference of its own, if there is a task. -/
lemma counted_copy (hw : w.Counted n) (hpos : ∀ t, h.task = some t → 0 < n t)
    (hn : ∀ t, n' t = n t + h.holds t) :
    Ensures Permitted (fun r => r.1.Counted n' ∧ r.2 = h) (h.copy w) := by
  unfold WaitingTaskWithArenaHolder.copy
  cases ht : h.task with
  | none =>
    have hsame : n' = n := by
      funext t
      rw [hn t, holds_of_none ht]
      rfl
    rw [hsame]
    refine ⟨hw, ?_⟩
    cases h
    cases ht
    rfl
  | some t =>
    have hnot := hw.not_waiting (hpos t ht)
    apply (counted_increment hw (hw.alive t (hpos t ht)) hnot ?_ ?_).bind
    · intro v hv
      refine ⟨hv, ?_⟩
      cases h
      cases ht
      rfl
    · rw [hn t, holds_self ht]
    · intro t' hne
      rw [hn t', holds_of_ne ht hne]
      rfl

/-- The old task is given back after the new one is taken. -/
lemma counted_copyAssign (hw : w.Counted n) (hready : h.Ready) (hpos : ∀ t, k.task = some t → 0 < n t)
    (hn : ∀ t, n' t + h.holds t = n t + k.holds t) :
    Ensures Permitted (fun r => r.1.Counted n' ∧ r.2 = k) (h.copyAssign w k) := by
  apply (counted_copy hw hpos fun _ => rfl).bind
  rintro ⟨v, _⟩ ⟨hv, rfl⟩
  apply (counted_destroy hv hready fun t => (hn t).symm).bind
  intro u hu
  exact ⟨hu, rfl⟩

/-! ## Calls and events -/

/-- The reference counts are the numbers of holders, and every holder is ready. -/
structure State.Counted (s : State WaitingTaskWithArenaHolder E) : Prop where
  world : s.world.Counted fun t => tally (holds t) s.holders
  ready : ∀ h, some h ∈ s.holders → h.Ready

variable {s s' : State WaitingTaskWithArenaHolder E}
  {holders : List (Option WaitingTaskWithArenaHolder)} {o : Option WaitingTaskWithArenaHolder}

/-- Going on with an object of the list. -/
lemma ensures_object {A B : Type} {l : List (Option A)} {i : ℕ} {f : A → Except Stop B} {Q : B → Prop}
    (hf : ∀ a, l[i]? = some (some a) → Ensures Permitted Q (f a)) :
    Ensures Permitted Q (object l i >>= f) := by
  unfold object
  split
  next a ha => exact hf a ha
  next => exact rfl

/-- What is done with a holder that has a task. -/
lemma ensures_holding {B : Type} {i : ℕ} {f : WaitingTaskWithArenaHolder → Except Stop B} {Q : B → Prop}
    (hf : ∀ h, s.holders[i]? = some (some h) → h.task.isSome → Ensures Permitted Q (f h)) :
    Ensures Permitted Q (s.holding i >>= f) := by
  unfold State.holding
  rw [bind_assoc]
  apply ensures_object
  intro h hi
  split
  next ht => exact hf h hi ht
  next => exact rfl

/-- A place is given a holder that is ready. -/
lemma ready_set {i : ℕ} (hl : ∀ h, some h ∈ holders → h.Ready) (ho : ∀ h, o = some h → h.Ready) :
    ∀ h, some h ∈ holders.set i o → h.Ready := by
  intro h hmem
  rcases List.mem_or_eq_of_mem_set hmem with hmem | heq
  · exact hl h hmem
  · exact ho h heq.symm

lemma ready_append (hl : ∀ h, some h ∈ holders → h.Ready) (hk : k.Ready) :
    ∀ h, some h ∈ holders ++ [some k] → h.Ready := by
  intro h hmem
  rcases List.mem_append.mp hmem with hmem | hmem
  · exact hl h hmem
  · obtain rfl := Option.some.inj (List.mem_singleton.mp hmem)
    exact hk

lemma tally_append_holder (t : ℕ) :
    tally (holds t) (holders ++ [some h]) = tally (holds t) holders + h.holds t := by
  simp [holds]

/-- A holder of the list counts for its task. -/
lemma tally_pos {i : ℕ} (hi : holders[i]? = some (some h)) (t : ℕ) (ht : h.task = some t) :
    0 < tally (holds t) holders := by
  have hle := le_tally (holds t) hi
  have hone : holds t (some h) = 1 := holds_self ht
  omega

lemma ready_of_none {g a : Option ℕ} : WaitingTaskWithArenaHolder.Ready ⟨none, g, a⟩ :=
  nofun

/-- The task moves with its holder. -/
lemma counted_move {i : ℕ} (hs : s.Counted) (hi : s.holders[i]? = some (some h)) :
    State.Counted { s with holders := s.holders.set i (some (h.move).2) ++ [some (h.move).1] } := by
  have hset := fun t => tally_set (holds t) (some h.move.2) hi
  refine ⟨?_, ready_append (ready_set hs.ready ?_) ?_⟩
  · have hsame : (fun t => tally (holds t) (s.holders.set i (some h.move.2) ++ [some h.move.1]))
        = fun t => tally (holds t) s.holders := by
      funext t
      have hleft : holds t (some h.move.2) = 0 := holds_of_none rfl t
      have hnew : h.move.1.holds t = holds t (some h) := rfl
      rw [tally_append_holder, hnew]
      have hmoved := hset t
      omega
    exact hsame ▸ hs.world
  · intro _ heq
    obtain rfl := Option.some.inj heq
    exact ready_of_none
  · exact hs.ready h (List.mem_of_getElem? hi)

/-- `l` takes what `tmp` has, and `tmp` is destroyed with what `l` had. -/
lemma counted_assign {i : ℕ} (hw : w.Counted fun t => tally (holds t) holders + k.holds t)
    (hready : ∀ h, some h ∈ holders → h.Ready) (hi : holders[i]? = some (some h)) :
    Ensures Permitted (fun v => v.Counted fun t => tally (holds t) (holders.set i (some k)))
      (h.destroy w) := by
  apply counted_destroy hw (hready h (List.mem_of_getElem? hi))
  intro t
  have hset := tally_set (holds t) (some k) hi
  exact hset.symm

/-- A move assignment destroys what the left holder held. -/
lemma counted_moveAssign {l r : ℕ} (hs : s.Counted) :
    Ensures Permitted (fun v => State.Counted { s with world := v.1, holders := v.2 })
      (WaitingTaskWithArenaHolder.moveAssign s.world s.holders l r) := by
  apply ensures_object
  intro rhs hr
  have hleft : ∀ t, holds t (some rhs.move.2) = 0 := holds_of_none rfl
  have hready := ready_set (i := r) hs.ready (o := some rhs.move.2) (by
    intro _ heq
    obtain rfl := Option.some.inj heq
    exact ready_of_none)
  apply ensures_object
  intro this hl
  have hsame : (fun t => tally (holds t) (s.holders.set r (some rhs.move.2)) + rhs.holds t)
      = fun t => tally (holds t) s.holders := by
    funext t
    have hset := tally_set (holds t) (some rhs.move.2) hr
    have hzero := hleft t
    have hrhs : holds t (some rhs) = rhs.holds t := rfl
    omega
  -- the temporary has the task while the old one is given up
  have hworld : s.world.Counted fun t =>
      tally (holds t) (s.holders.set r (some rhs.move.2)) + rhs.holds t := hsame ▸ hs.world
  apply (counted_assign hworld hready hl).bind
  intro v hv
  refine ⟨hv, ready_set hready ?_⟩
  intro _ heq
  obtain rfl := Option.some.inj heq
  exact hs.ready rhs (List.mem_of_getElem? hr)

/-- A new task, which nobody holds. -/
lemma counted_newTask (hs : s.Counted) :
    State.Counted { s with world := { s.world with tasks := s.world.tasks ++ [some {}] } } := by
  refine ⟨⟨?_, ?_, hs.world.once, ?_, hs.world.group⟩, hs.ready⟩
  · intro t m hm
    rcases Nat.lt_or_ge t s.world.tasks.length with hlt | hge
    · rw [List.getElem?_append_left hlt] at hm
      exact hs.world.count t m hm
    · -- nobody holds the new task
      have hzero : tally (holds t) s.holders = 0 := by
        by_contra hne
        obtain ⟨m', hm'⟩ := hs.world.alive t (Nat.pos_of_ne_zero hne)
        have hlt := (List.getElem?_eq_some_iff.mp hm').1
        omega
      rw [List.getElem?_append_right hge] at hm
      obtain rfl : m = {} := by
        have hmem := List.mem_singleton.mp (List.mem_of_getElem? hm)
        exact Option.some.inj hmem
      exact hzero.symm
  · intro t hpos
    obtain ⟨m, hm⟩ := hs.world.alive t hpos
    exact ⟨m, (List.getElem?_append_left (List.getElem?_eq_some_iff.mp hm).1).trans hm⟩
  · intro t hmem
    obtain ⟨hzero, m, hm⟩ := hs.world.waiting t hmem
    exact ⟨hzero, m, (List.getElem?_append_left (List.getElem?_eq_some_iff.mp hm).1).trans hm⟩

/-- Each call keeps the counts. -/
lemma counted_call (hs : s.Counted) (op : Op E) : Ensures Permitted State.Counted (op.call s) := by
  cases op with
  | newTask => exact counted_newTask hs
  | default =>
    refine ⟨?_, ready_append hs.ready ready_of_none⟩
    have hsame : (fun t => tally (holds t) (s.holders ++ [some WaitingTaskWithArenaHolder.default]))
        = fun t => tally (holds t) s.holders := by
      funext t
      rw [tally_append_holder, holds_of_none rfl, Nat.add_zero]
    exact hsame ▸ hs.world
  -- what constructs or copies a holder adds one to the count of its task
  | construct attached iGroup iTask =>
    simp only [Op.call]
    split
    next hcond =>
      obtain ⟨hsome, hnot⟩ := hcond
      have halive : s.world.Alive iTask := by
        obtain ⟨m, hm⟩ := Option.isSome_iff_exists.mp hsome
        exact ⟨m, Option.join_eq_some_iff.mp hm⟩
      apply (counted_construct hs.world halive hnot rfl fun t => tally_append_holder t).bind
      rintro r ⟨hr, hnew⟩
      exact ⟨hnew ▸ hr, ready_append hs.ready (hnew ▸ fun _ => ⟨rfl, rfl⟩)⟩
    next => exact rfl
  | copy i =>
    apply ensures_object
    intro h hi
    apply (counted_copy hs.world (tally_pos hi) (fun t => tally_append_holder t)).bind
    rintro r ⟨hr, hnew⟩
    have hready := hs.ready h (List.mem_of_getElem? hi)
    exact ⟨hnew ▸ hr, ready_append hs.ready (hnew ▸ hready)⟩
  | move i =>
    apply ensures_object
    intro h hi
    exact counted_move hs hi
  | copyAssign i j =>
    apply ensures_object
    intro this hthis
    apply ensures_object
    intro rhs hrhs
    apply (counted_copyAssign hs.world (hs.ready this (List.mem_of_getElem? hthis))
      (tally_pos hrhs) fun t => tally_set (holds t) (some rhs) hthis).bind
    rintro r ⟨hr, hnew⟩
    refine ⟨hnew ▸ hr, ready_set hs.ready ?_⟩
    intro _ heq
    obtain rfl := Option.some.inj heq
    exact hnew ▸ hs.ready rhs (List.mem_of_getElem? hrhs)
  -- what moves one changes no count, and what destroys one gives it back
  | moveAssign i j =>
    apply (counted_moveAssign hs).bind
    intro v hv
    exact hv
  | destroy i =>
    apply ensures_object
    intro h hi
    apply (counted_destroy hs.world (hs.ready h (List.mem_of_getElem? hi))
      fun t => (tally_set (holds t) none hi).symm).bind
    intro v hv
    exact ⟨hv, ready_set hs.ready nofun⟩
  | presetTaskAsFailed i e =>
    apply ensures_holding
    intro h hi ht
    obtain ⟨t, htask⟩ := Option.isSome_iff_exists.mp ht
    have hreport := counted_reportFailure hs.world (tally_pos hi t htask) e
    rw [← htask] at hreport
    apply hreport.bind
    intro v hv
    exact ⟨hv, hs.ready⟩
  | doneWaiting i e =>
    apply ensures_holding
    intro h hi ht
    apply (counted_doneWaiting hs.world (hs.ready h (List.mem_of_getElem? hi)) ht
      (fun t => (tally_set (holds t) (some ⟨none, h.group, h.arena⟩) hi).symm) e).bind
    rintro ⟨v, _⟩ ⟨hv, rfl⟩
    refine ⟨hv, ready_set hs.ready ?_⟩
    intro _ heq
    obtain rfl := Option.some.inj heq
    exact ready_of_none
  -- a question changes nothing, and the task it asks is alive since it is held
  | taskHasFailed i =>
    apply ensures_holding
    intro h hi ht
    obtain ⟨t, htask⟩ := Option.isSome_iff_exists.mp ht
    obtain ⟨m, hm⟩ := hs.world.alive t (tally_pos hi t htask)
    have hanswer : h.taskHasFailed s.world = .ok m.exceptionPtr.isSome := by
      simp only [WaitingTaskWithArenaHolder.taskHasFailed, World.task, htask, hm]
      rfl
    show Ensures Permitted _ (h.taskHasFailed s.world >>= _)
    rw [hanswer]
    exact ⟨hs.world, hs.ready⟩

/-- A task that leaves the arena for its group waits at another place, but still once. -/
lemma waiting_enqueued {a g : ℕ} (hmem : (a, some g, t) ∈ w.enqueued) :
    (World.waiting { w with
      enqueued := w.enqueued.erase (a, some g, t), run := w.run ++ [(g, t)] }).Perm w.waiting := by
  have herase := (List.perm_cons_erase hmem).map Prod.snd
  simp only [World.waiting, List.map_append, List.map_cons, List.map_nil] at herase ⊢
  rw [← List.append_assoc]
  refine List.perm_append_comm.trans ?_
  exact (herase.append_right _).symm

/-- A task that its group executes waits no more. -/
lemma waiting_run {g : ℕ} (hmem : (g, t) ∈ w.run) :
    w.waiting.Perm ((some g, t) :: World.waiting { w with run := w.run.erase (g, t) }) := by
  have herase := (List.perm_cons_erase hmem).map fun item => (some item.1, item.2)
  simp only [World.waiting]
  exact (herase.append_left _).trans List.perm_middle

/-- The arena runs the task in its group. -/
lemma counted_arena {item : ℕ × Option ℕ × ℕ} (hs : s.Counted) :
    Ensures Permitted State.Counted (step s (.arena item)) := by
  simp only [step]
  split
  next hmem =>
    obtain ⟨a, g, t⟩ := item
    obtain ⟨g, rfl⟩ := Option.isSome_iff_exists.mp (hs.world.group _ hmem)
    have hwaits := (waiting_enqueued hmem).map Prod.snd
    refine ⟨⟨hs.world.count, hs.world.alive, hwaits.nodup_iff.mpr hs.world.once, ?_, ?_⟩, hs.ready⟩
    · intro t' hmem'
      exact hs.world.waiting t' (hwaits.mem_iff.mp hmem')
    · intro item hitem
      exact hs.world.group item (List.mem_of_mem_erase hitem)
  next => exact rfl

/-- The group executes the task, which no holder holds and which waits nowhere else. -/
lemma counted_group {item : ℕ × ℕ} (hs : s.Counted) :
    Ensures Permitted State.Counted (step s (.group item)) := by
  simp only [step]
  split
  next hmem =>
    obtain ⟨g, t⟩ := item
    -- the task waited here, so its count is zero and deleting it leaves no pointer behind
    have hwaits := (waiting_run hmem).map Prod.snd
    obtain ⟨hnot, honce⟩ := List.nodup_cons.mp (hwaits.nodup_iff.mp hs.world.once)
    obtain ⟨hzero, m, hm⟩ := hs.world.waiting t (hwaits.mem_iff.mpr List.mem_cons_self)
    have hother : ∀ t', t' ≠ t → (s.world.tasks.set t none)[t']? = s.world.tasks[t']? :=
      fun t' hne => List.getElem?_set_ne (Ne.symm hne)
    simp only [World.task, hm]
    refine ⟨⟨?_, ?_, honce, ?_, hs.world.group⟩, hs.ready⟩
    · intro t' m' hm'
      have hne : t' ≠ t := by
        rintro rfl
        have hnone := List.getElem?_set_self (a := (none : Option (WaitingTask.Task E)))
          (List.getElem?_eq_some_iff.mp hm).1
        cases hnone.symm.trans hm'
      exact hs.world.count t' m' ((hother t' hne).symm.trans hm')
    · intro t' hpos
      have hne : t' ≠ t := by
        rintro rfl
        exact absurd hzero (Nat.pos_iff_ne_zero.mp hpos)
      obtain ⟨m', hm'⟩ := hs.world.alive t' hpos
      exact ⟨m', (hother t' hne).trans hm'⟩
    · intro t' hmem'
      have hne : t' ≠ t := by
        rintro rfl
        exact hnot hmem'
      obtain ⟨hzero', m', hm'⟩ := hs.world.waiting t' (hwaits.mem_iff.mpr (List.mem_cons_of_mem _ hmem'))
      exact ⟨hzero', m', (hother t' hne).trans hm'⟩
  next => exact rfl

/-- In every sequence of events the reference counts are right, and no pointer is bad. -/
theorem counted (events : List (Event E)) :
    Ensures Permitted State.Counted (run WaitingTaskWithArenaHolder events) := by
  apply Ensures.foldlM events
  · refine ⟨⟨?_, ?_, List.nodup_nil, ?_, ?_⟩, ?_⟩ <;> simp [World.waiting]
  · intro s event hs
    cases event with
    | call op => exact counted_call hs op
    | arena item => exact counted_arena hs
    | group item => exact counted_group hs

/-- **`m_refCount` does not wrap** while fewer than `2 ^ 32` holders have the task, with the one that
an assignment makes for a moment: where there is room for one more the word shows the next count, and
where a holder lets go the word comes to zero as the count does. -/
theorem refCount_shows (events : List (Event E)) :
    Ensures Permitted (fun s => ∀ t m, s.world.tasks[t]? = some (some m) →
      tally (holds t) s.holders + 1 < 2 ^ 32 → ∀ c : BitVec 32, Shows c m.refCount →
        Shows (c + 1#32) m.incrementRefCount.refCount ∧
          (0 < tally (holds t) s.holders → Shows (c - 1#32) m.decrementRefCount.1.refCount ∧
            (0#32 = c - 1#32 ↔ 0 = m.decrementRefCount.2)))
      (run WaitingTaskWithArenaHolder events) := by
  apply (counted events).mono
  intro s hs t m hm hfew c hc
  have hcount := hs.world.count t m hm
  exact ⟨WaitingTask.Task.incrementRefCount_shows hc (by omega), fun hpos =>
    WaitingTask.Task.decrementRefCount_shows hc (by omega)⟩

end UnifyPrototype.Holders
