import UnifyPrototype.WaitingTask.Model

/-!
# What an operation does to the holders and the count

Every member function moves references between holders, and between holders and threads; the
reference count follows.
-/

namespace UnifyPrototype.WaitingTask

open UnifyPrototype.Utils

variable {E : Type} {s s' s₁ : State E}

/-! ## References -/

/-- One for a holder that holds the task. -/
def live : Option Holder → ℕ
  | some ⟨_, hasTask⟩ => hasTask.toNat
  | none => 0

/-- One for a thread that owns a reference: it is about to give it up, or it has made a new holder
and not returned it yet. -/
def carries : Option (Point E) → ℕ
  | some (.decrement _) | some (.release _) => 1
  | _ => 0

lemma reading_eq_some {h : ℕ} {x : Holder} (heq : s.reading h = some x) :
    s.holders[h]? = some (some x) ∧
      ∀ q, some q ∈ s.threads → q.holder = some h → q.writes = false := by
  unfold State.reading at heq
  split at heq
  · cases heq
  next hany =>
    refine ⟨by simpa [Option.join_eq_some_iff] using heq, fun q hq hh => ?_⟩
    by_contra hw
    refine hany (List.any_eq_true.mpr ⟨some q, hq, ?_⟩)
    simpa [hh] using hw

lemma writing_eq_some {h : ℕ} {x : Holder} (heq : s.writing h = some x) :
    s.holders[h]? = some (some x) ∧ ∀ q, some q ∈ s.threads → q.holder ≠ some h := by
  unfold State.writing at heq
  split at heq
  · cases heq
  next hany =>
    refine ⟨by simpa [Option.join_eq_some_iff] using heq, fun q hq hh => ?_⟩
    refine hany (List.any_eq_true.mpr ⟨some q, hq, ?_⟩)
    simpa using hh

@[simp] lemma live_addHolder (cls : HolderClass) (b : Bool) :
    tally live (s.addHolder cls b).holders = tally live s.holders + b.toNat := by
  simp [State.addHolder, live]

lemma live_setHolder {h : ℕ} {x : Holder} (hx : s.holders[h]? = some (some x)) (cls : HolderClass)
    (b : Bool) :
    tally live (s.setHolder h cls b).holders + x.hasTask.toNat
      = tally live s.holders + b.toNat :=
  tally_set live (some ⟨cls, b⟩) hx

lemma getElem?_addHolder {h : ℕ} {x : Option Holder} (hx : s.holders[h]? = some x)
    (cls : HolderClass) (b : Bool) : (s.addHolder cls b).holders[h]? = some x :=
  (List.getElem?_append_left (List.getElem?_eq_some_iff.mp hx).1).trans hx

lemma getElem?_setHolder {h h' : ℕ} (hne : h ≠ h') (cls : HolderClass) (b : Bool) :
    (s.setHolder h cls b).holders[h']? = s.holders[h']? :=
  List.getElem?_set_ne hne

/-! ## Calls -/

/-- What a member function reports before it comes to the point `p`. -/
inductive Begins (s s₁ : State E) : Option (Point E) → Prop
  | returned (hreported : s₁.reported = s.reported) : Begins s s₁ none
  | decrement (cls : HolderClass) (hreported : s₁.reported = s.reported) :
      Begins s s₁ (some (.decrement cls))
  | release (h : ℕ) (hreported : s₁.reported = s.reported) : Begins s s₁ (some (.release h))
  | exchange (h : ℕ) (e : E) (c : Reporter) (hreported : s₁.reported = s.reported ++ [e]) :
      Begins s s₁ (some (.exchange h e c))

/-- How a member function changes the count before its first atomic operation that is not an
increment: not at all, or by one while some holder has the task, or by one for the first holder. -/
inductive Counts (s s₁ : State E) : Prop
  | same (hcount : s₁.task.refCount = s.task.refCount) (hwrapped : s₁.wrapped = s.wrapped)
  | again (hcount : s₁.task.refCount = s.task.refCount + 1) (hwrapped : s₁.wrapped = s.wrapped)
      (hlive : 0 < tally live s.holders)
  | first (hcount : s₁.task.refCount = s.task.refCount + 1) (hbefore : s.wrapped = false)
      (hwrapped : s₁.wrapped = true)

/-- What a member function has done when it comes to its first atomic operation that is not an
increment, or returns. -/
structure Started (s s₁ : State E) (p : Option (Point E)) : Prop where
  threads : s₁.threads = s.threads
  others : ∀ q h x, some q ∈ s.threads → q.holder = some h → s.holders[h]? = some x →
    s₁.holders[h]? = some x
  own : ∀ pt h, p = some pt → pt.holder = some h →
    (∃ cls, s₁.holders[h]? = some (some ⟨cls, true⟩)) ∧
      ∀ q, some q ∈ s.threads → q.holder = some h → pt.writes = false ∧ q.writes = false
  count : s₁.task.refCount + tally live s.holders
    = s.task.refCount + tally live s₁.holders + carries p
  counts : Counts s s₁
  begins : Begins s s₁ p
  slot : (s₁.task.ptr, s₁.task.ptrSet, s₁.winner) = (s.task.ptr, s.task.ptrSet, s.winner)
  out : (s₁.enqueued, s₁.run, s₁.executed) = (s.enqueued, s.run, s.executed)

lemma live_pos {h : ℕ} {cls : HolderClass} (hx : s.holders[h]? = some (some ⟨cls, true⟩)) :
    0 < tally live s.holders :=
  le_tally live hx

/-- A copy of a holder. -/
lemma started_copy {h : ℕ} {cls : HolderClass} (hx : s.holders[h]? = some (some ⟨cls, true⟩))
    (cls' : HolderClass) : Started s (s.incrementRefCount.addHolder cls' true) none := by
  refine ⟨rfl, fun q h' x _ _ hx' => ?_, by simp, ?_, .again rfl rfl (live_pos hx), .returned rfl,
    rfl, rfl⟩
  · exact getElem?_addHolder (s := s.incrementRefCount) hx' cls' true
  · rw [live_addHolder]
    show s.task.refCount + 1 + tally live s.holders
      = s.task.refCount + (tally live s.holders + 1) + 0
    omega

/-- A holder is moved into a new one. -/
lemma started_move {h : ℕ} {x : Holder} (hx : s.holders[h]? = some (some x))
    (hfree : ∀ q, some q ∈ s.threads → q.holder ≠ some h) (cls cls' : HolderClass) :
    Started s ((s.setHolder h cls false).addHolder cls' x.hasTask) none := by
  refine ⟨rfl, fun q h' x' hq hh hx' => ?_, by simp, ?_, .same rfl rfl, .returned rfl, rfl, rfl⟩
  · have hne : h ≠ h' := fun heq => hfree q hq (heq ▸ hh)
    exact getElem?_addHolder ((getElem?_setHolder hne cls false).trans hx') cls' x.hasTask
  · rw [live_addHolder]
    have hset := live_setHolder hx cls false
    show s.task.refCount + _ = s.task.refCount + _ + 0
    simp only [Bool.toNat_false] at hset
    omega

/-- The task is taken out of a holder and its reference is about to be given up. -/
lemma started_empty {h : ℕ} {x : Holder} (hx : s.holders[h]? = some (some x)) (y : Option Holder)
    (hy : live y = 0) (hfree : ∀ q, some q ∈ s.threads → q.holder ≠ some h) (cls : HolderClass) :
    Started s { s with holders := s.holders.set h y }
      (if x.hasTask then some (.decrement cls) else none) := by
  have hset := tally_set live y hx
  have hlive : live (some x) = x.hasTask.toNat := rfl
  refine ⟨rfl, fun q h' x' hq hh hx' => ?_, fun pt h' hpt hh => ?_, ?_, .same rfl rfl, ?_, rfl, rfl⟩
  · have hne : h ≠ h' := fun heq => hfree q hq (heq ▸ hh)
    exact (List.getElem?_set_ne hne).trans hx'
  · split at hpt
    · obtain rfl := Option.some.inj hpt
      cases hh
    · cases hpt
  · dsimp only
    cases hb : x.hasTask <;> simp only [hb, Bool.toNat_false, Bool.toNat_true] at hlive <;>
      simp only [Bool.false_eq_true, if_false, if_true, carries] <;> omega
  · split
    · exact .decrement cls rfl
    · exact .returned rfl

/-- `dependentTaskFailed` is called for a holder that no other thread writes, or, by `doneWaiting`,
that no other thread uses. -/
lemma started_report {h : ℕ} {cls : HolderClass} (hx : s.holders[h]? = some (some ⟨cls, true⟩))
    {c : Reporter} (hreads : ∀ q, some q ∈ s.threads → q.holder = some h → q.writes = false)
    (hwrites : c = .doneWaiting → ∀ q, some q ∈ s.threads → q.holder ≠ some h) (e : Option E) :
    Started s (report s h c e).1 (report s h c e).2 := by
  cases e with
  | some e =>
    refine ⟨rfl, fun _ _ _ _ _ hx' => hx', fun pt h' hpt hh => ?_, rfl, .same rfl rfl,
      .exchange h e c rfl, rfl, rfl⟩
    obtain rfl := Option.some.inj hpt
    obtain rfl := Option.some.inj hh
    refine ⟨⟨cls, hx⟩, fun q hq hq' => ⟨?_, hreads q hq hq'⟩⟩
    cases c with
    | presetTaskAsFailed => rfl
    | doneWaiting => exact absurd hq' (hwrites rfl q hq)
  | none =>
    cases c with
    | presetTaskAsFailed =>
      exact ⟨rfl, fun _ _ _ _ _ hx' => hx', by simp [report, Reporter.goOn], rfl, .same rfl rfl,
        .returned rfl, rfl, rfl⟩
    | doneWaiting =>
      have hstarted := started_empty hx (some ⟨cls, false⟩) rfl (hwrites rfl) cls
      simpa [report, Reporter.goOn, hx, State.setHolder] using hstarted

/-- A copy is swapped into a holder, and what the holder had is destroyed. -/
lemma started_copyAssign {l r : ℕ} {x : Holder} {cls : HolderClass}
    (hl : s.holders[l]? = some (some x)) (hr : s.holders[r]? = some (some ⟨cls, true⟩))
    (hfree : ∀ q, some q ∈ s.threads → q.holder ≠ some l) :
    Started s (s.incrementRefCount.setHolder l cls true)
      (if x.hasTask then some (.decrement cls) else none) := by
  refine ⟨rfl, fun q h' x' hq hh hx' => ?_, fun pt h' hpt hh => ?_, ?_, .again rfl rfl (live_pos hr),
    ?_, rfl, rfl⟩
  · have hne : l ≠ h' := fun heq => hfree q hq (heq ▸ hh)
    exact (getElem?_setHolder (s := s.incrementRefCount) hne cls true).trans hx'
  · split at hpt
    · obtain rfl := Option.some.inj hpt
      cases hh
    · cases hpt
  · have hset := live_setHolder (s := s.incrementRefCount) hl cls true
    show s.task.refCount + 1 + tally live s.holders = _
    have hsame : tally live s.incrementRefCount.holders = tally live s.holders := rfl
    show _ = s.task.refCount + _ + _
    cases hb : x.hasTask <;>
      simp only [hb, Bool.toNat_false, Bool.toNat_true, hsame] at hset <;>
      simp only [Bool.false_eq_true, if_false, if_true, carries] <;> omega
  · split
    · exact .decrement cls rfl
    · exact .returned rfl

/-- A holder is moved into another one, or into itself, and what that one had is destroyed. -/
lemma started_moveAssign {l r : ℕ} {x y : Holder} {cls : HolderClass}
    (hl : s.holders[l]? = some (some x)) (hr : s.holders[r]? = some (some y))
    (hfree : ∀ q, some q ∈ s.threads → q.holder ≠ some l)
    (hfree' : ∀ q, some q ∈ s.threads → q.holder ≠ some r) :
    Started s ((s.setHolder r cls false).setHolder l cls y.hasTask)
      (if x.hasTask && l ≠ r then some (.decrement cls) else none) := by
  refine ⟨rfl, fun q h' x' hq hh hx' => ?_, fun pt h' hpt hh => ?_, ?_, .same rfl rfl, ?_, rfl, rfl⟩
  · have hne : l ≠ h' := fun heq => hfree q hq (heq ▸ hh)
    have hne' : r ≠ h' := fun heq => hfree' q hq (heq ▸ hh)
    exact (getElem?_setHolder hne cls _).trans ((getElem?_setHolder hne' cls false).trans hx')
  · split at hpt
    · obtain rfl := Option.some.inj hpt
      cases hh
    · cases hpt
  · have hset := live_setHolder hr cls false
    show s.task.refCount + _ = s.task.refCount + _ + _
    by_cases hlr : l = r
    · subst hlr
      -- the holder is empty when it gets the task back
      have hnow : (s.setHolder l cls false).holders[l]? = some (some ⟨cls, false⟩) := by
        refine List.getElem?_set_self ?_
        exact (List.getElem?_eq_some_iff.mp hl).1
      have hset' := live_setHolder hnow cls y.hasTask
      simp only [Bool.toNat_false] at hset hset'
      simp only [ne_eq, not_true_eq_false, decide_false, Bool.and_false, Bool.false_eq_true,
        if_false, carries]
      omega
    · have hnow := (getElem?_setHolder (s := s) (Ne.symm hlr) cls false).trans hl
      have hset' := live_setHolder hnow cls y.hasTask
      simp only [Bool.toNat_false] at hset
      cases hb : x.hasTask <;>
        simp only [hb, Bool.toNat_false, Bool.toNat_true] at hset' <;>
        simp only [ne_eq, hlr, not_false_eq_true, decide_true, Bool.and_true, Bool.false_eq_true,
          if_false, if_true, carries] <;> omega
  · split
    · exact .decrement cls rfl
    · exact .returned rfl

/-- **Every member function keeps the count in step with the references.** -/
lemma started {op : Op E} {p : Option (Point E)} (h : op.start s = some (s₁, p)) :
    Started s s₁ p := by
  cases op with
  | wrap cls =>
    simp only [Op.start] at h
    split at h
    · cases h
    next hwrapped =>
      obtain ⟨rfl, rfl⟩ := by simpa using h
      -- the first holder of the task: one reference more, and one holder that has it
      refine ⟨rfl, fun q h' x _ _ hx => ?_, by simp, ?_, .first rfl (by simpa using hwrapped) rfl,
        .returned rfl, rfl, rfl⟩
      · exact getElem?_addHolder (s := s.incrementRefCount) hx cls true
      · show s.task.refCount + 1 + _ = s.task.refCount + tally live (s.addHolder cls true).holders + 0
        rw [live_addHolder, Bool.toNat_true]
        omega
  | wrapAgain cls h' =>
    simp only [Op.start] at h
    split at h
    next hx =>
      obtain ⟨rfl, rfl⟩ := by simpa using h
      -- a copy counts again only if its source has the task
      exact started_copy (reading_eq_some hx).1 cls
    next => cases h
  | default cls =>
    obtain ⟨rfl, rfl⟩ := by simpa [Op.start] using h
    refine ⟨rfl, fun q h' x _ _ hx => getElem?_addHolder hx cls false, by simp, ?_, .same rfl rfl,
      .returned rfl, rfl, rfl⟩
    rw [live_addHolder]
    rfl
  | copy h' =>
    simp only [Op.start] at h
    split at h
    next cls hx =>
      obtain ⟨rfl, rfl⟩ := by simpa using h
      exact started_copy (reading_eq_some hx).1 cls
    next => cases h
  | move h' =>
    simp only [Op.start] at h
    split at h
    next cls b hx =>
      obtain ⟨rfl, rfl⟩ := by simpa using h
      exact started_move (writing_eq_some hx).1 (writing_eq_some hx).2 cls cls
    next => cases h
  | copyAssign l r =>
    simp only [Op.start] at h
    split at h
    next cls b cls' hl hr =>
      split at h
      next heq =>
        subst heq
        obtain ⟨rfl, rfl⟩ := by simpa using h
        -- the assignment is a copy and the end of what the left side had
        exact started_copyAssign (writing_eq_some hl).1 (reading_eq_some hr).1 (writing_eq_some hl).2
      next => cases h
    next => cases h
  | moveAssign l r =>
    simp only [Op.start] at h
    split at h
    next cls b cls' b' hl hr =>
      split at h
      next heq =>
        subst heq
        obtain ⟨rfl, rfl⟩ := Prod.mk.inj (Option.some.inj h)
        exact started_moveAssign (writing_eq_some hl).1 (writing_eq_some hr).1
          (writing_eq_some hl).2 (writing_eq_some hr).2
      next => cases h
    next => cases h
  | presetTaskAsFailed h' e =>
    simp only [Op.start] at h
    split at h
    next cls hx =>
      have hreport := started_report (c := .presetTaskAsFailed) (reading_eq_some hx).1
        (reading_eq_some hx).2 (fun hc => by cases hc) e
      rw [Option.some.inj h] at hreport
      exact hreport
    next => cases h
  | doneWaiting h' e =>
    simp only [Op.start] at h
    split at h
    next cls hx =>
      have hfree := (writing_eq_some hx).2
      have hreport := started_report (c := .doneWaiting) (writing_eq_some hx).1
        (fun q hq hh => absurd hh (hfree q hq)) (fun _ => hfree) e
      rw [Option.some.inj h] at hreport
      exact hreport
    next => cases h
  | toArena h' byMove =>
    cases byMove <;> simp only [Op.start] at h <;> split at h
    next hx =>
      obtain ⟨rfl, rfl⟩ := by simpa using h
      exact started_copy (reading_eq_some hx).1 _
    next => cases h
    next hx =>
      obtain ⟨rfl, rfl⟩ := by simpa using h
      exact started_move (writing_eq_some hx).1 (writing_eq_some hx).2 _ _
    next => cases h
  | makeWaitingTaskHolderAndRelease h' =>
    simp only [Op.start] at h
    split at h
    next hx =>
      obtain ⟨rfl, rfl⟩ := by simpa using h
      obtain ⟨hx, hfree⟩ := writing_eq_some hx
      refine ⟨rfl, fun _ _ _ _ _ hx' => hx', fun pt h'' hpt hh => ?_, ?_, .again rfl rfl (live_pos hx),
        .release h' rfl, rfl, rfl⟩
      · -- the point that will release is the only one that writes the holder
        obtain rfl := Option.some.inj hpt
        obtain rfl := Option.some.inj hh
        exact ⟨⟨_, hx⟩, fun q hq hq' => absurd hq' (hfree q hq)⟩
      · show s.task.refCount + 1 + _ = s.task.refCount + tally live s.holders + 1
        omega
    next => cases h
  | destroy h' =>
    simp only [Op.start] at h
    split at h
    next cls b hx =>
      obtain ⟨rfl, rfl⟩ := by simpa using h
      exact started_empty (writing_eq_some hx).1 none rfl (writing_eq_some hx).2 cls
    next => cases h

end UnifyPrototype.WaitingTask
