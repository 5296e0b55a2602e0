import UnifyPrototype.ChainFirst.LastTask

/-!
# The stages run one after another

At any time all holders in use are of one task. Either the exception that is pending is being
forwarded to it, or it collects what the functor of the last stage reports. It is executed when the
last of its holders is gone.
-/

namespace UnifyPrototype.ChainFirst

open UnifyPrototype.Utils

variable {N E : Type} {s s' : State N E} {l : List (Stage N)} {x y : Option E} {L k t : ℕ} {e : E}

/-! ## The exception of a task -/

/-- The exception pointer of the task is `y`. -/
def Holds (m : WaitingTask.Task E) (y : Option E) : Prop :=
  m.ptr = y ∧ m.ptrSet = if y.isSome then .set else .unset

/-- The first exception stays. -/
lemma Holds.dependentTaskFailed {m : WaitingTask.Task E} (h : Holds m y) (e : E) :
    Holds (dependentTaskFailed m e) (y.or (some e)) := by
  obtain ⟨hptr, hset⟩ := h
  cases y with
  | none =>
    have hunset : m.ptrSet = .unset := hset
    rw [ChainFirst.dependentTaskFailed, if_pos hunset]
    exact ⟨rfl, rfl⟩
  | some e' =>
    have hne : m.ptrSet ≠ .unset := by
      rw [show m.ptrSet = .set from hset]
      decide
    rw [ChainFirst.dependentTaskFailed, if_neg hne]
    exact ⟨hptr, hset⟩

/-- A failure does not touch the count. -/
lemma refCount_dependentTaskFailed (m : WaitingTask.Task E) (e : E) :
    (dependentTaskFailed m e).refCount = m.refCount := by
  unfold dependentTaskFailed
  split <;> rfl

/-- The first report stays the first. -/
lemma head?_append_report (r : List E) (e : E) : (r ++ [e]).head? = r.head?.or (some e) := by
  cases r <;> rfl

/-! ## One task at a time -/

/-- The task of the holder that the handler uses. -/
def Point.task : Point E → ℕ
  | .forward t _ | .running t | .caught t _ | .release t => t

/-- The first failure that the functor of the stage `k` of `n` reported or threw, to the task of the
next stage. -/
def State.failure (s : State N E) (n k : ℕ) : Option E :=
  (s.reports (n - (k + 1))).head?

/-- The pending exception `y` is forwarded to the task `t`; no functor has a holder of it. -/
def State.Forwards (s : State N E) (t : ℕ) (y : Option E) : Prop :=
  s.held t = 0 ∧ s.reports t = [] ∧
    ((∃ e, y = some e ∧ s.points = [.forward t e] ∧ Holds (s.task t) none) ∨
      (s.points = [] ∨ s.points = [.release t]) ∧ Holds (s.task t) y)

/-- The task `t` collects what the functor of the stage before it reports. -/
def State.Collects (s : State N E) (l : List (Stage N)) (x : Option E) (L t : ℕ) : Prop :=
  (∃ k f, L = k + 1 ∧ l[k]? = some f ∧
      ∀ o, f.outcome (before l x (s.failure l.length) k) o = o) ∧
    Holds (s.task t) (s.reports t).head? ∧
    (s.points = [] ∨ ∃ p, s.points = [p] ∧ p.task = t ∧ ∀ e, p ≠ .forward t e)

/-- The task `t` is the next one to be executed, as soon as it has no holders. -/
structure State.Current (s : State N E) (l : List (Stage N)) (x : Option E) (L t : ℕ) : Prop where
  count : (s.task t).refCount = s.held t + s.points.length
  group : s.group = if (s.task t).refCount = 0 then [t] else []
  phase : s.Forwards t (before l x (s.failure l.length) L) ∨ s.Collects l x L t

/-- The tasks of the first `L` stages were executed. The task of the stage `k` is number
`l.length - k`. -/
structure State.Folds (s : State N E) (l : List (Stage N)) (x : Option E) (L : ℕ) : Prop where
  le : L ≤ l.length + 1
  bottom : s.lambda 0 = none
  lambda : ∀ (k : ℕ) (f : Stage N), l[k]? = some f →
    s.lambda (l.length - k) = some ⟨f.handler, l.length - (k + 1)⟩
  started : s.started = (List.range L).map fun k =>
    (l.length - k, before l x (s.failure l.length) k)
  calls : s.calls = callsBefore l x (s.failure l.length) L
  later : ∀ t, t + L < l.length → s.task t = { refCount := 1 } ∧ s.reports t = []
  earlier : ∀ t ≤ l.length, l.length < t + L → (s.task t).refCount = 0
  held : ∀ t, t + L ≠ l.length → s.held t = 0
  points : ∀ p ∈ s.points, p.task + L = l.length
  group : ∀ t ∈ s.group, t + L = l.length
  current : ∀ t, t + L = l.length → s.Current l x L t

/-- The failures of the stages that are done stay as they are. -/
lemma failure_congr (hreports : ∀ t, t + L ≠ l.length → s'.reports t = s.reports t) {j : ℕ}
    (hj : j + 1 < L) :
    s'.failure l.length j = s.failure l.length j := by
  unfold State.failure
  rw [hreports _ (by omega)]

/-- A step that is about the current task. -/
lemma State.Folds.moved (h : s.Folds l x L) (ht : t + L = l.length)
    (hsame : (s'.lambda, s'.started, s'.calls) = (s.lambda, s.started, s.calls))
    (hothers : ∀ t' ≠ t, s'.task t' = s.task t' ∧ s'.held t' = s.held t' ∧
      s'.reports t' = s.reports t')
    (hpoints : ∀ p ∈ s'.points, p.task = t) (hgroup : ∀ t' ∈ s'.group, t' = t)
    (hcurrent : (∀ k < L, before l x (s'.failure l.length) k = before l x (s.failure l.length) k) →
      s'.Current l x L t) : s'.Folds l x L := by
  obtain ⟨hlambda, hstarted, hcalls⟩ := by simpa only [Prod.mk.injEq] using hsame
  have hfailure : ∀ j, j + 1 < L → s'.failure l.length j = s.failure l.length j := fun j hj =>
    failure_congr (fun t' ht' => (hothers t' (by omega)).2.2) hj
  have hbefore : ∀ k < L, before l x (s'.failure l.length) k
      = before l x (s.failure l.length) k := fun k hk =>
    before_congr fun j hj => hfailure j (by omega)
  refine ⟨h.le, hlambda ▸ h.bottom, hlambda ▸ h.lambda, ?_, ?_, fun t' ht' => ?_,
    fun t' hle ht' => ?_, fun t' ht' => ?_, fun p hp => ?_, fun t' ht' => ?_, fun t' ht' => ?_⟩
  · rw [hstarted, h.started]
    exact List.map_congr_left fun k hk => by rw [hbefore k (List.mem_range.mp hk)]
  · rw [hcalls, h.calls]
    exact (callsBefore_congr hfailure).symm
  · obtain ⟨htask, -, hreports⟩ := hothers t' (by omega)
    rw [htask, hreports]
    exact h.later t' ht'
  · rw [(hothers t' (by omega)).1]
    exact h.earlier t' hle ht'
  · rw [(hothers t' (by omega)).2.1]
    exact h.held t' ht'
  · rw [hpoints p hp]
    exact ht
  · rw [hgroup t' ht']
    exact ht
  · obtain rfl : t' = t := by omega
    exact hcurrent hbefore

/-- The current task is executed. -/
lemma State.Folds.next (h : s.Folds l x L) (ht : t + L = l.length)
    (hzero : (s.task t).refCount = 0) (hheld : s.held t = 0)
    (hsame : (s'.lambda, s'.reports) = (s.lambda, s.reports))
    (hstarted : s'.started = s.started ++ [(t, before l x (s.failure l.length) L)])
    (hcalls : s'.calls = callsBefore l x (s.failure l.length) (L + 1))
    (hothers : ∀ t', t' + (L + 1) ≠ l.length → s'.task t' = s.task t' ∧ s'.held t' = s.held t')
    (hpoints : ∀ p ∈ s'.points, p.task + (L + 1) = l.length)
    (hgroup : s'.group = [])
    (hcurrent : ∀ t', t' + (L + 1) = l.length → s'.Current l x (L + 1) t') :
    s'.Folds l x (L + 1) := by
  obtain ⟨hlambda, hreports⟩ := by simpa only [Prod.mk.injEq] using hsame
  have hfailure : s'.failure l.length = s.failure l.length := by
    unfold State.failure
    rw [hreports]
  refine ⟨by omega, hlambda ▸ h.bottom, hlambda ▸ h.lambda, ?_, ?_, fun t' ht' => ?_,
    fun t' hle ht' => ?_, fun t' ht' => ?_, hpoints, fun t' ht' => ?_, hcurrent⟩
  · have hindex : l.length - L = t := by omega
    rw [hstarted, hfailure, h.started, List.range_succ, List.map_append, List.map_singleton, hindex]
  · rw [hcalls, hfailure]
  · rw [(hothers t' (by omega)).1, hreports]
    exact h.later t' (by omega)
  · rw [(hothers t' (by omega)).1]
    rcases Nat.lt_or_ge l.length (t' + L) with hlt | hge
    · exact h.earlier t' hle hlt
    · obtain rfl : t' = t := by omega
      exact hzero
  · rw [(hothers t' ht').2]
    by_cases htt : t' = t
    · rw [htt, hheld]
    · exact h.held t' (by omega)
  · rw [hgroup] at ht'
    cases ht'

/-! ## Operations on the current task -/

/-- Only the current task has holders among the functors. -/
lemma State.Folds.of_held (h : s.Folds l x L) (hheld : s.held t ≠ 0) :
    t + L = l.length ∧ s.Collects l x L t := by
  have ht : t + L = l.length := by
    by_contra hne
    exact hheld (h.held t hne)
  refine ⟨ht, ?_⟩
  rcases (h.current t ht).phase with hforwards | hcollects
  · exact absurd hforwards.1 hheld
  · exact hcollects

/-- What a task collects is what will be pending. -/
lemma State.Collects.before_eq (h : s.Collects l x L t) (ht : t + L = l.length) :
    before l x (s.failure l.length) L = (s.reports t).head? := by
  obtain ⟨⟨k, f, rfl, hf, houtcome⟩, -, -⟩ := h
  rw [before_succ hf, houtcome]
  have hindex : l.length - (k + 1) = t := by omega
  rw [State.failure, hindex]

/-- A task that collects belongs to a stage whose functor runs. -/
lemma State.Collects.runs (h : s.Collects l x L t)
    (hbefore : ∀ k < L, before l x (s'.failure l.length) k = before l x (s.failure l.length) k) :
    ∃ k f, L = k + 1 ∧ l[k]? = some f ∧
      ∀ o, f.outcome (before l x (s'.failure l.length) k) o = o := by
  obtain ⟨⟨k, f, rfl, hf, houtcome⟩, -, -⟩ := h
  refine ⟨k, f, rfl, hf, fun o => ?_⟩
  rw [hbefore k (Nat.lt_succ_self k)]
  exact houtcome o

/-- Whichever phase it is, a task without holders has what is pending. -/
lemma State.Current.holds (h : s.Current l x L t) (ht : t + L = l.length)
    (hpoints : s.points = [] ∨ s.points = [.release t]) :
    Holds (s.task t) (before l x (s.failure l.length) L) := by
  rcases h.phase with ⟨-, -, ⟨e, -, hforward, -⟩ | ⟨-, hholds⟩⟩ | hcollects
  · rcases hpoints with hnil | hrelease
    · cases hforward.symm.trans hnil
    · cases hforward.symm.trans hrelease
  · exact hholds
  · rw [hcollects.before_eq ht]
    exact hcollects.2.1

/-- Letting go of a holder, or a copy of one. -/
lemma State.Folds.counted (h : s.Folds l x L) (ht : t + L = l.length)
    (hsame : (s'.lambda, s'.started, s'.calls, s'.reports) = (s.lambda, s.started, s.calls, s.reports))
    (hothers : ∀ t' ≠ t, s'.task t' = s.task t' ∧ s'.held t' = s.held t')
    (hslot : ∀ y, Holds (s.task t) y → Holds (s'.task t) y)
    (hpoints : ∀ p ∈ s'.points, p.task = t)
    (hcount : (s'.task t).refCount = s'.held t + s'.points.length)
    (hgroup : s'.group = if (s'.task t).refCount = 0 then [t] else [])
    (hphase : s.Forwards t (before l x (s.failure l.length) L) ∧ s'.held t = 0 ∧
        (s.points = [] ∨ s.points = [.release t]) ∧ (s'.points = [] ∨ s'.points = [.release t]) ∨
      s.Collects l x L t ∧
        (s'.points = [] ∨ ∃ p, s'.points = [p] ∧ p.task = t ∧ ∀ e, p ≠ .forward t e)) :
    s'.Folds l x L := by
  obtain ⟨hlambda, hstarted, hcalls, hreports⟩ := by simpa only [Prod.mk.injEq] using hsame
  have hfailure : s'.failure l.length = s.failure l.length := by
    unfold State.failure
    rw [hreports]
  refine h.moved ht (by rw [hlambda, hstarted, hcalls]) (fun t' hne => ?_) hpoints (fun t' ht' => ?_)
    fun hbefore => ⟨hcount, hgroup, ?_⟩
  · exact ⟨(hothers t' hne).1, (hothers t' hne).2, by rw [hreports]⟩
  · rw [hgroup] at ht'
    split at ht'
    · exact List.mem_singleton.mp ht'
    · cases ht'
  · rw [hfailure]
    rcases hphase with ⟨hforwards, hnone, hold, hnew⟩ | ⟨hcollects, hnew⟩
    · refine .inl ⟨hnone, ?_, .inr ⟨hnew, hslot _ ((h.current t ht).holds ht hold)⟩⟩
      rw [hreports]
      exact hforwards.2.1
    · refine .inr ⟨hcollects.runs hbefore, ?_, hnew⟩
      rw [hreports]
      exact hslot _ hcollects.2.1

end UnifyPrototype.ChainFirst
