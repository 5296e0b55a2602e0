import UnifyPrototype.LimitedTaskQueue.Steps

/-!
# Each action is claimed once

The lambdas of one call share a `set_to_run`, so at most one of them runs the action. It is executing
from its exchange on until it is over, and a queue executes one lambda at a time.
-/

namespace UnifyPrototype.LimitedTaskQueue

open UnifyPrototype.Utils
open SerialTaskQueue (QueuedTask Point Thread Result)

variable {k : ℕ} {s s' : State k} {a : Label}

/-! ## The weight of the frames -/

/-- The weight of all frames. -/
def State.weigh (s : State k) (w : Frame k → ℕ) : ℕ :=
  tally (fun i => w (s.frame i)) (List.range s.base.threads.length)

lemma count_executing (s : State k) (n : ℕ) :
    s.executing.count n = s.weigh fun f => f.executing.count n :=
  count_flatMap_eq_tally _ n _

lemma length_executing (s : State k) : s.executing.length = s.weigh fun f => f.executing.length :=
  length_flatMap_eq_tally _ _

/-- Where the frames are empty, there are as many as one likes. -/
lemma tally_frames {frame : ℕ → Frame k} {n m : ℕ} (w : Frame k → ℕ) (hw : w {} = 0)
    (hempty : ∀ j, n ≤ j → frame j = {}) (hle : n ≤ m) :
    tally (fun j => w (frame j)) (List.range m) = tally (fun j => w (frame j)) (List.range n) := by
  obtain ⟨d, rfl⟩ := Nat.exists_eq_add_of_le hle
  have hrest : tally (fun j => w (frame (n + j))) (List.range d) = 0 :=
    tally_eq_zero.mpr fun j _ => by rw [hempty (n + j) (Nat.le_add_right n j), hw]
  rw [List.range_add, tally_append, tally_map, hrest, Nat.add_zero]

/-- There are no frames beyond the threads. -/
lemma frame_eq_of_le (h : Reachable s) {i : ℕ} (hle : s.base.threads.length ≤ i) :
    s.frame i = {} := by
  by_contra hne
  have := (fits h).lt_length hne
  omega

/-- Threads do not go away. -/
lemma length_le (h : step s a = some s') : s.base.threads.length ≤ s'.base.threads.length := by
  rcases step_base h with heq | ⟨b, hb, -⟩
  · rw [heq]
  · exact SerialTaskQueue.length_le hb

/-- The frames stay. -/
lemma weigh_same (h : Reachable s) (hstep : step s a = some s') (hframe : s'.frame = s.frame)
    (w : Frame k → ℕ) (hw : w {} = 0) : s'.weigh w = s.weigh w := by
  unfold State.weigh
  rw [hframe]
  exact tally_frames w hw (fun j hj => frame_eq_of_le h hj) (length_le hstep)

/-- One frame changes. -/
lemma weigh_update (h : Reachable s) (hstep : step s a = some s') {i : ℕ} {f : Frame k}
    (hi : i < s.base.threads.length) (hframe : s'.frame = Function.update s.frame i f)
    (w : Frame k → ℕ) (hw : w {} = 0) : s'.weigh w + w (s.frame i) = s.weigh w + w f := by
  have hempty : ∀ j, s.base.threads.length ≤ j → s'.frame j = {} := by
    intro j hj
    rw [hframe, Function.update_of_ne (by omega)]
    exact frame_eq_of_le h hj
  unfold State.weigh
  rw [tally_frames w hw hempty (length_le hstep), hframe]
  exact tally_update (fun _ f => w f) s.frame f List.nodup_range (List.mem_range.mpr hi)

/-! ## What a step does to the actions -/

/-- What a step does to the actions: nothing, an exchange succeeds, or an action is over. -/
inductive ActionStep (s s' : State k) : Prop
  | same (hset : s'.setToRun = s.setToRun) (hclaimed : s'.claimed = s.claimed)
      (hran : s'.ran = s.ran) (hcount : ∀ n, s'.executing.count n = s.executing.count n)
  | claims (i : ℕ) (c : Closure k) (hframe : s.frame i = ⟨some (.exchange c), none⟩)
      (hfalse : s.setToRun c.setToRun = false)
      (hset : s'.setToRun = Function.update s.setToRun c.setToRun true)
      (hclaimed : s'.claimed = s.claimed ++ [c.setToRun]) (hran : s'.ran = s.ran)
      (hcount : ∀ n, s'.executing.count n = s.executing.count n + [c.setToRun].count n)
  | ends (m : ℕ) (hset : s'.setToRun = s.setToRun) (hclaimed : s'.claimed = s.claimed)
      (hran : s'.ran = s.ran ++ [m])
      (hcount : ∀ n, s'.executing.count n + [m].count n = s.executing.count n)

lemma executing_afterExchange (c : Closure k) :
    (⟨some c.afterExchange, none⟩ : Frame k).executing = [c.setToRun] := by
  cases c <;> rfl

/-- **Inversion.** Every step does one of the three things to the actions. -/
theorem action_step (h : Reachable s) (hstep : step s a = some s') : ActionStep s s' := by
  have hsame : s'.frame = s.frame → ∀ n, s'.executing.count n = s.executing.count n := by
    intro hframe n
    rw [count_executing, count_executing]
    exact weigh_same h hstep hframe _ rfl
  have hupdate : ∀ {i : ℕ} {f : Frame k}, i < s.base.threads.length →
      s'.frame = Function.update s.frame i f → ∀ n,
      s'.executing.count n + (s.frame i).executing.count n
        = s.executing.count n + f.executing.count n := by
    intro i f hi hframe n
    rw [count_executing, count_executing]
    exact weigh_update h hstep hi hframe (fun f => f.executing.count n) rfl
  have hlt : ∀ {i : ℕ} {x : Body k}, (s.frame i).body = some x → i < s.base.threads.length := by
    intro i x hx
    refine (fits h).lt_length fun hempty => ?_
    rw [hempty] at hx
    cases hx
  have hlt' : ∀ {i : ℕ} {c : Call k}, (s.frame i).call = some c → i < s.base.threads.length := by
    intro i c hc
    refine (fits h).lt_length fun hempty => ?_
    rw [hempty] at hc
    cases hc
  cases steps hstep with
  | fork | copy | resumers | release | finish => exact .same rfl rfl rfl (hsame rfl)
  | @enter _ i th c _ hth =>
    have hcount := hupdate (List.getElem?_eq_some_iff.mp hth).1 rfl
    exact .same rfl rfl rfl fun n => Nat.add_right_cancel (hcount n)
  | @pushes i c q queues b hcall =>
    have hcount := hupdate (hlt' hcall) rfl
    exact .same rfl rfl rfl fun n => Nat.add_right_cancel (hcount n)
  | @returns i th c hth hnone hcall =>
    have hcount := hupdate (hlt' hcall) rfl
    exact .same rfl rfl rfl fun n => Nat.add_right_cancel (hcount n)
  | @fails i c hframe =>
    have hcount := hupdate (hlt (x := .exchange c) (by rw [hframe])) rfl
    rw [hframe] at hcount
    exact .same rfl rfl rfl hcount
  | @claims i c hframe hfalse =>
    have hcount := hupdate (hlt (x := .exchange c) (by rw [hframe])) rfl
    rw [hframe, executing_afterExchange] at hcount
    exact .claims i c hframe hfalse rfl rfl rfl hcount
  | @pauses i q m b hframe =>
    have hcount := hupdate (hlt (x := .pause q m) (by rw [hframe])) rfl
    rw [hframe] at hcount
    exact .same rfl rfl rfl fun n => Nat.add_right_cancel (hcount n)
  | @actionEnds i m hframe =>
    have hcount := hupdate (hlt (x := .iAction m) (by rw [hframe])) rfl
    rw [hframe] at hcount
    exact .ends m rfl rfl rfl hcount
  | @advance i th q pt b hth hnext =>
    have hcount := hupdate (List.getElem?_eq_some_iff.mp hth).1 rfl
    -- only `loop` begins a lambda, and a lambda begins before its exchange
    rcases pt.loop_or with ⟨g, t, rfl⟩ | hloop
    · rw [frame_of_loop h hth hnext] at hcount
      exact .same rfl rfl rfl hcount
    · have hafter : ((s.frame i).after pt).executing = (s.frame i).executing := by
        rw [after_of_not_loop hloop]
      refine .same rfl rfl rfl fun n => ?_
      have := hcount n
      rw [hafter] at this
      omega

/-- A `set_to_run` is set when one exchange on it has succeeded, and then its action is executing or
over. -/
structure State.Claims (s : State k) : Prop where
  set : ∀ n, s.setToRun n = true ↔ n ∈ s.claimed
  nodup : s.claimed.Nodup
  count : ∀ n, s.claimed.count n = s.ran.count n + s.executing.count n

/-- In every state an action whose flag was claimed is executing or has run, once. -/
theorem claims (h : Reachable s) : s.Claims := by
  refine h.invariant_of (J := Reachable) (I := State.Claims) id
    ⟨by simp, List.nodup_nil, fun _ => rfl⟩ fun s a s' hs ih _ hstep => ?_
  cases action_step hs hstep with
  | same hset hclaimed hran hcount =>
    refine ⟨?_, by rw [hclaimed]; exact ih.nodup, fun n => ?_⟩
    · rw [hset, hclaimed]
      exact ih.set
    · rw [hclaimed, hran, hcount, ih.count]
  | claims i c _ hfalse hset hclaimed hran hcount =>
    have hnew : c.setToRun ∉ s.claimed := fun hmem => by
      rw [(ih.set _).mpr hmem] at hfalse
      cases hfalse
    refine ⟨fun n => ?_, ?_, fun n => ?_⟩
    · rw [hset, hclaimed, List.mem_append, List.mem_singleton]
      by_cases hn : n = c.setToRun
      · subst hn
        simp
      · rw [Function.update_of_ne hn, ih.set]
        simp [hn]
    · rw [hclaimed]
      exact ih.nodup.append (List.nodup_singleton _) (by simpa using hnew)
    · rw [hclaimed, hran, List.count_append, hcount, ih.count]
      omega
  | ends m hset hclaimed hran hcount =>
    refine ⟨?_, by rw [hclaimed]; exact ih.nodup, fun n => ?_⟩
    · rw [hset, hclaimed]
      exact ih.set
    · have := hcount n
      rw [hclaimed, hran, List.count_append, ih.count]
      omega

/-- No action runs more than once. -/
lemma count_le_one (h : Reachable s) (n : ℕ) : s.ran.count n + s.executing.count n ≤ 1 := by
  rw [← (claims h).count]
  exact List.nodup_iff_count_le_one.mp (claims h).nodup n

end UnifyPrototype.LimitedTaskQueue
