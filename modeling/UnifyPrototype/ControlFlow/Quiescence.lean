import Mathlib.Data.List.FinRange
import UnifyPrototype.ControlFlow.Steps
import UnifyPrototype.Utils.Tally

/-!
# Every transition comes to rest

A node is asked once and decides once, so the calls of a transition are limited: every step lowers
`State.measure`.
-/

namespace UnifyPrototype.ControlFlow

open UnifyPrototype.Utils

variable {g : DecisionGraph} {a : Assignment g} {s s' : State g}

/-! ## The measure -/

/-- What the node `i` may still cause. -/
def potential (i : Fin g.size) : RunStatus → ℕ
  | .notStarted => 3 + 4 * (g.requestors i).length
  | .completed => 0
  | .inProgress | .willNotRun | .shouldRun => 2 * (g.requestors i).length

/-- What a call may cause; the nodes aside. -/
def Call.cost : Call (Fin g.size) → ℕ
  | .request _ _ => 1
  | .decision _ _ _ => 2

/-- What the task of leaf `i` may cause. -/
def taskCost (i : Fin g.size) : ℕ :=
  1 + 2 * (g.requestors i).length

/-- A bound on the number of steps that are left. -/
def State.measure (s : State g) : ℕ :=
  tally (fun i => potential i (s.node i).runStatus) (List.finRange g.size)
    + tally Call.cost s.agenda + tally taskCost s.tasks

/-- The potential of all nodes after one of them has changed. -/
lemma tally_node (w : Fin g.size → NodeState → ℕ) (f : Fin g.size → NodeState) (i : Fin g.size)
    (n : NodeState) :
    tally (fun j => w j (Function.update f i n j)) (List.finRange g.size) + w i (f i)
      = tally (fun j => w j (f j)) (List.finRange g.size) + w i n :=
  tally_update w f n (List.nodup_finRange _) (List.mem_finRange i)

/-- A decision costs two for each requestor. -/
lemma tally_decisions (i : Fin g.size) (d : ControlFlowStatus) :
    tally Call.cost ((g.requestors i).map (Call.decision · i d)) = 2 * (g.requestors i).length := by
  rw [tally_map]
  induction g.requestors i with
  | nil => rfl
  | cons q qs ih => rw [tally_cons, ih, Call.cost, List.length_cons, Nat.mul_succ, Nat.add_comm]

lemma tally_eraseIdx (w : Fin g.size → ℕ) {l : List (Fin g.size)} {k : ℕ} {i : Fin g.size}
    (h : l[k]? = some i) : tally w (l.eraseIdx k) + w i = tally w l := by
  induction l generalizing k with
  | nil => simp at h
  | cons c l ih =>
    cases k with
    | zero =>
      obtain rfl : c = i := by simpa using h
      simp only [List.eraseIdx_zero, List.tail_cons, tally_cons]
      omega
    | succ k =>
      have := ih (k := k) (by simpa using h)
      simp only [List.eraseIdx_cons_succ, tally_cons]
      omega

/-- A node that decides makes one request at most. -/
lemma cost_of_decides {logic : Logic} {r : Fin g.size} {n : NodeState} {fromLeft : Bool}
    {d : ControlFlowStatus} {calls : List (Call (Fin g.size))}
    (h : Decides logic r n fromLeft d calls) : tally Call.cost calls ≤ 1 := by
  cases h <;> simp [Call.cost]

/-- **Every step lowers the measure.** -/
theorem measure_lt {b : Label} (h : step a s b = some s') : s'.measure < s.measure := by
  unfold State.measure
  cases moves h with
  | ignored hagenda => simp [hagenda, Call.cost]
  | finished hagenda => simp [hagenda, Call.cost]
  | stray hagenda => simp [hagenda, Call.cost]
  | @counted i rest hagenda hstatus =>
    have hnode := tally_node (fun j n => potential j n.runStatus) s.node i
      { s.node i with willNotRunRequests := (s.node i).willNotRunRequests + 1 }
    simp only [hagenda, tally_cons, Call.cost] at hnode ⊢
    omega
  | @madeLeaf i σ rest hagenda hstatus hkind =>
    have hnode := tally_node (fun j n => potential j n.runStatus) s.node i
      { s.node i with
        runStatus := σ.runStatus
        willNotRunRequests := σ.count (s.node i).willNotRunRequests }
    dsimp only at hnode
    have hbefore : potential i (s.node i).runStatus = 3 + 4 * (g.requestors i).length := by
      rw [hstatus]; rfl
    have hafter : potential i σ.runStatus = 2 * (g.requestors i).length := by cases σ <;> rfl
    -- what the status loses in potential pays for the task of the leaf
    have htasks : tally taskCost (if σ = .requestDecision then [i] else [])
        ≤ 1 + 2 * (g.requestors i).length := by split <;> simp [taskCost]
    simp only [hagenda, tally_cons, tally_append, Call.cost]
    omega
  | @madeBinary i σ rest logic l r hagenda hstatus hkind =>
    have hnode := tally_node (fun j n => potential j n.runStatus) s.node i
      { s.node i with
        runStatus := .inProgress
        requestCallsToComposites := 1
        willNotRunRequests := σ.count (s.node i).willNotRunRequests }
    dsimp only at hnode
    have hbefore : potential i (s.node i).runStatus = 3 + 4 * (g.requestors i).length := by
      rw [hstatus]; rfl
    have hafter : potential i .inProgress = 2 * (g.requestors i).length := rfl
    -- it pays for the calls to the composites, too
    have hcalls : tally Call.cost (if σ = .noRequestComing then [.request r σ] else []) ≤ 1 := by
      split <;> simp [Call.cost]
    simp only [hagenda, tally_cons, tally_append, Call.cost]
    omega
  | @stored p i d rest logic l r hagenda =>
    have hnode := tally_node (fun j n => potential j n.runStatus) s.node p
      ((s.node p).store (i = l) d)
    simp only [store_runStatus] at hnode
    simp only [hagenda, tally_cons, Call.cost]
    omega
  | @asked p d rest logic l r hagenda =>
    have hnode := tally_node (fun j n => potential j n.runStatus) s.node p
      ((s.node p).store true d)
    simp only [store_runStatus] at hnode
    simp only [hagenda, tally_cons, Call.cost]
    omega
  | @decided p i d rest logic l r d' calls hagenda hkind hstatus hdecides =>
    have hnode := tally_node (fun j n => potential j n.runStatus) s.node p
      { (s.node p).store (i = l) d with runStatus := .completed }
    dsimp only at hnode
    have hbefore : potential p (s.node p).runStatus = 2 * (g.requestors p).length := by
      rw [hstatus]; rfl
    have hafter : potential p .completed = 0 := rfl
    have hcalls := cost_of_decides hdecides
    simp only [hagenda, tally_cons, tally_append, tally_decisions, Call.cost]
    omega
  | @ran k i hagenda htask =>
    have hnode := tally_node (fun j n => potential j n.runStatus) s.node i
      { s.node i with runStatus := .completed }
    dsimp only at hnode
    have hafter : potential i .completed = 0 := rfl
    have htasks := tally_eraseIdx taskCost htask
    -- the task pays for the decision to each requestor
    have hcost : taskCost i = 1 + 2 * (g.requestors i).length := rfl
    simp only [hagenda, tally_nil, tally_decisions]
    omega

/-- As long as something is pending there is a step. -/
lemma exists_step (h : ¬ s.Quiet) : ∃ b s', step a s b = some s' := by
  rcases hagenda : s.agenda with _ | ⟨c, rest⟩
  · rcases htasks : s.tasks with _ | ⟨i, rest⟩
    · exact absurd ⟨hagenda, htasks⟩ h
    · exact ⟨.task 0, _, by simp only [step, hagenda, htasks]; rfl⟩
  · exact ⟨.call, _, by simp only [step, hagenda]; rfl⟩

/-- **Every transition comes to rest**, whatever was done so far. -/
theorem exists_quiet (a : Assignment g) (s : State g) :
    ∃ s', Reaches (step a) s s' ∧ s'.Quiet := by
  induction hn : s.measure using Nat.strong_induction_on generalizing s with
  | _ n ih =>
    by_cases hquiet : s.Quiet
    · exact ⟨s, .refl, hquiet⟩
    · obtain ⟨b, t, ht⟩ := exists_step (a := a) hquiet
      obtain ⟨s', hrun, hq⟩ := ih t.measure (hn ▸ measure_lt ht) t rfl
      exact ⟨s', (RunsTo.refl.tail trivial ht).trans hrun, hq⟩

end UnifyPrototype.ControlFlow
