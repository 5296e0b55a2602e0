import Mathlib.Data.Fin.Basic
import Mathlib.Data.List.Nodup
import UnifyPrototype.ControlFlow.Model

/-!
# What a decision forest means

The value of a node by recursion over the tree under it, and the nodes that a left-to-right
short-circuit evaluation of the roots visits.
-/

namespace UnifyPrototype.ControlFlow

variable {g : DecisionGraph} {a : Assignment g}

/-! ## Forests -/

/-- Every node has exactly one requestor: its parent, or the `StartDecisionGraph`. -/
def DecisionGraph.IsForest (g : DecisionGraph) : Prop :=
  ∀ i, (g.requestors i).length = 1

instance (g : DecisionGraph) : Decidable g.IsForest :=
  inferInstanceAs (Decidable (∀ i, (g.requestors i).length = 1))

namespace DecisionGraph.IsForest

variable (h : g.IsForest) {i p q l r : Fin g.size} {logic : Logic}
include h

/-- In a forest a node has one requestor. -/
lemma requestors_of_mem {c : Requestor (Fin g.size)} (hc : c ∈ g.requestors i) :
    g.requestors i = [c] := by
  obtain ⟨c', hc'⟩ := List.length_eq_one_iff.mp (h i)
  rw [hc', List.mem_singleton] at hc
  rw [hc', hc]

lemma requestors_root (hi : i ∈ g.leafNodes) : g.requestors i = [.start] := by
  refine h.requestors_of_mem (List.count_pos_iff.mp ?_)
  rw [g.count_start]
  exact List.count_pos_iff.mpr hi

lemma requestors_left (hkind : g.kind p = .binary logic l r) : g.requestors l = [.node p] :=
  h.requestors_of_mem (mem_requestors (by simp [hkind, Kind.composites]))

lemma requestors_right (hkind : g.kind p = .binary logic l r) : g.requestors r = [.node p] :=
  h.requestors_of_mem (mem_requestors (by simp [hkind, Kind.composites]))

/-- Every node is a root or a child. -/
lemma root_or_child (i : Fin g.size) : i ∈ g.leafNodes ∨
    ∃ p logic l r, g.kind p = .binary logic l r ∧ (i = l ∨ i = r) := by
  obtain ⟨c, hc⟩ := List.length_eq_one_iff.mp (h i)
  cases c with
  | start =>
    refine .inl (List.count_pos_iff.mp ?_)
    rw [← g.count_start, hc]
    simp
  | node p =>
    right
    have hmem := mem_composites_of_requestor (i := i) (p := p) (by simp [hc])
    cases hkind : g.kind p with
    | leaf => simp [hkind, Kind.composites] at hmem
    | binary logic l r =>
      refine ⟨p, logic, l, r, hkind, ?_⟩
      simpa [hkind, Kind.composites] using hmem

/-- A root has no parent. -/
lemma left_notMem_roots (hkind : g.kind p = .binary logic l r) : l ∉ g.leafNodes := by
  intro hl
  have heq := (h.requestors_left hkind).symm.trans (h.requestors_root hl)
  simp at heq

/-- A child is not a root. -/
lemma right_notMem_roots (hkind : g.kind p = .binary logic l r) : r ∉ g.leafNodes := by
  intro hr
  have heq := (h.requestors_right hkind).symm.trans (h.requestors_root hr)
  simp at heq

/-- A node that is both composites of a parent has two requestors. -/
lemma distinct : g.Distinct := by
  intro p
  cases hkind : g.kind p with
  | leaf => simp [Kind.composites]
  | binary logic l r =>
    refine List.nodup_iff_count_le_one.mpr fun i => ?_
    have hle := List.count_le_length (a := Requestor.node p) (l := g.requestors i)
    rw [g.count_node, hkind, h i] at hle
    exact hle

omit h in
/-- A child has one parent. -/
lemma parent_unique (hp : g.requestors i = [.node p]) (hq : g.requestors i = [.node q]) :
    p = q := by
  simpa using hp.symm.trans hq

/-- No node is a left composite and a right one. -/
lemma left_ne_right {logic' : Logic} {l' r' : Fin g.size} (hp : g.kind p = .binary logic l r)
    (hq : g.kind q = .binary logic' l' r') : l ≠ r' := by
  rintro rfl
  obtain rfl := parent_unique (h.requestors_left hp) (h.requestors_right hq)
  obtain ⟨-, -, rfl⟩ := by simpa using hp.symm.trans hq
  exact h.distinct.left_ne_right hp rfl

/-- No two nodes have the same left child. -/
lemma left_unique {logic' : Logic} {r' : Fin g.size} (hp : g.kind p = .binary logic l r)
    (hq : g.kind q = .binary logic' l r') : p = q :=
  parent_unique (h.requestors_left hp) (h.requestors_left hq)

lemma right_unique {logic' : Logic} {l' : Fin g.size} (hp : g.kind p = .binary logic l r)
    (hq : g.kind q = .binary logic' l' r) : p = q :=
  parent_unique (h.requestors_right hp) (h.requestors_right hq)

lemma count_roots (hi : i ∈ g.leafNodes) : g.leafNodes.count i = 1 := by
  rw [← g.count_start, h.requestors_root hi]
  simp

end DecisionGraph.IsForest

/-! ## Values -/

/-- The left decision is the decision of the node, whatever the right one is. -/
def Logic.Settles (d : ControlFlowStatus) : Logic → Prop
  | .and => d = .skip ∨ d = .exception
  | .or => d = .go ∨ d = .exception

instance (d : ControlFlowStatus) : (logic : Logic) → Decidable (logic.Settles d)
  | .and => inferInstanceAs (Decidable (d = .skip ∨ d = .exception))
  | .or => inferInstanceAs (Decidable (d = .go ∨ d = .exception))

/-- The value of a node: a leaf has its own, `And(l, r)` that of `l` if that is `SKIP` or
`EXCEPTION` and that of `r` otherwise, `Or(l, r)` that of `l` if that is `GO` or `EXCEPTION` and
that of `r` otherwise. -/
def eval (a : Assignment g) (i : Fin g.size) : ControlFlowStatus :=
  match _hkind : g.kind i with
  | .leaf => a.status i
  | .binary logic l r => if logic.Settles (eval a l) then eval a l else eval a r
termination_by i.val
decreasing_by
  · exact DecisionGraph.left_lt _hkind
  · exact DecisionGraph.right_lt _hkind

lemma eval_leaf {i : Fin g.size} (h : g.kind i = .leaf) : eval a i = a.status i := by
  rw [eval]
  split
  next => rfl
  next hkind => rw [h] at hkind; cases hkind

/-- The right child counts only if the left one does not settle the matter. -/
lemma eval_binary {i l r : Fin g.size} {logic : Logic} (h : g.kind i = .binary logic l r) :
    eval a i = if logic.Settles (eval a l) then eval a l else eval a r := by
  rw [eval]
  split
  next hkind => rw [h] at hkind; cases hkind
  next hkind =>
    obtain ⟨rfl, rfl, rfl⟩ := by simpa using h.symm.trans hkind
    rfl

/-- Every node evaluates to a decision. -/
lemma eval_ne_notStarted (i : Fin g.size) : eval a i ≠ .notStarted := by
  induction i using Fin.strong_induction_on with
  | h i ih =>
    cases hkind : g.kind i with
    | leaf =>
      rw [eval_leaf hkind]
      exact a.status_ne i
    | binary logic l r =>
      rw [eval_binary hkind]
      split
      · exact ih l (DecisionGraph.left_lt hkind)
      · exact ih r (DecisionGraph.right_lt hkind)

/-- A short circuit is the left value. -/
lemma shortCircuitLogic_eq (logic : Logic) (d : ControlFlowStatus) :
    logic.shortCircuitLogic d = if logic.Settles d then d else .notStarted := by
  cases logic <;> cases d <;> decide

/-- If the left value settles nothing, the full logic gives the right value. -/
lemma fullDecisionLogic_eq {logic : Logic} {left right : ControlFlowStatus}
    (hsettles : ¬ logic.Settles left) (hleft : left ≠ .notStarted) (hright : right ≠ .notStarted) :
    logic.fullDecisionLogic left right = right := by
  revert hsettles hleft hright
  cases logic <;> cases left <;> cases right <;> decide

/-! ## Visited nodes -/

/-- A left-to-right short-circuit evaluation of the roots visits the node. -/
inductive Visited (a : Assignment g) : Fin g.size → Prop
  | root {i} (hi : i ∈ g.leafNodes) : Visited a i
  | left {p logic l r} (hkind : g.kind p = .binary logic l r) (hp : Visited a p) : Visited a l
  | right {p logic l r} (hkind : g.kind p = .binary logic l r) (hp : Visited a p)
      (hsettles : ¬ logic.Settles (eval a l)) : Visited a r

/-- The left child is visited with its parent. -/
lemma visited_left (h : g.IsForest) {p l r : Fin g.size} {logic : Logic}
    (hkind : g.kind p = .binary logic l r) : Visited a l ↔ Visited a p := by
  refine ⟨fun hl => ?_, .left hkind⟩
  cases hl with
  | root hi => exact absurd hi (h.left_notMem_roots hkind)
  | left hkind' hp' => rwa [h.left_unique hkind hkind']
  | right hkind' => exact absurd rfl (h.left_ne_right hkind hkind')

/-- The right child is visited if the left one does not settle the matter. -/
lemma visited_right (h : g.IsForest) {p l r : Fin g.size} {logic : Logic}
    (hkind : g.kind p = .binary logic l r) :
    Visited a r ↔ Visited a p ∧ ¬ logic.Settles (eval a l) := by
  refine ⟨fun hr => ?_, fun hp => .right hkind hp.1 hp.2⟩
  cases hr with
  | root hi => exact absurd hi (h.right_notMem_roots hkind)
  | left hkind' => exact absurd rfl (h.left_ne_right hkind' hkind)
  | right hkind' hp' hsettles =>
    obtain rfl := h.right_unique hkind hkind'
    obtain ⟨rfl, rfl⟩ := by simpa using hkind.symm.trans hkind'
    exact ⟨hp', hsettles⟩

end UnifyPrototype.ControlFlow
