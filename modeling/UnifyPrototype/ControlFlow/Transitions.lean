import UnifyPrototype.ControlFlow.Forest

/-!
# Transitions one after the other

`resetForNewTransition` resets the run status and the counter of requestors, but not what a binary
node remembers of the decisions of its composites. A forest can be used again only if it has no
binary node.
-/

namespace UnifyPrototype.ControlFlow

open UnifyPrototype.Utils

variable {g : DecisionGraph} {a : Assignment g} {s s' : State g} {f : ℕ}

/-! ## Histories -/

/-- Transitions one after the other, the last one first: the decisions of the leaves, and the state
in which the transition came to rest. -/
inductive History (g : DecisionGraph) : List (Assignment g × State g) → Prop
  | nil : History g []
  | first {a : Assignment g} {s : State g} (h : Transition a {} s) : History g [(a, s)]
  | next {a b : Assignment g} {s s' : State g} {rest : List (Assignment g × State g)}
      (hrest : History g ((b, s) :: rest)) (h : Transition a (resetForNewTransition s) s') :
      History g ((a, s') :: (b, s) :: rest)

/-- Every root has sent one decision, the one that it sends in a new graph. -/
def LikeNew (a : Assignment g) (s : State g) : Prop :=
  ∀ i ∈ g.leafNodes, (s.decisions i).length = 1 ∧
    ∀ s', Transition a {} s' → s.decisions i = s'.decisions i

/-- From a state that is ready the roots send their values. -/
lemma decisions_of_ready (hforest : g.IsForest) (h : s.Ready) (ht : Transition a s s')
    {i : Fin g.size} (hi : i ∈ g.leafNodes) : s'.decisions i = [eval a i] :=
  ((calls_decisions hforest (inForest hforest h ht.run) (settled_of_isForest hforest h ht.run)
    ht.quiet i).1 (.root hi)).2

/-- From a state that is ready a transition of a forest goes as in a new graph. -/
lemma likeNew_of_ready (hforest : g.IsForest) (h : s.Ready) (ht : Transition a s s') :
    LikeNew a s' := by
  intro i hi
  rw [decisions_of_ready hforest h ht hi]
  refine ⟨rfl, fun t hnew => ?_⟩
  rw [decisions_of_ready hforest ready_default hnew hi]

/-- Without binary nodes nothing is remembered. -/
lemma ready_reset (hforest : g.IsForest) (hleaf : ∀ i, g.kind i = .leaf) (hquiet : s.Quiet) :
    (resetForNewTransition s).Ready := by
  refine ⟨fun i => ?_, fun i => rfl, fun p logic l r hkind => ?_, hquiet, rfl, rfl, rfl⟩
  · refine if_neg fun hnone => ?_
    have hone := hforest i
    rw [hnone] at hone
    cases hone
  · rw [hleaf p] at hkind
    cases hkind

/-! ## What is left from an earlier transition -/

/-- Every history can be continued. -/
lemma exists_history {rest : List (Assignment g × State g)} (h : History g rest) (a : Assignment g)
    {n : ℕ} (hn : rest.length ≤ n) :
    ∃ before, History g (before ++ rest) ∧ (before ++ rest).length = n := by
  induction n with
  | zero => exact ⟨[], h, by rw [List.nil_append]; omega⟩
  | succ n ih =>
    by_cases hlen : rest.length = n + 1
    · exact ⟨[], h, hlen⟩
    · obtain ⟨before, hbefore, hlength⟩ := ih (by omega)
      rcases hall : before ++ rest with _ | ⟨⟨b, s⟩, tail⟩
      · obtain ⟨s, hrun, hquiet⟩ := exists_quiet a (startAsync {})
        obtain ⟨rfl, rfl⟩ := List.append_eq_nil_iff.mp hall
        exact ⟨[(a, s)], .first ⟨hrun, hquiet⟩, by rw [← hlength]; rfl⟩
      · obtain ⟨s', hrun, hquiet⟩ := exists_quiet a (startAsync (resetForNewTransition s))
        refine ⟨(a, s') :: before, ?_, ?_⟩
        · rw [hall] at hbefore
          rw [List.cons_append, hall]
          exact .next hbefore ⟨hrun, hquiet⟩
        · rw [List.cons_append, List.length_cons, hlength]

/-- A forest with a binary node has one that is a root. -/
lemma exists_binary_root (hforest : g.IsForest) {i : Fin g.size} (hi : g.kind i ≠ .leaf) :
    ∃ p logic l r, p ∈ g.leafNodes ∧ g.kind p = .binary logic l r := by
  induction hn : g.size - i.val using Nat.strong_induction_on generalizing i with
  | _ n ih =>
    rcases hforest.root_or_child i with hroot | ⟨p, logic, l, r, hkind, hchild⟩
    · cases hkind : g.kind i with
      | leaf => exact absurd hkind hi
      | binary logic l r => exact ⟨i, logic, l, r, hroot, hkind⟩
    · have hlt : i < p := by
        rcases hchild with rfl | rfl
        · exact DecisionGraph.left_lt hkind
        · exact DecisionGraph.right_lt hkind
      exact ih (g.size - p.val) (by omega) (by rw [hkind]; simp) rfl

/-- If all leaves decide alike, all nodes do. -/
lemma eval_const {d : ControlFlowStatus} (hd : d ≠ .notStarted) (i : Fin g.size) :
    eval (.const g d hd) i = d := by
  induction i using Fin.strong_induction_on with
  | h i ih =>
    cases hkind : g.kind i with
    | leaf => exact eval_leaf hkind
    | binary logic l r =>
      rw [eval_binary hkind, ih l (DecisionGraph.left_lt hkind), ih r (DecisionGraph.right_lt hkind),
        ite_self]

/-- The decision that settles nothing. -/
def Logic.neutral : Logic → ControlFlowStatus
  | .and => .go
  | .or => .skip

lemma Logic.neutral_ne (logic : Logic) : logic.neutral ≠ .notStarted := by
  cases logic <;> decide

/-- The neutral decision settles nothing. -/
lemma Logic.not_settles_neutral (logic : Logic) : ¬ logic.Settles logic.neutral := by
  cases logic <;> decide

/-- Node `p` has heard of two decisions before, so it never takes another one for the second, and
sends what settles the matter at most. -/
structure State.Stale (p : Fin g.size) (logic : Logic) (s : State g) : Prop where
  count : 2 ≤ (s.node p).decisionsFromComposites
  sent : ∀ d, (p, d) ∈ s.sent → logic.Settles d
  tasks : ∀ i ∈ s.tasks, g.kind i = .leaf

/-- A decision that is sent before both have arrived settles the matter. -/
lemma Decides.settles {logic : Logic} {r : Fin g.size} {n : NodeState} {fromLeft : Bool}
    {d : ControlFlowStatus} {calls : List (Call (Fin g.size))}
    (h : Decides logic r n fromLeft d calls) (hcount : n.decisionsFromComposites ≠ 2) :
    logic.Settles d := by
  have hshort : ∀ x, logic.shortCircuitLogic x ≠ .notStarted →
      logic.Settles (logic.shortCircuitLogic x) := by
    intro x hx
    rw [shortCircuitLogic_eq] at hx ⊢
    by_cases hsettles : logic.Settles x
    · rwa [if_pos hsettles]
    · rw [if_neg hsettles] at hx
      exact absurd rfl hx
  cases h with
  | full htwo => exact absurd htwo hcount
  | left _ _ hne => exact hshort _ hne
  | right _ _ hne => exact hshort _ hne

lemma count_update {p q : Fin g.size} {n : NodeState}
    (h : (s.node q).decisionsFromComposites ≤ n.decisionsFromComposites) :
    (s.node p).decisionsFromComposites
      ≤ (Function.update s.node q n p).decisionsFromComposites := by
  by_cases hp : p = q
  · subst hp
    rwa [Function.update_self]
  · rw [Function.update_of_ne hp]

/-- A node that remembers an old decision goes on remembering it. -/
lemma stale_step {p l r : Fin g.size} {logic : Logic} (hkind : g.kind p = .binary logic l r)
    (hmoves : Moves a s s') (h : s.Stale p logic) : s'.Stale p logic := by
  cases hmoves with
  | ignored | finished | stray => exact ⟨h.count, h.sent, h.tasks⟩
  | counted => exact ⟨h.count.trans (count_update le_rfl), h.sent, h.tasks⟩
  | madeBinary => exact ⟨h.count.trans (count_update le_rfl), h.sent, h.tasks⟩
  | stored | asked => exact ⟨h.count.trans (count_update (by simp)), h.sent, h.tasks⟩
  | @madeLeaf i σ _ _ _ hleaf =>
    refine ⟨h.count.trans (count_update le_rfl), h.sent, fun j hj => ?_⟩
    rcases List.mem_append.mp hj with hj | hj
    · exact h.tasks j hj
    · split at hj
      · rwa [List.mem_singleton.mp hj]
      · cases hj
  | @decided q i d rest logic' l' r' d' calls _ hkind' _ hdecides =>
    refine ⟨h.count.trans (count_update (by simp)), fun e he => ?_, h.tasks⟩
    rcases List.mem_append.mp he with he | he
    · exact h.sent e he
    · obtain ⟨rfl, rfl⟩ := by simpa using he
      obtain ⟨rfl, -, -⟩ := by simpa using hkind.symm.trans hkind'
      refine hdecides.settles ?_
      have hcount := h.count
      rw [store_decisionsFromComposites]
      omega
  | @ran k i _ htask =>
    have hleaf := h.tasks i (List.mem_of_getElem? htask)
    refine ⟨h.count.trans (count_update le_rfl), fun e he => ?_, fun j hj => ?_⟩
    · rcases List.mem_append.mp he with he | he
      · exact h.sent e he
      · obtain ⟨rfl, -⟩ := by simpa using he
        rw [hkind] at hleaf
        cases hleaf
    · exact h.tasks j (List.mem_of_mem_eraseIdx hj)

/-- If its composites settle nothing, a binary root has heard of both of them in the end. -/
lemma count_of_neutral (hforest : g.IsForest) {p l r : Fin g.size} {logic : Logic}
    (hkind : g.kind p = .binary logic l r) (hp : p ∈ g.leafNodes)
    (ht : Transition (.const g logic.neutral logic.neutral_ne) {} s) :
    (s.node p).decisionsFromComposites = 2 := by
  have h := inForest hforest ready_default ht.run
  have hsettled := settled_of_isForest hforest ready_default ht.run
  have hasked : s.Asked p := by
    have hroot := hsettled.roots p hp
    unfold State.Requested at hroot
    rw [ht.quiet.1] at hroot
    exact hroot.resolve_right List.not_mem_nil
  have hdone := completed_of_asked hforest.distinct h.recorded h.delivered hsettled ht.quiet p hasked
  obtain ⟨hleft, hright⟩ := h.evaluates.done p logic l r hkind hdone
  rw [eval_const] at hright
  rw [h.delivered.count p logic l r hkind (hforest.distinct.left_ne_right hkind), arrived_of_ne hleft,
    arrived_of_ne (hright.resolve_left logic.not_settles_neutral)]

/-- The next transition with the same decisions does not give the value of that root. -/
lemma not_likeNew_of_reset (hforest : g.IsForest) {p l r : Fin g.size} {logic : Logic}
    (hkind : g.kind p = .binary logic l r) (hp : p ∈ g.leafNodes)
    (ht : Transition (.const g logic.neutral logic.neutral_ne) {} s)
    (ht' : Transition (.const g logic.neutral logic.neutral_ne) (resetForNewTransition s) s') :
    ¬ LikeNew (.const g logic.neutral logic.neutral_ne) s' := by
  intro hnew
  have hcount := count_of_neutral hforest hkind hp ht
  have hstale : (startAsync (resetForNewTransition s)).Stale p logic := by
    refine ⟨hcount.ge, fun d hd => (List.not_mem_nil hd).elim, fun i hi => ?_⟩
    rw [show (startAsync (resetForNewTransition s)).tasks = [] from ht.quiet.2] at hi
    cases hi
  have hstale' : s'.Stale p logic :=
    ht'.run.invariant hstale fun _ _ _ h _ hstep => stale_step hkind (moves hstep) h
  have hsent := (hnew p hp).2 s ht
  rw [decisions_of_ready hforest ready_default ht hp, eval_const] at hsent
  refine logic.not_settles_neutral (hstale'.sent _ (mem_entries.mp ?_))
  rw [show entries s'.sent p = _ from hsent]
  exact List.mem_singleton_self _

/-- With a binary node there are histories of any length from two on that go wrong. -/
lemma exists_not_likeNew (hforest : g.IsForest) {i : Fin g.size} (hi : g.kind i ≠ .leaf) {n : ℕ}
    (hn : 2 ≤ n) :
    ∃ history, History g history ∧ history.length = n ∧ ∃ e ∈ history, ¬ LikeNew e.1 e.2 := by
  obtain ⟨p, logic, l, r, hp, hkind⟩ := exists_binary_root hforest hi
  obtain ⟨s, hrun, hquiet⟩ :=
    exists_quiet (.const g logic.neutral logic.neutral_ne) (startAsync {})
  obtain ⟨s', hrun', hquiet'⟩ := exists_quiet (.const g logic.neutral logic.neutral_ne)
    (startAsync (resetForNewTransition s))
  have htwo := History.next (.first ⟨hrun, hquiet⟩) ⟨hrun', hquiet'⟩
  obtain ⟨before, hhistory, hlength⟩ :=
    exists_history htwo (.const g logic.neutral logic.neutral_ne) (n := n) hn
  refine ⟨_, hhistory, hlength, (_, s'), List.mem_append_right _ List.mem_cons_self, ?_⟩
  exact not_likeNew_of_reset hforest hkind hp ⟨hrun, hquiet⟩ ⟨hrun', hquiet'⟩

lemma History.quiet {rest : List (Assignment g × State g)} (h : History g ((a, s) :: rest)) :
    s.Quiet := by
  cases h with
  | first ht => exact ht.quiet
  | next _ ht => exact ht.quiet

/-- Without binary nodes every transition is as good as the first one. -/
lemma likeNew_of_leaf (hforest : g.IsForest) (hleaf : ∀ i, g.kind i = .leaf)
    {history : List (Assignment g × State g)} (h : History g history) :
    ∀ e ∈ history, LikeNew e.1 e.2 := by
  induction h with
  | nil => exact fun e he => (List.not_mem_nil he).elim
  | first ht =>
    intro e he
    obtain rfl := List.mem_singleton.mp he
    exact likeNew_of_ready hforest ready_default ht
  | next hrest ht ih =>
    intro e he
    rcases List.mem_cons.mp he with rfl | he
    · exact likeNew_of_ready hforest (ready_reset hforest hleaf hrest.quiet) ht
    · exact ih e he

/-- The first transition is that of a new graph. -/
lemma likeNew_of_length_le (hforest : g.IsForest) {history : List (Assignment g × State g)}
    (h : History g history) (hlength : history.length ≤ 1) : ∀ e ∈ history, LikeNew e.1 e.2 := by
  cases h with
  | nil => exact fun e he => (List.not_mem_nil he).elim
  | first ht =>
    intro e he
    obtain rfl := List.mem_singleton.mp he
    exact likeNew_of_ready hforest ready_default ht
  | next =>
    simp only [List.length_cons] at hlength
    omega

/-- **A forest can be used again if and only if it has no binary node.** -/
theorem reuse_iff (g : DecisionGraph) (hforest : g.IsForest) (n : ℕ) :
    (∀ history, History g history → history.length = n → ∀ e ∈ history, LikeNew e.1 e.2) ↔
      n ≤ 1 ∨ ∀ i, g.kind i = .leaf := by
  constructor
  · intro hall
    by_contra hne
    rw [not_or, Nat.not_le, not_forall] at hne
    obtain ⟨hn, i, hi⟩ := hne
    obtain ⟨history, hhistory, hlength, e, he, hnot⟩ := exists_not_likeNew hforest hi hn
    exact hnot (hall history hhistory hlength e he)
  · rintro (hn | hleaf) history hhistory hlength
    · exact likeNew_of_length_le hforest hhistory (hlength ▸ hn)
    · exact likeNew_of_leaf hforest hleaf hhistory

theorem reuse_iff_andForest : ∃ history, History andForest history ∧ history.length = 2 ∧
    ∃ e ∈ history, ¬ LikeNew e.1 e.2 := by
  have hiff := reuse_iff andForest (by decide) 2
  have hbinary : ¬ (2 ≤ 1 ∨ ∀ i, andForest.kind i = .leaf) := by decide
  by_contra hne
  refine hbinary (hiff.mp fun history hhistory hlength e he => ?_)
  by_contra hnot
  exact hne ⟨history, hhistory, hlength, e, he, hnot⟩

/-- The calls and tasks of a transition of `andForest`, up to the last one of a new graph. -/
def andTransition : List Label :=
  [.call, .call, .task 0, .call, .call, .task 0, .call]

/-- **A graph need not behave like a new one.** The root sends `GO` in the first transition and
nothing at all in the second one, in which it counts its third and its fourth decision. -/
theorem root_silent_after_reset :
    ¬ ∀ g : DecisionGraph, g.IsForest → ∀ history, History g history →
      ∀ e ∈ history, LikeNew e.1 e.2 := by
  have hrun : ∃ s s', executeAll (step (.const andForest .go (by decide))) (startAsync {})
        (andTransition ++ [.call]) = some s ∧ s.Quiet ∧
      executeAll (step (.const andForest .go (by decide))) (startAsync (resetForNewTransition s)) andTransition
        = some s' ∧ s'.Quiet ∧ s'.decisions ⟨2, by decide⟩ = [] :=
    ⟨_, _, rfl, by decide, rfl, by decide, rfl⟩
  obtain ⟨s, s', hs, hquiet, hs', hquiet', hnone⟩ := hrun
  intro hall
  have htwo := History.next (.first ⟨.of_executeAll _ hs, hquiet⟩) ⟨.of_executeAll _ hs', hquiet'⟩
  have hlike := hall andForest (by decide) _ htwo (_, s') List.mem_cons_self ⟨2, by decide⟩ (by decide)
  rw [hnone] at hlike
  cases hlike.1

end UnifyPrototype.ControlFlow
