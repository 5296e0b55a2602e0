import UnifyPrototype.ControlFlow.Evaluation
import UnifyPrototype.ControlFlow.Requests

/-!
# What a step does in a forest

In a forest every node has one requestor, so it is told once whether its decision is wanted. The
calls and the tasks that are pending are those of a left-to-right short-circuit evaluation that
has come to some point, and that leaves a step less to do than in a graph.
-/

namespace UnifyPrototype.ControlFlow

open UnifyPrototype.Utils

variable {g : DecisionGraph} {a : Assignment g} {s s' : State g} {f : ℕ}

/-! ## Who has been told -/

/-- One for a request to node `i`. -/
def Call.tells (i : Fin g.size) : Call (Fin g.size) → ℕ
  | .request j _ => if j = i then 1 else 0
  | .decision _ _ _ => 0

/-- The number of requests to node `i` so far, with those that are about to be made. -/
def State.told (s : State g) (i : Fin g.size) : ℕ :=
  tally (Call.tells i) s.agenda + (s.received.map Prod.fst).count i

/-- Decisions tell nobody that it will or will not be asked. -/
lemma tells_decisions (j i : Fin g.size) (d : ControlFlowStatus) :
    tally (Call.tells j) ((g.requestors i).map (Call.decision · i d)) = 0 := by
  rw [tally_map]
  exact tally_zero _

/-- A request that is received becomes one that was, and its calls are new ones. -/
lemma told_of_request {i : Fin g.size} {σ : RequestState} {calls rest : List (Call (Fin g.size))}
    (hagenda : s.agenda = .request i σ :: rest) (hagenda' : s'.agenda = calls ++ rest)
    (hreceived : s'.received = s.received ++ [(i, σ)]) (j : Fin g.size) :
    s'.told j = s.told j + tally (Call.tells j) calls := by
  have hone : ([(i, σ)].map Prod.fst).count j = Call.tells j (.request i σ) := by
    by_cases hj : i = j
    · subst hj
      simp [Call.tells]
    · simp [Call.tells, hj]
  unfold State.told
  rw [hagenda, hagenda', hreceived, List.map_append, List.count_append, hone, tally_append,
    tally_cons]
  omega

lemma told_of_decision {q : Requestor (Fin g.size)} {i : Fin g.size} {d : ControlFlowStatus}
    {calls rest : List (Call (Fin g.size))} (hagenda : s.agenda = .decision q i d :: rest)
    (hagenda' : s'.agenda = calls ++ rest) (hreceived : s'.received = s.received)
    (j : Fin g.size) : s'.told j = s.told j + tally (Call.tells j) calls := by
  unfold State.told
  rw [hagenda, hagenda', hreceived, tally_append, tally_cons]
  show _ = 0 + _ + _ + _
  omega

/-- A root is told by `startAsync`, a left composite when its parent is told, a right composite
when its parent hears that it is not wanted or when the left decision arrives at the parent. -/
structure State.Told (s : State g) : Prop where
  received : s.received = s.made
  willNotRunRequests : ∀ i, s.status i = .notStarted → (s.node i).willNotRunRequests = 0
  root : ∀ i ∈ g.leafNodes, s.told i = 1
  left : ∀ p logic l r, g.kind p = .binary logic l r →
    s.told l = (s.made.map Prod.fst).count p
  right : ∀ p logic l r, g.kind p = .binary logic l r →
    s.told r = s.made.count (p, .noRequestComing) + (s.node p).leftDecision.arrived

/-- What the calls say is what the evaluation says. -/
structure State.Evaluates (a : Assignment g) (s : State g) : Prop where
  request : ∀ i σ, .request i σ ∈ s.agenda ∨ (i, σ) ∈ s.made →
    (σ = .requestDecision ↔ Visited a i)
  task : ∀ i, s.status i = .shouldRun → Visited a i
  completed : ∀ i, s.status i = .completed → Visited a i
  delivery : ∀ q i d, (q, i, d) ∈ s.deliveries → d = eval a i
  sent : ∀ i d, (i, d) ∈ s.sent → d = eval a i
  left : ∀ p logic l r, g.kind p = .binary logic l r →
    (s.node p).leftDecision ≠ .notStarted → (s.node p).leftDecision = eval a l
  done : ∀ p logic l r, g.kind p = .binary logic l r → s.status p = .completed →
    (s.node p).leftDecision ≠ .notStarted ∧
      (logic.Settles (eval a l) ∨ (s.node p).rightDecision ≠ .notStarted)

/-- All that is known in a forest. -/
structure State.InForest (f : ℕ) (a : Assignment g) (s : State g) : Prop where
  recorded : s.Recorded
  delivered : s.Delivered f
  told : s.Told
  evaluates : s.Evaluates a

namespace State.InForest

variable (h : s.InForest f a) {p i l r : Fin g.size} {logic : Logic}
include h

/-- A node that has started was made to decide once. -/
lemma made_of_started (hi : s.status i ≠ .notStarted) : (s.made.map Prod.fst).count i = 1 := by
  rw [h.recorded.made, if_neg hi]

/-- A node that is not `notStarted` was told. -/
lemma told_of_started (hi : s.status i ≠ .notStarted) : 1 ≤ s.told i := by
  have hmade := h.made_of_started hi
  unfold State.told
  rw [h.told.received]
  omega

/-- A visited node does not hear that it is not wanted. -/
lemma count_noRequestComing (hp : Visited a p) : s.made.count (p, .noRequestComing) = 0 := by
  refine List.count_eq_zero.mpr fun hmem => ?_
  have hasks := (h.evaluates.request p .noRequestComing (.inr hmem)).mpr hp
  cases hasks

/-- A left decision has come from a left child that has decided. -/
lemma completed_of_left (hforest : g.IsForest) (hkind : g.kind p = .binary logic l r)
    (hleft : (s.node p).leftDecision ≠ .notStarted) : s.status l = .completed := by
  have harrived := h.delivered.left p logic l r hkind (hforest.distinct.left_ne_right hkind)
  rw [arrived_of_ne hleft, State.decided] at harrived
  by_contra hne
  rw [if_neg hne] at harrived
  omega

lemma completed_of_right (hforest : g.IsForest) (hkind : g.kind p = .binary logic l r)
    (hright : (s.node p).rightDecision ≠ .notStarted) : s.status r = .completed := by
  have harrived := h.delivered.right p logic l r hkind (hforest.distinct.left_ne_right hkind)
  rw [arrived_of_ne hright, State.decided] at harrived
  by_contra hne
  rw [if_neg hne] at harrived
  omega

/-- The parent of a left composite that has started has started. -/
lemma started_of_left (hkind : g.kind p = .binary logic l r) (hl : s.status l ≠ .notStarted) :
    s.status p ≠ .notStarted := by
  intro hp
  have htold := h.told_of_started hl
  rw [h.told.left p logic l r hkind, h.recorded.made, if_pos hp] at htold
  omega

/-- The right composite of a visited node has started only if the left decision has arrived. -/
lemma left_of_right (hkind : g.kind p = .binary logic l r) (hp : Visited a p)
    (hr : s.status r ≠ .notStarted) : (s.node p).leftDecision ≠ .notStarted := by
  intro hleft
  have htold := h.told_of_started hr
  rw [h.told.right p logic l r hkind, h.count_noRequestComing hp, arrived_eq_zero.mpr hleft] at htold
  omega

/-- **Decisions arrive in order.** The node that gets a decision is waiting. A left decision is the
first one; a right decision comes after a left one that settles nothing. -/
lemma next_in_order (hforest : g.IsForest) {d : ControlFlowStatus}
    {rest : List (Call (Fin g.size))} (hkind : g.kind p = .binary logic l r)
    (hagenda : s.agenda = .decision (.node p) i d :: rest) :
    Visited a p ∧ s.status p = .inProgress ∧ d = eval a i ∧
      (s.node p).rightDecision = .notStarted ∧
      (i = l ∧ (s.node p).leftDecision = .notStarted ∨
        i = r ∧ (s.node p).leftDecision = eval a l ∧ ¬ logic.Settles (eval a l)) := by
  obtain ⟨-, hdone, hfirst⟩ := h.delivered.next hkind (hforest.distinct.left_ne_right hkind) hagenda
  have hvalue : d = eval a i := by
    refine h.evaluates.delivery (.node p) i d ?_
    rw [State.deliveries, hagenda]
    exact List.mem_cons_self
  have hvisited := h.evaluates.completed i hdone
  have hbinary := h.recorded.binary p logic l r hkind
  have hprogress : s.status p ≠ .notStarted → s.status p ≠ .completed →
      s.status p = .inProgress := by
    cases hs : s.status p <;> simp_all
  rcases hfirst with ⟨rfl, hleft⟩ | ⟨rfl, hright⟩
  · have hp := (visited_left hforest hkind).mp hvisited
    refine ⟨hp, hprogress ?_ ?_, hvalue, ?_, .inl ⟨rfl, hleft⟩⟩
    · exact h.started_of_left hkind (by rw [hdone]; decide)
    · exact fun hc => (h.evaluates.done p logic i r hkind hc).1 hleft
    · by_contra hright
      refine h.left_of_right hkind hp ?_ hleft
      rw [h.completed_of_right hforest hkind hright]
      decide
  · obtain ⟨hp, hsettles⟩ := (visited_right hforest hkind).mp hvisited
    have hleft := h.left_of_right hkind hp (by rw [hdone]; decide)
    refine ⟨hp, hprogress ?_ ?_, hvalue, hright, .inr ⟨rfl, ?_, hsettles⟩⟩
    · refine h.started_of_left hkind ?_
      rw [h.completed_of_left hforest hkind hleft]
      decide
    · exact fun hc => (h.evaluates.done p logic l i hkind hc).2.elim hsettles fun hr => hr hright
    · exact h.evaluates.left p logic l i hkind hleft

/-- Nobody is told twice. -/
lemma told_le (hforest : g.IsForest) (i : Fin g.size) : s.told i ≤ 1 := by
  have hmade : ∀ j, (s.made.map Prod.fst).count j ≤ 1 := fun j => by
    rw [h.recorded.made]
    split <;> omega
  rcases hforest.root_or_child i with hroot | ⟨p, logic, l, r, hkind, rfl | rfl⟩
  · exact (h.told.root i hroot).le
  · rw [h.told.left p logic i r hkind]
    exact hmade p
  · rw [h.told.right p logic l i hkind]
    by_cases hleft : (s.node p).leftDecision = .notStarted
    · rw [arrived_eq_zero.mpr hleft]
      have hle : s.made.count (p, .noRequestComing) ≤ (s.made.map Prod.fst).count p :=
        List.count_le_count_map (f := Prod.fst) (x := (p, RequestState.noRequestComing))
      exact hle.trans (hmade p)
    · -- the left decision is there, so the parent was visited
      have hvisited := h.evaluates.completed l (h.completed_of_left hforest hkind hleft)
      rw [h.count_noRequestComing ((visited_left hforest hkind).mp hvisited), arrived_of_ne hleft]

/-- Whoever is told hears it for the first time, from its only requestor. -/
lemma next_request (hforest : g.IsForest) {σ : RequestState} {rest : List (Call (Fin g.size))}
    (hagenda : s.agenda = .request i σ :: rest) :
    s.status i = .notStarted ∧ (s.node i).willNotRunRequests + 1 = (g.requestors i).length := by
  have hstatus : s.status i = .notStarted := by
    by_contra hne
    have hmade := h.made_of_started hne
    have hle := h.told_le hforest i
    unfold State.told at hle
    rw [h.told.received, hagenda, tally_cons, Call.tells, if_pos rfl] at hle
    omega
  exact ⟨hstatus, by rw [h.told.willNotRunRequests i hstatus, hforest i]⟩

end State.InForest

/-! ## What a step does in a forest -/

/-- The steps of a forest. -/
inductive Progress (a : Assignment g) (s s' : State g) : Prop
  /-- A leaf is told. -/
  | madeLeaf {i σ rest} (hagenda : s.agenda = .request i σ :: rest)
      (hstatus : s.status i = .notStarted) (hkind : g.kind i = .leaf)
      (heq : s' = { s with
        agenda := rest
        received := s.received ++ [(i, σ)]
        made := s.made ++ [(i, σ)]
        tasks := s.tasks ++ if σ = .requestDecision then [i] else []
        node := Function.update s.node i
          { s.node i with
            runStatus := σ.runStatus
            willNotRunRequests := σ.count (s.node i).willNotRunRequests } })
  /-- A binary node is told. -/
  | madeBinary {i σ rest logic l r} (hagenda : s.agenda = .request i σ :: rest)
      (hstatus : s.status i = .notStarted) (hkind : g.kind i = .binary logic l r)
      (heq : s' = { s with
        agenda := .request l σ :: (if σ = .noRequestComing then [.request r σ] else []) ++ rest
        received := s.received ++ [(i, σ)]
        made := s.made ++ [(i, σ)]
        node := Function.update s.node i
          { s.node i with
            runStatus := .inProgress
            requestCallsToComposites := 1
            willNotRunRequests := σ.count (s.node i).willNotRunRequests } })
  /-- The decision of a root arrives. -/
  | finished {i d rest} (hagenda : s.agenda = .decision .start i d :: rest)
      (heq : s' = { s with agenda := rest, finishedLeafNodes := s.finishedLeafNodes + 1 })
  /-- The left decision settles nothing. -/
  | asked {p rest logic l r} (hagenda : s.agenda = .decision (.node p) l (eval a l) :: rest)
      (hkind : g.kind p = .binary logic l r) (hsettles : ¬ logic.Settles (eval a l))
      (heq : s' = { s with
        agenda := .request r .requestDecision :: rest
        node := Function.update s.node p ((s.node p).store true (eval a l)) })
  /-- The left decision settles the matter. -/
  | short {p rest logic l r} (hagenda : s.agenda = .decision (.node p) l (eval a l) :: rest)
      (hkind : g.kind p = .binary logic l r) (hsettles : logic.Settles (eval a l))
      (heq : s' = { s with
        agenda := (g.requestors p).map (.decision · p (eval a p))
          ++ [.request r .noRequestComing] ++ rest
        sent := s.sent ++ [(p, eval a p)]
        node := Function.update s.node p
          { (s.node p).store true (eval a l) with runStatus := .completed } })
  /-- The right decision settles the matter. -/
  | full {p rest logic l r} (hagenda : s.agenda = .decision (.node p) r (eval a r) :: rest)
      (hkind : g.kind p = .binary logic l r)
      (heq : s' = { s with
        agenda := (g.requestors p).map (.decision · p (eval a p)) ++ rest
        sent := s.sent ++ [(p, eval a p)]
        node := Function.update s.node p
          { (s.node p).store false (eval a r) with runStatus := .completed } })
  /-- The task of a leaf runs. -/
  | ran {k i} (hagenda : s.agenda = []) (htask : s.tasks[k]? = some i)
      (hkind : g.kind i = .leaf)
      (heq : s' = { s with
        agenda := (g.requestors i).map (.decision · i (eval a i))
        tasks := s.tasks.eraseIdx k
        sent := s.sent ++ [(i, eval a i)]
        node := Function.update s.node i { s.node i with runStatus := .completed } })

/-- In a forest a step is one of the few kinds of progress. -/
lemma progress (hforest : g.IsForest) (h : s.InForest f a) (hmoves : Moves a s s') :
    Progress a s s' := by
  cases hmoves with
  | ignored hagenda hstatus => exact absurd (h.next_request hforest hagenda).1 hstatus
  | counted hagenda _ hcount => exact absurd (h.next_request hforest hagenda).2 hcount
  | madeLeaf hagenda hstatus hkind => exact .madeLeaf hagenda hstatus hkind rfl
  | madeBinary hagenda hstatus hkind => exact .madeBinary hagenda hstatus hkind rfl
  | finished hagenda => exact .finished hagenda rfl
  | @stray p i d rest hagenda hkind =>
    have hmem : .node p ∈ g.requestors i := by
      refine (h.delivered.mem (.node p) i d ?_).2
      rw [State.deliveries, hagenda]
      exact List.mem_cons_self
    have hcomposite := DecisionGraph.mem_composites_of_requestor hmem
    rw [hkind] at hcomposite
    cases hcomposite
  | @stored p i d rest logic l r hagenda hkind hwaits =>
    obtain ⟨-, hprogress, -, hright, hfirst⟩ := h.next_in_order hforest hkind hagenda
    obtain ⟨hcount, hleft, -⟩ := hwaits.resolve_left
      (by rw [store_runStatus]; exact not_not.mpr hprogress)
    -- it is the right decision and the second one, so the node does not wait on
    have hne : i ≠ l := by simpa using hleft
    obtain ⟨rfl, hvalue, -⟩ := hfirst.resolve_left fun hl => hne hl.1
    have hone := h.delivered.count p logic l i hkind (hforest.distinct.left_ne_right hkind)
    rw [hvalue, arrived_of_ne (eval_ne_notStarted l), arrived_eq_zero.mpr hright] at hone
    rw [store_decisionsFromComposites, hone] at hcount
    exact absurd rfl hcount
  | @asked p d rest logic l r hagenda hkind hstatus hcount hshort =>
    obtain ⟨-, -, rfl, -⟩ := h.next_in_order hforest hkind hagenda
    refine .asked hagenda hkind (fun hsettles => ?_) rfl
    rw [shortCircuitLogic_eq, if_pos hsettles] at hshort
    exact eval_ne_notStarted l hshort
  | @decided p i d rest logic l r d' calls hagenda hkind hstatus hdecides =>
    obtain ⟨-, -, rfl, hright, hfirst⟩ := h.next_in_order hforest hkind hagenda
    have hne := hforest.distinct.left_ne_right hkind
    have hcount := h.delivered.count p logic l r hkind hne
    rw [arrived_eq_zero.mpr hright] at hcount
    rcases hfirst with ⟨rfl, hleft⟩ | ⟨rfl, hleft, hsettles⟩
    · rw [arrived_eq_zero.mpr hleft] at hcount
      cases hdecides with
      | full htwo => simp [hcount] at htwo
      | left _ _ hshort =>
        have hsettles : logic.Settles (eval a i) := by
          by_contra hsettles
          rw [shortCircuitLogic_eq] at hshort
          simp [hsettles] at hshort
        have hvalue : logic.shortCircuitLogic (eval a i) = eval a p := by
          rw [shortCircuitLogic_eq, if_pos hsettles, eval_binary hkind, if_pos hsettles]
        refine .short hagenda hkind hsettles ?_
        simp [hvalue]
      | right _ hleft' => simp at hleft'
    · rw [hleft, arrived_of_ne (eval_ne_notStarted l)] at hcount
      cases hdecides with
      | full htwo =>
        have hvalue : logic.fullDecisionLogic (eval a l) (eval a i) = eval a p := by
          rw [fullDecisionLogic_eq hsettles (eval_ne_notStarted l) (eval_ne_notStarted i),
            eval_binary hkind, if_neg hsettles]
        refine .full hagenda hkind ?_
        simp [hvalue, hne.symm, hleft]
      | left htwo => simp [hcount] at htwo
      | right htwo => simp [hcount] at htwo
  | @ran k i hagenda htask =>
    have hstatus := h.recorded.status_of_mem_tasks (List.mem_of_getElem? htask)
    have hkind : g.kind i = .leaf := by
      cases hkind : g.kind i with
      | leaf => rfl
      | binary logic l r => exact absurd hstatus (h.recorded.binary i logic l r hkind).1
    exact .ran hagenda htask hkind (by rw [eval_leaf hkind])

end UnifyPrototype.ControlFlow
