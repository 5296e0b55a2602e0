import UnifyPrototype.ControlFlow.Inert
import UnifyPrototype.Utils.Counters

/-!
# The counters of the nodes

`willNotRunRequests_` is an `unsigned int` and `decisionsFromComposites_` an `int`. A node that may
still be asked has counted fewer requests than it has requestors, so with fewer than `2 ^ 32` of them
the comparison of the words is that of the numbers. `finishedLeafNodes_` is an `unsigned int` that
nothing is compared with.
-/

namespace UnifyPrototype.ControlFlow

open UnifyPrototype.Utils

variable {g : DecisionGraph} {a : Assignment g} {s s' : State g} {i : Fin g.size}

/-! ## `willNotRunRequests_` -/

/-- Only nodes with requestors are asked, and one that was neither asked nor told by all of them has
counted fewer than it has. -/
structure State.Counts (s : State g) : Prop where
  asked : ∀ i σ, .request i σ ∈ s.agenda → g.requestors i ≠ []
  counter : ∀ i, s.status i = .notStarted → g.requestors i ≠ [] →
    (s.node i).willNotRunRequests < (g.requestors i).length

/-- A request comes from a node with that composite. -/
lemma request_of_moves (h : Moves a s s') {σ : RequestState} (hmem : .request i σ ∈ s'.agenda) :
    .request i σ ∈ s.agenda ∨ ∃ p, i ∈ (g.kind p).composites := by
  cases h with
  | ignored hagenda | counted hagenda | madeLeaf hagenda | finished hagenda | stray hagenda
  | stored hagenda =>
    rw [hagenda]
    exact .inl (List.mem_cons_of_mem _ hmem)
  | @madeBinary p τ rest logic l r hagenda hstatus hkind =>
    rw [hagenda]
    simp only [List.cons_append, List.mem_cons, List.mem_append] at hmem
    rcases hmem with heq | hmem | hmem
    · obtain ⟨rfl, -⟩ := Call.request.inj heq
      exact .inr ⟨p, by simp [hkind, Kind.composites]⟩
    · split at hmem
      next =>
        obtain ⟨rfl, -⟩ := Call.request.inj (List.mem_singleton.mp hmem)
        exact .inr ⟨p, by simp [hkind, Kind.composites]⟩
      next => cases hmem
    · exact .inl (List.mem_cons_of_mem _ hmem)
  | @asked p d rest logic l r hagenda hkind =>
    rw [hagenda]
    rcases List.mem_cons.mp hmem with heq | hmem
    · obtain ⟨rfl, -⟩ := Call.request.inj heq
      exact .inr ⟨p, by simp [hkind, Kind.composites]⟩
    · exact .inl (List.mem_cons_of_mem _ hmem)
  | @decided p j d rest logic l r d' calls hagenda hkind hstatus hdecides =>
    rw [hagenda]
    rcases List.mem_append.mp hmem with hnew | hmem
    · have hcalls : .request i σ ∈ calls := by simpa using hnew
      obtain ⟨rfl, -⟩ := hdecides.request_mem hcalls
      exact .inr ⟨p, by simp [hkind, Kind.composites]⟩
    · exact .inl (List.mem_cons_of_mem _ hmem)
  | ran hagenda =>
    obtain ⟨q, -, heq⟩ := List.mem_map.mp hmem
    cases heq

/-- A node changes: if it may still be asked it has to have counted fewer requests than it has
requestors. -/
lemma counter_update (h : s.Counts) {p : Fin g.size} {n : NodeState}
    (hn : n.runStatus = .notStarted → g.requestors p ≠ [] →
      n.willNotRunRequests < (g.requestors p).length)
    (i : Fin g.size) (hi : (Function.update s.node p n i).runStatus = .notStarted)
    (hne : g.requestors i ≠ []) :
    (Function.update s.node p n i).willNotRunRequests < (g.requestors i).length := by
  by_cases hip : i = p
  · subst hip
    rw [Function.update_self] at hi ⊢
    exact hn hi hne
  · rw [Function.update_of_ne hip] at hi ⊢
    exact h.counter i hi hne

/-- Each step keeps it, since a node that counts the last request is told. -/
lemma counts_step (hmoves : Moves a s s') (h : s.Counts) : s'.Counts := by
  refine ⟨fun i σ hmem => ?_, ?_⟩
  · rcases request_of_moves hmoves hmem with hmem | ⟨p, hp⟩
    · exact h.asked i σ hmem
    · exact List.ne_nil_of_mem (DecisionGraph.mem_requestors hp)
  · cases hmoves with
    | ignored | finished | stray => exact h.counter
    | @counted p rest hagenda hstatus hcount =>
      refine counter_update h fun _ hne => ?_
      have hlt := h.counter p hstatus hne
      exact Nat.lt_of_le_of_ne hlt hcount
    | @madeLeaf p σ => exact counter_update h fun hstatus => by cases σ <;> cases hstatus
    | madeBinary | decided | ran => exact counter_update h nofun
    | @stored p | @asked p =>
      refine counter_update h fun hstatus hne => ?_
      rw [store_runStatus] at hstatus
      rw [store_willNotRunRequests]
      exact h.counter p hstatus hne

/-- Nothing is counted at the start, and the roots are asked by the `StartDecisionGraph`. -/
lemma State.Ready.counts (h : s.Ready) : (startAsync s).Counts := by
  refine ⟨fun i σ hmem => ?_, fun i _ hne => ?_⟩
  · obtain ⟨j, hj, heq⟩ := List.mem_map.mp hmem
    obtain ⟨rfl, -⟩ := Call.request.inj heq
    rw [← List.count_pos_iff, ← g.count_start] at hj
    exact List.ne_nil_of_mem (List.count_pos_iff.mp hj)
  · rw [show ((startAsync s).node i).willNotRunRequests = _ from h.willNotRunRequests i]
    exact List.length_pos_of_ne_nil hne

/-- **`willNotRunRequests_` does not wrap** in a graph whose nodes have fewer than `2 ^ 32` requestors:
where the word is incremented it shows the number, and it is equal to the number of requestors when
the number is. -/
theorem willNotRunRequests_shows (h : s.Ready) (hrun : Reaches (step a) (startAsync s) s')
    {rest : List (Call (Fin g.size))} (hagenda : s'.agenda = .request i .noRequestComing :: rest)
    (hstatus : s'.status i = .notStarted) (hfew : (g.requestors i).length < 2 ^ 32)
    {c : BitVec 32} (hc : Shows c (s'.node i).willNotRunRequests) :
    Shows (c + 1#32) ((s'.node i).willNotRunRequests + 1) ∧
      (c + 1#32 = BitVec.ofNat 32 (g.requestors i).length ↔
        (s'.node i).willNotRunRequests + 1 = (g.requestors i).length) := by
  have hcounts : s'.Counts := hrun.invariant h.counts fun _ _ _ ht _ hstep =>
    counts_step (moves hstep) ht
  have hne := hcounts.asked i .noRequestComing (hagenda ▸ List.mem_cons_self)
  have hlt := hcounts.counter i hstatus hne
  have hshows := hc.increment (by omega)
  exact ⟨hshows, hshows.eq_ofNat_iff hfew⟩

/-! ## `decisionsFromComposites_` -/

/-- **`decisionsFromComposites_` does not wrap** while fewer than `2 ^ 31` decisions have come since
the node was made, and it is compared with 2. -/
theorem decisionsFromComposites_shows {n : NodeState} (fromLeft : Bool) (d : ControlFlowStatus)
    (hfew : n.decisionsFromComposites + 1 < 2 ^ 31) {c : BitVec 32}
    (hc : Shows c n.decisionsFromComposites) :
    Shows (c + 1#32) (n.store fromLeft d).decisionsFromComposites ∧
      (c + 1#32 = 2#32 ↔ (n.store fromLeft d).decisionsFromComposites = 2) := by
  have hshows : Shows (c + 1#32) (n.store fromLeft d).decisionsFromComposites := by
    rw [store_decisionsFromComposites]
    exact hc.increment (by omega)
  exact ⟨hshows, hshows.eq_ofNat_iff (by decide)⟩

/-- If the composites of each binary node are two nodes, no more than two decisions come. -/
theorem decisionsFromComposites_le (hg : g.Distinct) (h : s.Ready)
    (hrun : Reaches (step a) (startAsync s) s') {logic : Logic} {l r : Fin g.size}
    (hkind : g.kind i = .binary logic l r) : (s'.node i).decisionsFromComposites ≤ 2 := by
  rw [(delivered h hrun).count i logic l r hkind (hg.left_ne_right hkind)]
  have harrived : ∀ d : ControlFlowStatus, d.arrived ≤ 1 := fun d => by cases d <;> decide
  exact Nat.add_le_add (harrived _) (harrived _)

/-! ## `finishedLeafNodes_` -/

/-- **`finishedLeafNodes_` does not wrap** while there are fewer than `2 ^ 32` roots, those of the
transitions before included: each root is counted once. -/
theorem finishedLeafNodes_lt (h : s.Ready) (hrun : Reaches (step a) (startAsync s) s')
    (hfew : s.finishedLeafNodes + g.leafNodes.length < 2 ^ 32) : s'.finishedLeafNodes < 2 ^ 32 := by
  have hfinished := (delivered h hrun).finished
  have hroots : tally (fun i => s'.decided i * g.leafNodes.count i) (List.finRange g.size)
      ≤ g.leafNodes.length := by
    rw [← tally_count g.leafNodes]
    refine tally_le_tally fun i _ => ?_
    exact (Nat.mul_le_mul_right _ (decided_le s' i)).trans_eq (Nat.one_mul _)
  omega

end UnifyPrototype.ControlFlow
