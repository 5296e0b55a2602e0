import UnifyPrototype.ControlFlow.Decisions
import UnifyPrototype.ControlFlow.Requests

/-!
# Every decision follows from those below it

What a node knows of its composites is what they sent, so what it makes of them follows from
decisions that were sent. The exception is a node whose two composites are one node: it gets
that decision twice, stores it on the left both times, and the full logic reads a right decision
that never arrived.
-/

namespace UnifyPrototype.ControlFlow

open UnifyPrototype.Utils

variable {g : DecisionGraph} {a : Assignment g} {s s' : State g} {i l r p : Fin g.size}
  {logic : Logic} {d d' : ControlFlowStatus} {f : ℕ}
  {sent sent' : List (Fin g.size × ControlFlowStatus)}

/-! ## What the nodes know -/

/-- The decisions that the nodes remember were sent by their composites. If the two composites are
one node, it is the left one. -/
def Knows (sent : List (Fin g.size × ControlFlowStatus)) (node : Fin g.size → NodeState) : Prop :=
  ∀ p logic l r, g.kind p = .binary logic l r →
    ((node p).leftDecision ≠ .notStarted → (l, (node p).leftDecision) ∈ sent) ∧
    ((node p).rightDecision ≠ .notStarted → (r, (node p).rightDecision) ∈ sent) ∧
    (l = r → (node p).rightDecision = .notStarted)

/-- Every decision that was sent follows from others, and what is on its way and what the nodes
remember was sent. -/
structure State.Informed (a : Assignment g) (s : State g) : Prop where
  sent : Grounded a s.sent
  deliveries : ∀ q i d, (q, i, d) ∈ s.deliveries → (i, d) ∈ s.sent
  knows : Knows s.sent s.node

/-- More decisions are sent, and what the nodes know stays among them. -/
lemma knows_mono (h : Knows sent s.node) (hsent : ∀ c ∈ sent, c ∈ sent') :
    Knows sent' s.node := by
  intro p logic l r hkind
  obtain ⟨hleft, hright, hsame⟩ := h p logic l r hkind
  exact ⟨fun hne => hsent _ (hleft hne), fun hne => hsent _ (hright hne), hsame⟩

/-- A node that stores nothing knows what it knew. -/
lemma knows_update_same (h : Knows sent s.node) {n : NodeState}
    (hl : n.leftDecision = (s.node p).leftDecision)
    (hr : n.rightDecision = (s.node p).rightDecision) :
    Knows sent (Function.update s.node p n) := by
  intro q logic l r hkind
  by_cases hq : q = p
  · subst hq
    rw [Function.update_self, hl, hr]
    exact h q logic l r hkind
  · rw [Function.update_of_ne hq]
    exact h q logic l r hkind

/-- A decision that a composite sent may be stored. -/
lemma knows_store (h : Knows sent s.node) (hkind : g.kind p = .binary logic l r)
    (hi : i = l ∨ i = r) (hd : (i, d) ∈ sent) {n : NodeState}
    (hl : n.leftDecision = if i = l then d else (s.node p).leftDecision)
    (hr : n.rightDecision = if i = l then (s.node p).rightDecision else d) :
    Knows sent (Function.update s.node p n) := by
  intro q logic' l' r' hkind'
  by_cases hq : q = p
  · subst hq
    obtain ⟨rfl, rfl, rfl⟩ := by simpa using hkind.symm.trans hkind'
    obtain ⟨hleft, hright, hsame⟩ := h q logic l r hkind
    rw [Function.update_self, hl, hr]
    by_cases hil : i = l
    · subst hil
      rw [if_pos rfl, if_pos rfl]
      exact ⟨fun _ => hd, hright, hsame⟩
    · obtain rfl := hi.resolve_left hil
      rw [if_neg hil, if_neg hil]
      exact ⟨hleft, fun _ => hd, fun hlr => absurd hlr.symm hil⟩
  · rw [Function.update_of_ne hq]
    exact h q logic' l' r' hkind'

/-! ## What a node decides -/

/-- The short circuit passes on a decision that settles the matter. -/
lemma shortCircuitLogic_settles (h : logic.shortCircuitLogic d ≠ .notStarted) :
    logic.shortCircuitLogic d = d ∧ logic.Settles d := by
  rw [shortCircuitLogic_eq] at h ⊢
  by_cases hsettles : logic.Settles d
  · exact ⟨if_pos hsettles, hsettles⟩
  · exact absurd (if_neg hsettles) h

/-- `GO` does not arrive for the second time at an `And` node that is in progress and has one node
as both composites. -/
def State.NotGoTwice (s : State g) (_ : Label) : Prop :=
  match s.agenda with
  | .decision (.node p) _ .go :: _ =>
    match g.kind p with
    | .binary .and l r =>
      l = r → (s.node p).runStatus = .inProgress → (s.node p).decisionsFromComposites ≠ 1
    | _ => True
  | _ => True

instance (s : State g) (b : Label) : Decidable (s.NotGoTwice b) := by
  unfold State.NotGoTwice
  generalize s.agenda = agenda
  rcases agenda with _ | ⟨⟨i, request⟩ | ⟨_ | p, i, _ | _ | _ | _⟩, rest⟩ <;>
    try exact .isTrue trivial
  dsimp only
  generalize g.kind p = kind
  rcases kind with _ | ⟨_ | _, l, r⟩ <;> infer_instance

/-- The full logic of a right decision that never arrived. -/
lemma fullDecisionLogic_notStarted (hd : d ≠ .notStarted) (hgo : ¬ (logic = .and ∧ d = .go)) :
    logic.fullDecisionLogic d .notStarted = logic.fullDecisionLogic d d := by
  revert hd hgo
  cases logic <;> cases d <;> decide

/-- When the second decision comes and it is not there yet, the other one is. -/
lemma arrived_other {x y : ControlFlowStatus} {n : ℕ} (hone : n = x.arrived + y.arrived)
    (hcount : n + 1 = 2) (hx : x = .notStarted) : y ≠ .notStarted := by
  intro hy
  rw [arrived_eq_zero.mpr hx, arrived_eq_zero.mpr hy] at hone
  omega

/-- **What a node decides follows from what its composites sent**, unless `GO` arrives twice. -/
lemma follows_of_decides {rest : List (Call (Fin g.size))} {calls : List (Call (Fin g.size))}
    {b : Label} (h : s.Informed a) (hdelivered : s.Delivered f) (honce : s.NotGoTwice b)
    (hagenda : s.agenda = .decision (.node p) i d :: rest)
    (hkind : g.kind p = .binary logic l r) (hstatus : (s.node p).runStatus = .inProgress)
    (hi : i = l ∨ i = r) (hd : (i, d) ∈ s.sent)
    (hdecides : Decides logic r ((s.node p).store (i = l) d) (i = l) d' calls) :
    Follows a s.sent p d' := by
  obtain ⟨hleft, hright, hsame⟩ := h.knows p logic l r hkind
  cases hdecides with
  | full hcount =>
    rw [store_decisionsFromComposites] at hcount
    rw [store_leftDecision, store_rightDecision]
    by_cases hlr : l = r
    · -- the same decision for the second time: the right one is not there
      subst hlr
      obtain rfl : i = l := hi.elim id id
      have hgo : ¬ (logic = .and ∧ d = .go) := by
        rintro ⟨rfl, rfl⟩
        unfold State.NotGoTwice at honce
        simp only [hagenda, hkind] at honce
        exact honce trivial hstatus (by omega)
      simp only [decide_true, if_true, hsame rfl]
      rw [fullDecisionLogic_notStarted (h.sent.ne_notStarted hd) hgo]
      exact .full hkind hd hd
    · -- one decision was there, and it is not the one that arrives now
      obtain ⟨-, -, hfirst⟩ := hdelivered.next hkind hlr hagenda
      have hone := hdelivered.count p logic l r hkind hlr
      rcases hfirst with ⟨rfl, hnot⟩ | ⟨rfl, hnot⟩
      · have hthere := arrived_other hone hcount hnot
        simp only [decide_true, if_true]
        exact .full hkind hd (hright hthere)
      · rw [Nat.add_comm] at hone
        have hthere := arrived_other hone hcount hnot
        simp only [decide_eq_true_eq, if_neg (Ne.symm hlr)]
        exact .full hkind (hleft hthere) hd
  | left hcount hfrom hshort =>
    obtain rfl : i = l := by simpa using hfrom
    rw [store_leftDecision, if_pos hfrom] at hshort ⊢
    obtain ⟨heq, hsettles⟩ := shortCircuitLogic_settles hshort
    rw [heq]
    exact .left hkind hsettles hd
  | right hcount hfrom hshort =>
    have hil : i ≠ l := by simpa using hfrom
    obtain rfl := hi.resolve_left hil
    rw [store_rightDecision, hfrom, if_neg Bool.false_ne_true] at hshort ⊢
    obtain ⟨heq, hsettles⟩ := shortCircuitLogic_settles hshort
    rw [heq]
    exact .right hkind hsettles hd

/-! ## Runs -/

lemma mem_deliveries_cons {q : Requestor (Fin g.size)} {rest : List (Call (Fin g.size))}
    (hagenda : s.agenda = .decision q i d :: rest) :
    (q, i, d) ∈ s.deliveries ∧ ∀ c, c ∈ rest.filterMap Call.delivery → c ∈ s.deliveries := by
  have hdeliveries : s.deliveries = (q, i, d) :: rest.filterMap Call.delivery := by
    rw [State.deliveries, hagenda]
    rfl
  rw [hdeliveries]
  exact ⟨List.mem_cons_self, fun c hc => List.mem_cons_of_mem _ hc⟩

lemma deliveries_request {σ : RequestState} {rest : List (Call (Fin g.size))}
    (hagenda : s.agenda = .request i σ :: rest) :
    s.deliveries = rest.filterMap Call.delivery := by
  rw [State.deliveries, hagenda]
  rfl

/-- One step keeps what is known, unless `GO` arrives twice. -/
lemma informed_step {b : Label} (hrecorded : s.Recorded) (hdelivered : s.Delivered f)
    (honce : s.NotGoTwice b) (hmoves : Moves a s s') (h : s.Informed a) : s'.Informed a := by
  -- the decision that is about to arrive was sent by a composite
  have hhead : ∀ {p i d rest logic l r}, s.agenda = .decision (.node p) i d :: rest →
      g.kind p = .binary logic l r → (i = l ∨ i = r) ∧ (i, d) ∈ s.sent := by
    intro p i d rest logic l r hagenda hkind
    have hmem := (mem_deliveries_cons hagenda).1
    exact ⟨mem_requestors_node hkind (hdelivered.mem _ _ _ hmem).2, h.deliveries _ _ _ hmem⟩
  have hrest : ∀ {q i d rest}, s.agenda = .decision q i d :: rest →
      ∀ q' j d', (q', j, d') ∈ rest.filterMap Call.delivery → (j, d') ∈ s.sent :=
    fun hagenda q' j d' hmem => h.deliveries q' j d' ((mem_deliveries_cons hagenda).2 _ hmem)
  have hold : ∀ {j dj}, ∀ c ∈ s.sent, c ∈ s.sent ++ [(j, dj)] :=
    fun c hc => List.mem_append_left _ hc
  have hsending : ∀ {j dj q' k d'}, (q', k, d') ∈ (g.requestors j).map (·, j, dj) →
      (k, d') ∈ s.sent ++ [(j, dj)] := by
    intro j dj q' k d' hmem
    obtain ⟨q, -, heq⟩ := List.mem_map.mp hmem
    obtain ⟨-, rfl, rfl⟩ := by simpa using heq
    exact List.mem_append_right _ (List.mem_singleton_self _)
  cases hmoves with
  | ignored hagenda =>
    refine ⟨h.sent, fun q j d hmem => h.deliveries q j d ?_, h.knows⟩
    rw [deliveries_request hagenda]
    exact hmem
  | counted hagenda | madeLeaf hagenda =>
    refine ⟨h.sent, fun q j d hmem => h.deliveries q j d ?_, knows_update_same h.knows rfl rfl⟩
    rw [deliveries_request hagenda]
    exact hmem
  | @madeBinary i σ rest logic l r hagenda =>
    refine ⟨h.sent, fun q j d hmem => h.deliveries q j d ?_, knows_update_same h.knows rfl rfl⟩
    rw [deliveries_request hagenda]
    cases σ <;> exact hmem
  | finished hagenda => exact ⟨h.sent, hrest hagenda, h.knows⟩
  | stray hagenda => exact ⟨h.sent, hrest hagenda, h.knows⟩
  | stored hagenda hkind =>
    obtain ⟨hi, hd⟩ := hhead hagenda hkind
    exact ⟨h.sent, hrest hagenda, knows_store h.knows hkind hi hd (by simp) (by simp)⟩
  | asked hagenda hkind =>
    obtain ⟨hi, hd⟩ := hhead hagenda hkind
    exact ⟨h.sent, fun q j d' hmem => hrest hagenda q j d' hmem,
      knows_store h.knows hkind hi hd (by simp) (by simp)⟩
  | @decided p i d rest logic l r d' calls hagenda hkind hstatus hdecides =>
    obtain ⟨hi, hd⟩ := hhead hagenda hkind
    have hfollows := follows_of_decides h hdelivered honce hagenda hkind hstatus hi hd hdecides
    refine ⟨h.sent.concat hfollows, fun q j dj hmem => ?_,
      knows_store (knows_mono h.knows hold) hkind hi (hold _ hd) (by simp) (by simp)⟩
    simp only [State.deliveries, List.filterMap_append, filterMap_decisions,
      hdecides.filterMap_calls, List.append_nil, List.mem_append] at hmem
    rcases hmem with hnew | hmem
    · exact hsending hnew
    · exact hold _ (hrest hagenda q j dj hmem)
  | @ran k i hagenda htask =>
    have hleaf : g.kind i = .leaf := by
      have hshould := hrecorded.status_of_mem_tasks (List.mem_of_getElem? htask)
      cases hkind : g.kind i with
      | leaf => rfl
      | binary logic l r => exact absurd hshould (hrecorded.binary i logic l r hkind).1
    refine ⟨h.sent.concat (.leaf hleaf), fun q j dj hmem => ?_,
      knows_update_same (knows_mono h.knows hold) rfl rfl⟩
    simp only [State.deliveries, filterMap_decisions] at hmem
    exact hsending hmem

/-- At the start nothing was sent and no node knows anything. -/
lemma State.Ready.informed (h : s.Ready) : (startAsync s).Informed a := by
  refine ⟨fun i d hmem => ?_, fun q i d hmem => ?_, fun p logic l r hkind => ?_⟩
  · rw [show (startAsync s).sent = _ from h.sent] at hmem
    cases hmem
  · simp [State.deliveries, startAsync, List.filterMap_map, Function.comp_def, Call.delivery] at hmem
  · have hp := h.arrivals p logic l r hkind
    simp only [State.arrivals, Prod.mk.injEq] at hp
    exact ⟨fun hne => absurd hp.2.1 hne, fun hne => absurd hp.2.2 hne, fun _ => hp.2.2⟩

/-- **Every decision follows from others that were sent**, if `GO` does not arrive twice. -/
theorem informed (h : s.Ready) (hrun : RunsTo (step a) State.NotGoTwice (startAsync s) s') :
    s'.Informed a := by
  refine hrun.invariant_of (J := fun t => t.Recorded ∧ t.Delivered s.finishedLeafNodes)
    (fun hrun => ⟨recorded h hrun, delivered h hrun⟩) h.informed ?_
  intro t b u hJ ht honce hstep
  exact informed_step hJ.1 hJ.2 honce (moves hstep) ht

/-- The composites of every node are distinct: nothing arrives twice. -/
lemma notGoTwice_of_distinct (hg : g.Distinct) (s : State g) (b : Label) : s.NotGoTwice b := by
  unfold State.NotGoTwice
  split
  · split
    next hkind => exact fun hlr => absurd hlr (hg.left_ne_right hkind)
    next => trivial
  · trivial

/-! ## Two orders -/

/-- **Two orders agree** on every decision that both send, or one of the two decisions is the
`EXCEPTION` of a leaf and there is a race below the node: in one order a node sent the `EXCEPTION`
of one composite, in the other what the other composite settled. -/
theorem decisions_agree (g : DecisionGraph) (hg : g.Distinct) (a : Assignment g) (s s' : State g)
    (hrun : Reaches (step a) (startAsync {}) s) (hrun' : Reaches (step a) (startAsync {}) s')
    (i : Fin g.size) (d d' : ControlFlowStatus) (hd : (i, d) ∈ s.sent) (hd' : (i, d') ∈ s'.sent) :
    d = d' ∨
      (d = .exception ∨ d' = .exception) ∧
        (∃ j, g.Below i j ∧ (Race s.sent s'.sent j ∨ Race s'.sent s.sent j)) ∧
        ∃ k, g.Below i k ∧ g.kind k = .leaf ∧ a.status k = .exception := by
  have honce : ∀ {t}, Reaches (step a) (startAsync {}) t →
      RunsTo (step a) State.NotGoTwice (startAsync {}) t :=
    fun ht => ht.mono fun t b _ => notGoTwice_of_distinct hg t b
  have hgrounded := (informed ready_default (honce hrun)).sent
  have hgrounded' := (informed ready_default (honce hrun')).sent
  rcases hgrounded.agree_or_race hgrounded' hd hd' with heq | hrace
  · exact .inl heq
  by_cases hexc : d = .exception
  · exact .inr ⟨.inl hexc, hrace, hgrounded.exists_exception hd hexc⟩
  by_cases hexc' : d' = .exception
  · exact .inr ⟨.inr hexc', hrace, hgrounded'.exists_exception hd' hexc'⟩
  · -- two decisions that are no `EXCEPTION` are both the value of the formula
    left
    rw [hgrounded.eq_formula hd hexc, hgrounded'.eq_formula hd' hexc']

/-- The leaf `a` decides for `SKIP`, the leaf `b` has an `EXCEPTION`. -/
def raceStatus : Assignment raceGraph where
  status := ![.skip, .exception, .go]
  status_ne := show ∀ i : Fin 3, _ by decide

/-- Both leaves have their tasks; that of `a` runs first. -/
def leftFirst : List Label :=
  [.call, .call, .call, .task 0, .call]

/-- That of `b` runs first. -/
def rightFirst : List Label :=
  [.call, .call, .call, .task 1, .call]

theorem decisions_agree_race : ∃ s s' : State raceGraph,
    (⟨2, by decide⟩, .skip) ∈ s.sent ∧ (⟨2, by decide⟩, .exception) ∈ s'.sent ∧
      ∃ j, raceGraph.Below ⟨2, by decide⟩ j ∧ (Race s.sent s'.sent j ∨ Race s'.sent s.sent j) := by
  have hleft : ∃ s, executeAll (step raceStatus) (startAsync {}) leftFirst = some s ∧
      (⟨2, by decide⟩, .skip) ∈ s.sent := ⟨_, rfl, by decide⟩
  have hright : ∃ s, executeAll (step raceStatus) (startAsync {}) rightFirst = some s ∧
      (⟨2, by decide⟩, .exception) ∈ s.sent := ⟨_, rfl, by decide⟩
  obtain ⟨s, hs, hskip⟩ := hleft
  obtain ⟨s', hs', hexception⟩ := hright
  refine ⟨s, s', hskip, hexception, ?_⟩
  have hagree := decisions_agree raceGraph (by decide) raceStatus s s' (.of_executeAll _ hs)
    (.of_executeAll _ hs') _ _ _ hskip hexception
  exact (hagree.resolve_left (by decide)).2.1

/-- **The order can decide.** `P` sends `SKIP` or `EXCEPTION`, whichever arrives first. -/
theorem decisions_depend_on_order :
    ¬ ∀ (g : DecisionGraph) (a : Assignment g) (s s' : State g), g.Distinct →
      Reaches (step a) (startAsync {}) s → Reaches (step a) (startAsync {}) s' →
      ∀ i d d', (i, d) ∈ s.sent → (i, d') ∈ s'.sent → d = d' := by
  have hleft : ∃ s, executeAll (step raceStatus) (startAsync {}) leftFirst = some s ∧
      (⟨2, by decide⟩, .skip) ∈ s.sent := ⟨_, rfl, by decide⟩
  have hright : ∃ s, executeAll (step raceStatus) (startAsync {}) rightFirst = some s ∧
      (⟨2, by decide⟩, .exception) ∈ s.sent := ⟨_, rfl, by decide⟩
  obtain ⟨s, hs, hskip⟩ := hleft
  obtain ⟨s', hs', hexception⟩ := hright
  intro hall
  have heq := hall raceGraph raceStatus s s' (by decide) (.of_executeAll _ hs)
    (.of_executeAll _ hs') _ _ _ hskip hexception
  exact absurd heq (by decide)

/-! ## Boolean soundness -/

/-- Every decision that was sent is `GO` if the formula under its node is true, and `SKIP` if it is
not. -/
def State.BooleanSound (a : Assignment g) (s : State g) : Prop :=
  ∀ i d, (i, d) ∈ s.sent → d = if formula a i then .go else .skip

/-- If no leaf fails, what is sent is the value of the formula. -/
lemma booleanSound_of_informed (ha : ∀ i, g.kind i = .leaf → a.status i ≠ .exception)
    (h : s.Informed a) : s.BooleanSound a := by
  intro i d hmem
  refine h.sent.eq_formula hmem fun hexc => ?_
  obtain ⟨k, -, hleaf, hk⟩ := h.sent.exists_exception hmem hexc
  exact ha k hleaf hk

/-- `GO` that arrives twice makes the node send `SKIP`. -/
lemma sent_skip_of_goTwice {b : Label} (hinformed : s.Informed a) (hdelivered : s.Delivered f)
    (hstep : step a s b = some s') (h : ¬ s.NotGoTwice b) :
    ∃ p x rest, s.agenda = .decision (.node p) x .go :: rest ∧ g.kind p = .binary .and x x ∧
      (p, .skip) ∈ s'.sent := by
  unfold State.NotGoTwice at h
  split at h
  next p x rest hagenda =>
    split at h
    next l r hkind =>
      obtain ⟨rfl, hstatus, hcount⟩ : l = r ∧ (s.node p).runStatus = .inProgress ∧
          (s.node p).decisionsFromComposites = 1 := by simpa using h
      have hmem := (hdelivered.mem _ _ _ (mem_deliveries_cons hagenda).1).2
      obtain rfl : x = l := (mem_requestors_node hkind hmem).elim id id
      have hnone := (hinformed.knows p .and x x hkind).2.2 rfl
      refine ⟨p, x, rest, hagenda, hkind, ?_⟩
      cases b with
      | call =>
        simp only [step, hagenda, Call.run, decisionFromNodeAsync, hkind, decide_true,
          store_runStatus, hstatus, store_decisionsFromComposites, hcount, if_true,
          store_leftDecision, store_rightDecision, hnone, sendDecisionToRequestorsAsync,
          State.setNode, Option.some.injEq] at hstep
        rw [← hstep]
        simp [Logic.fullDecisionLogic]
      | task k => simp [step, hagenda] at hstep
    next => exact absurd trivial h
  next => exact absurd trivial h

/-- **Shared graphs are Boolean formulas** as long as `GO` does not arrive twice at an `And` node
that has one node as both composites; where it does, the next decision is wrong. -/
theorem boolean_sound (g : DecisionGraph) (a : Assignment g)
    (ha : ∀ i, g.kind i = .leaf → a.status i ≠ .exception) (s : State g)
    (hrun : RunsTo (step a) State.NotGoTwice (startAsync {}) s) :
    s.BooleanSound a ∧
      ∀ b s', step a s b = some s' → (s'.BooleanSound a ↔ s.NotGoTwice b) := by
  have hinformed := informed ready_default hrun
  have hdelivered := delivered ready_default hrun
  refine ⟨booleanSound_of_informed ha hinformed, fun b s' hstep => ⟨fun hsound => ?_, fun honce => ?_⟩⟩
  · by_contra htwice
    obtain ⟨p, x, rest, hagenda, hkind, hskip⟩ :=
      sent_skip_of_goTwice hinformed hdelivered hstep htwice
    have hgo := hinformed.deliveries _ _ _ (mem_deliveries_cons hagenda).1
    have htrue : formula a x = true := by
      have hvalue := hinformed.sent.eq_formula hgo (by decide)
      by_contra hfalse
      rw [Bool.not_eq_true] at hfalse
      rw [hfalse] at hvalue
      cases hvalue
    have hwrong := hsound p .skip hskip
    rw [formula_and hkind, htrue] at hwrong
    cases hwrong
  · exact booleanSound_of_informed ha (informed ready_default (hrun.tail honce hstep))

/-- `P = And(x, x)` over the leaf `x`, `Q = Or(x, P)` and `R = Or(Q, P)`; `R` is the root. The nodes
are `x`, `P`, `Q`, `R` in this order. -/
def spareGraph : DecisionGraph where
  size := 4
  kind := ![.leaf, .binary .and 0 0, .binary .or 0 1, .binary .or 2 1]
  leafNodes := [3]
  requestors := ![[.node 1, .node 1, .node 2], [.node 2, .node 3], [.node 3], [.start]]
  ordered := by decide
  count_start := by decide
  count_node := by decide

/-- The leaf is asked by `Q`, decides, and its decision arrives at `P`, which nobody has asked. -/
def spared : List Label :=
  [.call, .call, .call, .task 0, .call]

/-- `GO` arrives at `P` for the second time. It still waits to be asked and sends nothing. -/
theorem boolean_sound_spared : ∃ s s' : State spareGraph,
    step (.const spareGraph .go (by decide)) s .call = some s' ∧
      (s'.node ⟨1, by decide⟩).decisionsFromComposites = 2 ∧
      s.BooleanSound (.const spareGraph .go (by decide)) ∧
      s'.BooleanSound (.const spareGraph .go (by decide)) := by
  have hrun : ∃ s, execute (step (.const spareGraph .go (by decide)))
      (fun s b => decide (s.NotGoTwice b)) (startAsync {}) spared = some s ∧
        s.NotGoTwice .call ∧ ∃ s', step (.const spareGraph .go (by decide)) s .call = some s' ∧
          (s'.node ⟨1, by decide⟩).decisionsFromComposites = 2 :=
    ⟨_, rfl, by decide, _, rfl, by decide⟩
  obtain ⟨s, hs, honce, s', hstep, hcount⟩ := hrun
  have hsound := boolean_sound spareGraph (.const spareGraph .go (by decide))
    (fun i _ => ControlFlowStatus.noConfusion) s
    (.of_execute _ (fun _ _ h => of_decide_eq_true h) hs)
  exact ⟨s, s', hstep, hcount, hsound.1, (hsound.2 .call s' hstep).mpr honce⟩

/-- `P = And(x, x)` over the leaf `x`; `P` is the root. The nodes are `x`, `P` in this order. -/
def sameGraph : DecisionGraph where
  size := 2
  kind := ![.leaf, .binary .and 0 0]
  leafNodes := [1]
  requestors := ![[.node 1, .node 1], [.start]]
  ordered := by decide
  count_start := by decide
  count_node := by decide

/-- The leaf is asked by `P`, decides, and its decision arrives at `P` twice. -/
def twice : List Label :=
  [.call, .call, .task 0, .call, .call, .call]

/-- **`And(x, x)` of a `GO` is `SKIP`.** -/
theorem boolean_unsound :
    ¬ ∀ (g : DecisionGraph) (a : Assignment g) (s : State g),
      (∀ i, g.kind i = .leaf → a.status i ≠ .exception) →
      Reaches (step a) (startAsync {}) s → s.BooleanSound a := by
  have hrun : ∃ s, executeAll (step (.const sameGraph .go (by decide))) (startAsync {}) twice
      = some s ∧ (⟨1, by decide⟩, .skip) ∈ s.sent := ⟨_, rfl, by decide⟩
  obtain ⟨s, hs, hskip⟩ := hrun
  intro hall
  have hsound := hall sameGraph _ s (fun i _ => ControlFlowStatus.noConfusion)
    (.of_executeAll _ hs) _ _ hskip
  have htrue : formula (.const sameGraph .go (by decide)) ⟨1, by decide⟩ = true := by
    rw [formula_and (l := ⟨0, by decide⟩) (r := ⟨0, by decide⟩) rfl, formula_leaf rfl]
    rfl
  rw [htrue] at hsound
  cases hsound

end UnifyPrototype.ControlFlow
