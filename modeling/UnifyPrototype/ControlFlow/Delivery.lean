import UnifyPrototype.ControlFlow.Records

/-!
# Every decision that is sent arrives once

A decision is on its way until the requestor's `decisionFromNodeAsync` is called; what has arrived
and what is on its way add up to what was sent.
-/

namespace UnifyPrototype.ControlFlow

open UnifyPrototype.Utils

variable {g : DecisionGraph} {a : Assignment g} {s s' t : State g}

/-! ## Decisions on their way -/

/-- A decision on its way: to whom, from which node, and what it says. -/
def Call.delivery {N : Type} : Call N → Option (Requestor N × N × ControlFlowStatus)
  | .request _ _ => none
  | .decision requestor i d => some (requestor, i, d)

/-- The decisions that are on their way. -/
def State.deliveries (s : State g) :
    List (Requestor (Fin g.size) × Fin g.size × ControlFlowStatus) :=
  s.agenda.filterMap Call.delivery

/-- What node `p` knows of its composites. -/
def State.arrivals (s : State g) (p : Fin g.size) : ℕ × ControlFlowStatus × ControlFlowStatus :=
  ((s.node p).decisionsFromComposites, (s.node p).leftDecision, (s.node p).rightDecision)

/-- A step takes one decision at most from its way to where it goes. -/
inductive Arrival (s t : State g) : Prop
  | none (harrivals : t.arrivals = s.arrivals) (hdeliveries : t.deliveries = s.deliveries)
      (hfinished : t.finishedLeafNodes = s.finishedLeafNodes) (hstatus : t.status = s.status)
  | start (i : Fin g.size) (d : ControlFlowStatus) (harrivals : t.arrivals = s.arrivals)
      (hdeliveries : s.deliveries = (.start, i, d) :: t.deliveries)
      (hfinished : t.finishedLeafNodes = s.finishedLeafNodes + 1) (hstatus : t.status = s.status)
  | stray (p i : Fin g.size) (d : ControlFlowStatus) (hkind : g.kind p = .leaf)
      (harrivals : t.arrivals = s.arrivals)
      (hdeliveries : s.deliveries = (.node p, i, d) :: t.deliveries)
      (hfinished : t.finishedLeafNodes = s.finishedLeafNodes) (hstatus : t.status = s.status)
  | node (p i : Fin g.size) (d : ControlFlowStatus) (logic : Logic) (l r : Fin g.size)
      (hkind : g.kind p = .binary logic l r)
      (harrivals : t.arrivals = Function.update s.arrivals p
        ((s.node p).decisionsFromComposites + 1,
          if i = l then d else (s.node p).leftDecision,
          if i = l then (s.node p).rightDecision else d))
      (hdeliveries : s.deliveries = (.node p, i, d) :: t.deliveries)
      (hfinished : t.finishedLeafNodes = s.finishedLeafNodes) (hstatus : t.status = s.status)

/-- After that it sends one decision at most. -/
inductive Sending (t s' : State g) : Prop
  | none (harrivals : s'.arrivals = t.arrivals) (hdeliveries : s'.deliveries = t.deliveries)
      (hfinished : s'.finishedLeafNodes = t.finishedLeafNodes)
      (hstatus : ∀ j, s'.status j = .completed ↔ t.status j = .completed)
  | sent (i : Fin g.size) (d : ControlFlowStatus) (hd : d ≠ .notStarted)
      (hbefore : t.status i ≠ .completed) (harrivals : s'.arrivals = t.arrivals)
      (hdeliveries : s'.deliveries = (g.requestors i).map (·, i, d) ++ t.deliveries)
      (hfinished : s'.finishedLeafNodes = t.finishedLeafNodes)
      (hstatus : s'.status = Function.update t.status i .completed)

lemma arrivals_update (s : State g) (p : Fin g.size) (n : NodeState) :
    (fun j => ((Function.update s.node p n j).decisionsFromComposites,
      (Function.update s.node p n j).leftDecision, (Function.update s.node p n j).rightDecision))
      = Function.update s.arrivals p (n.decisionsFromComposites, n.leftDecision, n.rightDecision) := by
  funext j
  by_cases hj : j = p
  · subst hj
    simp
  · simp [Function.update_of_ne hj, State.arrivals]

lemma arrivals_update_same (s : State g) (p : Fin g.size) (n : NodeState)
    (h : (n.decisionsFromComposites, n.leftDecision, n.rightDecision) = s.arrivals p) :
    (fun j => ((Function.update s.node p n j).decisionsFromComposites,
      (Function.update s.node p n j).leftDecision, (Function.update s.node p n j).rightDecision))
      = s.arrivals := by
  rw [arrivals_update, h]
  exact Function.update_eq_self p s.arrivals

/-- The full logic always comes to a decision. -/
lemma fullDecisionLogic_ne (logic : Logic) (left right : ControlFlowStatus) :
    logic.fullDecisionLogic left right ≠ .notStarted := by
  cases logic <;> cases left <;> cases right <;> decide

/-- What a binary node sends is a decision. -/
lemma Decides.ne_notStarted {logic : Logic} {r : Fin g.size} {n : NodeState} {fromLeft : Bool}
    {d : ControlFlowStatus} {calls : List (Call (Fin g.size))}
    (h : Decides logic r n fromLeft d calls) : d ≠ .notStarted := by
  cases h with
  | full => exact fullDecisionLogic_ne _ _ _
  | left _ _ hshort => exact hshort
  | right _ _ hshort => exact hshort

/-- The calls that follow deliver nothing. -/
lemma Decides.filterMap_calls {logic : Logic} {r : Fin g.size} {n : NodeState} {fromLeft : Bool}
    {d : ControlFlowStatus} {calls : List (Call (Fin g.size))}
    (h : Decides logic r n fromLeft d calls) : calls.filterMap Call.delivery = [] := by
  cases h <;> rfl

/-- A node sends its decision to each of its requestors. -/
lemma filterMap_decisions (i : Fin g.size) (d : ControlFlowStatus) :
    ((g.requestors i).map (Call.decision · i d)).filterMap Call.delivery
      = (g.requestors i).map (·, i, d) := by
  rw [List.filterMap_map, ← List.filterMap_eq_map]
  rfl

lemma Arrival.refl : Arrival s s :=
  .none rfl rfl rfl rfl

lemma Sending.refl : Sending s s :=
  .none rfl rfl rfl fun _ => Iff.rfl

/-- **Inversion for decisions.** A step is an arrival, or a sending, or one after the other. -/
lemma delivery (hs : s.Recorded) (h : Moves a s s') : ∃ t, Arrival s t ∧ Sending t s' := by
  cases h with
  | ignored hagenda =>
    refine ⟨s, .refl, .none rfl ?_ rfl fun _ => Iff.rfl⟩
    rw [State.deliveries, State.deliveries, hagenda]
    rfl
  | @counted i rest hagenda =>
    refine ⟨s, .refl, .none (arrivals_update_same s _ _ rfl) ?_ rfl fun j => ?_⟩
    · rw [State.deliveries, State.deliveries, hagenda]
      rfl
    · exact iff_of_eq (congrArg (· = RunStatus.completed)
        (congrFun (status_update_same s.node i
          { s.node i with willNotRunRequests := (s.node i).willNotRunRequests + 1 } rfl) j))
  | @madeLeaf i σ rest hagenda hstatus hkind =>
    refine ⟨s, .refl, .none (arrivals_update_same s _ _ rfl) ?_ rfl ?_⟩
    · rw [State.deliveries, State.deliveries, hagenda]
      rfl
    · refine completed_iff_of_started (i := i) hstatus (x := σ.runStatus) ?_ (status_update _ _ _)
      cases σ <;> decide
  | @madeBinary i σ rest logic l r hagenda hstatus hkind =>
    refine ⟨s, .refl, .none (arrivals_update_same s _ _ rfl) ?_ rfl ?_⟩
    · rw [State.deliveries, State.deliveries, hagenda]
      cases σ <;> rfl
    · exact completed_iff_of_started (i := i) hstatus (x := .inProgress) (by decide)
        (status_update _ _ _)
  | @finished i d rest hagenda =>
    refine ⟨_, ?_, .refl⟩
    refine .start i d rfl ?_ rfl rfl
    rw [State.deliveries, hagenda]
    rfl
  | @stray p i d rest hagenda hkind =>
    refine ⟨_, ?_, .refl⟩
    refine .stray p i d hkind rfl ?_ rfl rfl
    rw [State.deliveries, hagenda]
    rfl
  | @stored p i d rest logic l r hagenda hkind =>
    refine ⟨_, ?_, .refl⟩
    refine .node p i d _ _ _ hkind ?_ ?_ rfl (status_update_same s.node _ _ (by simp))
    · refine (arrivals_update s _ _).trans ?_
      simp
    · rw [State.deliveries, hagenda]
      rfl
  | @asked p d rest logic l r hagenda hkind =>
    refine ⟨_, ?_, .refl⟩
    refine .node p l d _ _ _ hkind ?_ ?_ rfl (status_update_same s.node _ _ (by simp))
    · refine (arrivals_update s _ _).trans ?_
      simp
    · rw [State.deliveries, hagenda]
      rfl
  | @decided p i d rest logic l r d' calls hagenda hkind hstatus hdecides =>
    -- the decision is stored first, then the node sends its own
    refine ⟨{ s with
        agenda := rest
        node := Function.update s.node p ((s.node p).store (i = l) d) },
      .node p i d logic l r hkind ?_ ?_ rfl (status_update_same s.node _ _ (by simp)),
      .sent p d' hdecides.ne_notStarted ?_ ?_ ?_ rfl ?_⟩
    · refine (arrivals_update s _ _).trans ?_
      simp
    · rw [State.deliveries, hagenda]
      rfl
    · simp [State.status, hstatus]
    · refine (arrivals_update s _ _).trans (Eq.symm ((arrivals_update s _ _).trans ?_))
      simp
    · simp only [State.deliveries, List.filterMap_append, hdecides.filterMap_calls,
        filterMap_decisions, List.append_nil]
    · refine (status_update _ _ _).trans (congrArg (Function.update · p _) ?_)
      exact (status_update_same s.node p _ (by simp)).symm
  | @ran k i hagenda htask =>
    refine ⟨s, .refl, .sent i (a.status i) (a.status_ne i) ?_ ?_ ?_ rfl (status_update _ _ _)⟩
    · rw [hs.status_of_mem_tasks (List.mem_of_getElem? htask)]
      decide
    · exact arrivals_update_same s _ _ rfl
    · simp only [State.deliveries, filterMap_decisions, hagenda, List.filterMap_nil,
        List.append_nil]

/-! ## What has arrived and what is on its way -/

/-- The number of decisions of node `i` that are on their way to `requestor`. -/
def State.underway (s : State g) (requestor : Requestor (Fin g.size)) (i : Fin g.size) : ℕ :=
  tally (fun c => if c.1 = requestor ∧ c.2.1 = i then 1 else 0) s.deliveries

/-- One if the decision was set. -/
def ControlFlowStatus.arrived (d : ControlFlowStatus) : ℕ :=
  if d = .notStarted then 0 else 1

/-- One if the node has decided. -/
def State.decided (s : State g) (i : Fin g.size) : ℕ :=
  if s.status i = .completed then 1 else 0

/-- A decision that a node has sent is on its way to a parent or has arrived there, and is counted
there, if the composites of the parent are two nodes; `finished` is the value of `finishedLeafNodes`
before the transition. -/
structure State.Delivered (finished : ℕ) (s : State g) : Prop where
  mem : ∀ requestor i d, (requestor, i, d) ∈ s.deliveries →
    d ≠ .notStarted ∧ requestor ∈ g.requestors i
  left : ∀ p logic l r, g.kind p = .binary logic l r → l ≠ r →
    (s.node p).leftDecision.arrived + s.underway (.node p) l = s.decided l
  right : ∀ p logic l r, g.kind p = .binary logic l r → l ≠ r →
    (s.node p).rightDecision.arrived + s.underway (.node p) r = s.decided r
  count : ∀ p logic l r, g.kind p = .binary logic l r → l ≠ r →
    (s.node p).decisionsFromComposites
      = (s.node p).leftDecision.arrived + (s.node p).rightDecision.arrived
  finished : s.finishedLeafNodes + tally (fun c => if c.1 = .start then 1 else 0) s.deliveries
    = finished + tally (fun i => s.decided i * g.leafNodes.count i) (List.finRange g.size)

/-- The three members, one by one. -/
lemma arrivals_eq {p : Fin g.size} (h : t.arrivals p = s.arrivals p) :
    (t.node p).decisionsFromComposites = (s.node p).decisionsFromComposites ∧
      (t.node p).leftDecision = (s.node p).leftDecision ∧
      (t.node p).rightDecision = (s.node p).rightDecision := by
  simpa only [State.arrivals, Prod.mk.injEq] using h

/-- Who gets the decisions of `i`: a parent, or the `StartDecisionGraph`. -/
lemma mem_requestors_node {p i : Fin g.size} {logic : Logic} {l r : Fin g.size}
    (hkind : g.kind p = .binary logic l r) (h : .node p ∈ g.requestors i) : i = l ∨ i = r := by
  have hmem := DecisionGraph.mem_composites_of_requestor h
  simpa [hkind, Kind.composites] using hmem

/-- The decision of a node goes once to each parent. -/
lemma tally_requestors (q : Requestor (Fin g.size)) (i j : Fin g.size) (d : ControlFlowStatus) :
    tally (fun c => if c.1 = q ∧ c.2.1 = i then 1 else 0) ((g.requestors j).map (·, j, d))
      = if j = i then (g.requestors i).count q else 0 := by
  rw [tally_map]
  by_cases hj : j = i
  · subst hj
    rw [if_pos rfl]
    induction g.requestors j with
    | nil => rfl
    | cons c l ih =>
      rw [tally_cons, ih, List.count_cons, Nat.add_comm]
      simp
  · simp [hj]

/-- Composites that are two nodes have their parent as a requestor once. -/
lemma count_left {p : Fin g.size} {logic : Logic} {l r : Fin g.size}
    (hkind : g.kind p = .binary logic l r) (hne : l ≠ r) :
    (g.requestors l).count (.node p) = 1 ∧ (g.requestors r).count (.node p) = 1 := by
  simp [g.count_node, hkind, Kind.composites, hne, hne.symm]

@[simp] lemma arrived_eq_zero {d : ControlFlowStatus} : d.arrived = 0 ↔ d = .notStarted := by
  cases d <;> decide

lemma arrived_of_ne {d : ControlFlowStatus} (h : d ≠ .notStarted) : d.arrived = 1 :=
  if_neg h

lemma underway_eq (h : t.deliveries = s.deliveries) : t.underway = s.underway := by
  funext q i
  rw [State.underway, State.underway, h]

/-- One delivery less is under way when its call is made. -/
lemma underway_cons {q : Requestor (Fin g.size)} {i : Fin g.size} {d : ControlFlowStatus}
    (h : s.deliveries = (q, i, d) :: t.deliveries) (q' : Requestor (Fin g.size)) (j : Fin g.size) :
    s.underway q' j = t.underway q' j + if q = q' ∧ i = j then 1 else 0 := by
  rw [State.underway, h, tally_cons, Nat.add_comm]
  rfl

lemma decided_eq (h : t.status = s.status) : t.decided = s.decided := by
  funext i
  rw [State.decided, State.decided, h]

lemma decided_le (s : State g) (i : Fin g.size) : s.decided i ≤ 1 := by
  unfold State.decided
  split <;> omega

/-- What is known when a decision is about to arrive: the node that sent it is done, and it is the
first one that arrives from there. -/
lemma State.Delivered.head {f : ℕ} (h : s.Delivered f) {p i : Fin g.size} {d : ControlFlowStatus}
    {logic : Logic} {l r : Fin g.size} (hkind : g.kind p = .binary logic l r) (hne : l ≠ r)
    (hdeliveries : s.deliveries = (.node p, i, d) :: t.deliveries) :
    d ≠ .notStarted ∧ s.decided i = 1 ∧ t.underway (.node p) i = 0 ∧
      (i = l ∧ (s.node p).leftDecision = .notStarted ∨
        i = r ∧ (s.node p).rightDecision = .notStarted) := by
  obtain ⟨hd, hmem⟩ := h.mem (.node p) i d (hdeliveries ▸ List.mem_cons_self)
  have hle := decided_le s i
  have hunderway := underway_cons hdeliveries (.node p) i
  rw [if_pos ⟨rfl, rfl⟩] at hunderway
  rcases mem_requestors_node hkind hmem with rfl | rfl
  · have hleft := h.left p logic i r hkind hne
    exact ⟨hd, by omega, by omega, .inl ⟨rfl, arrived_eq_zero.mp (by omega)⟩⟩
  · have hright := h.right p logic l i hkind hne
    exact ⟨hd, by omega, by omega, .inr ⟨rfl, arrived_eq_zero.mp (by omega)⟩⟩

/-- Where a decision arrives, one less is under way and one more is counted. -/
lemma delivered_arrival (harrival : Arrival s t) {f : ℕ} (h : s.Delivered f) : t.Delivered f := by
  cases harrival with
  | none harrivals hdeliveries hfinished hstatus =>
    refine ⟨?_, ?_, ?_, ?_, ?_⟩
    · rw [hdeliveries]
      exact h.mem
    · intro p logic l r hkind hne
      rw [(arrivals_eq (congrFun harrivals p)).2.1, underway_eq hdeliveries, decided_eq hstatus]
      exact h.left p logic l r hkind hne
    · intro p logic l r hkind hne
      rw [(arrivals_eq (congrFun harrivals p)).2.2, underway_eq hdeliveries, decided_eq hstatus]
      exact h.right p logic l r hkind hne
    · intro p logic l r hkind hne
      rw [(arrivals_eq (congrFun harrivals p)).1, (arrivals_eq (congrFun harrivals p)).2.1,
        (arrivals_eq (congrFun harrivals p)).2.2]
      exact h.count p logic l r hkind hne
    · rw [hfinished, hdeliveries, decided_eq hstatus]
      exact h.finished
  | start i d harrivals hdeliveries hfinished hstatus =>
    refine ⟨?_, ?_, ?_, ?_, ?_⟩
    · exact fun q j d' hmem => h.mem q j d' (hdeliveries ▸ List.mem_cons_of_mem _ hmem)
    · intro p logic l r hkind hne
      have hleft := h.left p logic l r hkind hne
      rw [underway_cons hdeliveries, if_neg (by simp)] at hleft
      rw [(arrivals_eq (congrFun harrivals p)).2.1, decided_eq hstatus]
      exact hleft
    · intro p logic l r hkind hne
      have hright := h.right p logic l r hkind hne
      rw [underway_cons hdeliveries, if_neg (by simp)] at hright
      rw [(arrivals_eq (congrFun harrivals p)).2.2, decided_eq hstatus]
      exact hright
    · intro p logic l r hkind hne
      rw [(arrivals_eq (congrFun harrivals p)).1, (arrivals_eq (congrFun harrivals p)).2.1,
        (arrivals_eq (congrFun harrivals p)).2.2]
      exact h.count p logic l r hkind hne
    · have hcount := h.finished
      rw [hdeliveries, tally_cons, if_pos rfl] at hcount
      rw [hfinished, decided_eq hstatus]
      omega
  | stray p i d hkind _ hdeliveries =>
    -- nobody sends a decision to a leaf
    have hmem := (h.mem (.node p) i d (hdeliveries ▸ List.mem_cons_self)).2
    have hcomposite := DecisionGraph.mem_composites_of_requestor hmem
    rw [hkind] at hcomposite
    cases hcomposite
  | node p i d logic l r hkind harrivals hdeliveries hfinished hstatus =>
    have hself := congrFun harrivals p
    rw [Function.update_self] at hself
    simp only [State.arrivals, Prod.mk.injEq] at hself
    have hother : ∀ q, q ≠ p → t.arrivals q = s.arrivals q := fun q hq => by
      rw [harrivals, Function.update_of_ne hq]
    have hunderway := underway_cons hdeliveries
    have hhead : l ≠ r → _ := fun hne => h.head hkind hne hdeliveries
    refine ⟨?_, fun q logic' l' r' hkind' hne => ?_, fun q logic' l' r' hkind' hne => ?_,
      fun q logic' l' r' hkind' hne => ?_, ?_⟩
    · exact fun q j d' hmem => h.mem q j d' (hdeliveries ▸ List.mem_cons_of_mem _ hmem)
    · have hleft := h.left q logic' l' r' hkind' hne
      rw [hunderway] at hleft
      rw [decided_eq hstatus]
      by_cases hq : q = p
      · subst hq
        obtain ⟨rfl, rfl, rfl⟩ : logic = logic' ∧ l = l' ∧ r = r' := by simpa [hkind] using hkind'
        rw [hself.2.1]
        obtain ⟨hd, hdecided, hnone, ⟨rfl, _⟩ | ⟨rfl, _⟩⟩ := hhead hne
        · rw [if_pos rfl, arrived_of_ne hd, hnone, hdecided]
        · rw [if_neg hne.symm]
          rwa [if_neg (by simp [hne.symm])] at hleft
      · rw [(arrivals_eq (hother q hq)).2.1]
        rwa [if_neg (by simp [Ne.symm hq])] at hleft
    · have hright := h.right q logic' l' r' hkind' hne
      rw [hunderway] at hright
      rw [decided_eq hstatus]
      by_cases hq : q = p
      · subst hq
        obtain ⟨rfl, rfl, rfl⟩ : logic = logic' ∧ l = l' ∧ r = r' := by simpa [hkind] using hkind'
        rw [hself.2.2]
        obtain ⟨hd, hdecided, hnone, ⟨rfl, _⟩ | ⟨rfl, _⟩⟩ := hhead hne
        · rw [if_pos rfl]
          rwa [if_neg (by simp [hne])] at hright
        · rw [if_neg hne.symm, arrived_of_ne hd, hnone, hdecided]
      · rw [(arrivals_eq (hother q hq)).2.2]
        rwa [if_neg (by simp [Ne.symm hq])] at hright
    · have hcount := h.count q logic' l' r' hkind' hne
      by_cases hq : q = p
      · subst hq
        obtain ⟨rfl, rfl, rfl⟩ : logic = logic' ∧ l = l' ∧ r = r' := by simpa [hkind] using hkind'
        rw [hself.1, hself.2.1, hself.2.2, hcount]
        obtain ⟨hd, -, -, ⟨rfl, hnot⟩ | ⟨rfl, hnot⟩⟩ := hhead hne
        · rw [if_pos rfl, if_pos rfl, arrived_eq_zero.mpr hnot, arrived_of_ne hd]
          omega
        · rw [if_neg hne.symm, if_neg hne.symm, arrived_eq_zero.mpr hnot, arrived_of_ne hd]
      · rw [(arrivals_eq (hother q hq)).1, (arrivals_eq (hother q hq)).2.1,
          (arrivals_eq (hother q hq)).2.2, hcount]
    · have hcount := h.finished
      rw [hdeliveries, tally_cons, if_neg (by simp)] at hcount
      rw [hfinished, decided_eq hstatus]
      omega

/-! ## Sending -/

lemma decided_iff (h : ∀ j, t.status j = .completed ↔ s.status j = .completed) :
    t.decided = s.decided := by
  funext i
  simp only [State.decided, h]

/-- One node more has decided. -/
lemma decided_update {i : Fin g.size} (h : t.status = Function.update s.status i .completed)
    (hbefore : s.status i ≠ .completed) (j : Fin g.size) :
    t.decided j = s.decided j + if j = i then 1 else 0 := by
  simp only [State.decided, h]
  by_cases hj : j = i
  · subst hj
    simp [hbefore]
  · simp [hj]

/-- A decision goes to the `StartDecisionGraph` as often as the node is a root. -/
lemma tally_start (i : Fin g.size) (d : ControlFlowStatus) :
    tally (fun c => if c.1 = .start then 1 else 0) ((g.requestors i).map (·, i, d))
      = g.leafNodes.count i := by
  have htally := tally_requestors .start i i d
  rw [if_pos rfl, g.count_start] at htally
  rw [← htally, tally_map, tally_map]
  simp

/-- Where a node decides, a delivery to each of its requestors gets under way. -/
lemma delivered_sending (hsending : Sending t s') {f : ℕ} (h : t.Delivered f) : s'.Delivered f := by
  cases hsending with
  | none harrivals hdeliveries hfinished hstatus =>
    have hdecided := decided_iff hstatus
    refine ⟨?_, fun p logic l r hkind hne => ?_, fun p logic l r hkind hne => ?_,
      fun p logic l r hkind hne => ?_, ?_⟩
    · rw [hdeliveries]
      exact h.mem
    · rw [(arrivals_eq (congrFun harrivals p)).2.1, underway_eq hdeliveries, hdecided]
      exact h.left p logic l r hkind hne
    · rw [(arrivals_eq (congrFun harrivals p)).2.2, underway_eq hdeliveries, hdecided]
      exact h.right p logic l r hkind hne
    · rw [(arrivals_eq (congrFun harrivals p)).1, (arrivals_eq (congrFun harrivals p)).2.1,
        (arrivals_eq (congrFun harrivals p)).2.2]
      exact h.count p logic l r hkind hne
    · rw [hfinished, hdeliveries, hdecided]
      exact h.finished
  | sent i d hd hbefore harrivals hdeliveries hfinished hstatus =>
    have hdecided := decided_update hstatus hbefore
    -- one decision to each requestor goes under way
    have hunderway : ∀ q j, s'.underway q j
        = t.underway q j + if j = i then (g.requestors j).count q else 0 := by
      intro q j
      rw [State.underway, hdeliveries, tally_append, tally_requestors, Nat.add_comm]
      simp [State.underway, eq_comm]
    refine ⟨fun q j d' hmem => ?_, fun p logic l r hkind hne => ?_,
      fun p logic l r hkind hne => ?_, fun p logic l r hkind hne => ?_, ?_⟩
    · rw [hdeliveries, List.mem_append, List.mem_map] at hmem
      rcases hmem with ⟨q', hq, heq⟩ | hmem
      · obtain ⟨rfl, rfl, rfl⟩ : q' = q ∧ i = j ∧ d = d' := by simpa using heq
        exact ⟨hd, hq⟩
      · exact h.mem q j d' hmem
    · rw [(arrivals_eq (congrFun harrivals p)).2.1, hunderway, hdecided, (count_left hkind hne).1,
        ← h.left p logic l r hkind hne]
      omega
    · rw [(arrivals_eq (congrFun harrivals p)).2.2, hunderway, hdecided, (count_left hkind hne).2,
        ← h.right p logic l r hkind hne]
      omega
    · rw [(arrivals_eq (congrFun harrivals p)).1, (arrivals_eq (congrFun harrivals p)).2.1,
        (arrivals_eq (congrFun harrivals p)).2.2]
      exact h.count p logic l r hkind hne
    · -- the node has decided now and had not before, so it counts as often as it was added
      have hsplit : tally (fun j => s'.decided j * g.leafNodes.count j) (List.finRange g.size)
          = tally (fun j => t.decided j * g.leafNodes.count j) (List.finRange g.size)
            + g.leafNodes.count i := by
        rw [← tally_single (g.leafNodes.count i) (List.nodup_finRange g.size) (List.mem_finRange i),
          ← tally_add]
        refine tally_congr fun j _ => ?_
        rw [hdecided]
        by_cases hj : j = i
        · subst hj
          simp [Nat.add_mul]
        · simp [hj]
      have hcount := h.finished
      rw [hfinished, hdeliveries, tally_append, tally_start, hsplit]
      omega

/-- A step is an arrival, or a decision that is sent, or both. -/
lemma delivered_step (hrecorded : s.Recorded) (hmoves : Moves a s s') {f : ℕ}
    (h : s.Delivered f) : s'.Delivered f := by
  obtain ⟨t, harrival, hsending⟩ := delivery hrecorded hmoves
  exact delivered_sending hsending (delivered_arrival harrival h)

/-! ## From the start of a transition -/

/-- Ready for a transition: no node was asked and no binary node remembers a decision. -/
structure State.Ready (s : State g) : Prop where
  status : ∀ i, s.status i = .notStarted
  willNotRunRequests : ∀ i, (s.node i).willNotRunRequests = 0
  arrivals : ∀ p logic l r, g.kind p = .binary logic l r → s.arrivals p = (0, .notStarted, .notStarted)
  quiet : s.Quiet
  received : s.received = []
  made : s.made = []
  sent : s.sent = []

/-- A new graph is ready. -/
lemma ready_default : ({} : State g).Ready :=
  ⟨fun _ => rfl, fun _ => rfl, fun _ _ _ _ _ => rfl, ⟨rfl, rfl⟩, rfl, rfl, rfl⟩

/-- At the start nothing is recorded and no node was asked. -/
lemma State.Ready.recorded (h : s.Ready) : (startAsync s).Recorded := by
  have hstatus : ∀ i, (startAsync s).status i = .notStarted := h.status
  refine ⟨fun i => ?_, fun i => ?_, fun i => ?_, fun i _ => ?_, fun i _ _ _ _ => ?_⟩
  · show (s.made.map Prod.fst).count i = _
    rw [h.made, hstatus]
    rfl
  · show (s.sent.map Prod.fst).count i = _
    rw [h.sent, hstatus]
    rfl
  · show s.tasks.count i = _
    rw [h.quiet.2, hstatus]
    rfl
  · simp [hstatus]
  · simp [hstatus]

/-- At the start nothing is under way. -/
lemma State.Ready.delivered (h : s.Ready) : (startAsync s).Delivered s.finishedLeafNodes := by
  have hdeliveries : (startAsync s).deliveries = [] := by
    show (g.leafNodes.map (Call.request · .requestDecision)).filterMap Call.delivery = []
    induction g.leafNodes with
    | nil => rfl
    | cons i l ih => exact ih
  have hdecided : ∀ i, (startAsync s).decided i = 0 := fun i =>
    if_neg (by rw [show (startAsync s).status i = _ from h.status i]; decide)
  have harrivals : ∀ {p logic l r}, g.kind p = .binary logic l r →
      ((startAsync s).node p).decisionsFromComposites = 0 ∧
        ((startAsync s).node p).leftDecision = .notStarted ∧
        ((startAsync s).node p).rightDecision = .notStarted := fun {p logic l r} hkind => by
    have hp := h.arrivals p logic l r hkind
    simp only [State.arrivals, Prod.mk.injEq] at hp
    exact hp
  refine ⟨fun q i d hmem => ?_, fun p logic l r hkind _ => ?_, fun p logic l r hkind _ => ?_,
    fun p logic l r hkind _ => ?_, ?_⟩
  · rw [hdeliveries] at hmem
    cases hmem
  · rw [State.underway, hdeliveries, hdecided, (harrivals hkind).2.1]
    rfl
  · rw [State.underway, hdeliveries, hdecided, (harrivals hkind).2.2]
    rfl
  · rw [(harrivals hkind).1, (harrivals hkind).2.1, (harrivals hkind).2.2]
    rfl
  · simp only [hdeliveries, hdecided, Nat.zero_mul, tally_zero]
    rfl

/-- In a transition from a state that is ready the records are right. -/
theorem recorded {ok : State g → Label → Prop} (h : s.Ready)
    (hrun : RunsTo (step a) ok (startAsync s) s') : s'.Recorded :=
  hrun.invariant h.recorded fun _ _ _ ht _ hstep => recorded_step (moves hstep) ht

/-- **Nothing is lost on the way**, in a transition from a state that is ready. -/
theorem delivered {ok : State g → Label → Prop} (h : s.Ready)
    (hrun : RunsTo (step a) ok (startAsync s) s') : s'.Delivered s.finishedLeafNodes :=
  hrun.invariant_of (recorded h) h.delivered fun _ _ _ hr ht _ hstep =>
    delivered_step hr (moves hstep) ht

end UnifyPrototype.ControlFlow
