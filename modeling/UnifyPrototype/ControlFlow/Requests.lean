import Mathlib.Data.Fin.VecNotation
import UnifyPrototype.ControlFlow.Delivery

/-!
# Requested decisions in shared graphs

A binary node acts on the decision of its left composite only if it was asked before that decision
arrives. Where every request comes in time, each node that was asked waits for a composite that
was asked, down to a leaf, until it decides.
-/

namespace UnifyPrototype.ControlFlow

open UnifyPrototype.Utils

variable {g : DecisionGraph} {a : Assignment g} {s s' : State g} {f : ℕ}

/-! ## Requests in time -/

/-- Node `i` received `REQUEST_DECISION`. -/
def State.Asked (s : State g) (i : Fin g.size) : Prop :=
  (i, .requestDecision) ∈ s.received

instance (s : State g) (i : Fin g.size) : Decidable (s.Asked i) :=
  inferInstanceAs (Decidable (_ ∈ _))

/-- Node `i` received `REQUEST_DECISION` or is about to. -/
def State.Requested (s : State g) (i : Fin g.size) : Prop :=
  s.Asked i ∨ .request i .requestDecision ∈ s.agenda

/-- The decision that a node with the members `n` waits for was asked for: the left one, or, if it
is there, the right one. -/
def Awaits (asked : Fin g.size → Prop) (l r : Fin g.size) (n : NodeState) : Prop :=
  n.leftDecision = .notStarted ∧ asked l ∨
    n.leftDecision ≠ .notStarted ∧ n.rightDecision = .notStarted ∧ asked r

instance (asked : Fin g.size → Prop) [DecidablePred asked] (l r : Fin g.size) (n : NodeState) :
    Decidable (Awaits asked l r n) :=
  inferInstanceAs (Decidable (_ ∨ _))

/-- `REQUEST_DECISION` does not come too late for node `i`. A leaf was not told that nobody will
ask. A binary node has decided, or it has not started and the left decision has not arrived, or it
waits for a composite that was asked. -/
def State.InTime (s : State g) (i : Fin g.size) : Prop :=
  match g.kind i with
  | .leaf => s.status i ≠ .willNotRun
  | .binary _ l r => s.status i = .completed ∨
      s.status i = .notStarted ∧ (s.node i).leftDecision = .notStarted ∨
      Awaits s.Asked l r (s.node i)

instance (s : State g) (i : Fin g.size) : Decidable (s.InTime i) := by
  unfold State.InTime
  cases g.kind i <;> infer_instance

/-- The next call is not a `REQUEST_DECISION` that comes too late. -/
def State.RequestInTime (s : State g) (_ : Label) : Prop :=
  match s.agenda with
  | .request i .requestDecision :: _ => s.InTime i
  | _ => True

instance (s : State g) (b : Label) : Decidable (s.RequestInTime b) := by
  unfold State.RequestInTime
  split <;> infer_instance

/-! ## Whoever was asked will decide -/

/-- A node that was asked has decided, or is a leaf with a task, or waits for a composite that was
asked or is about to be. -/
inductive State.Settling (s : State g) (i : Fin g.size) : Prop
  | decided (hstatus : s.status i = .completed)
  | leaf (hkind : g.kind i = .leaf) (hstatus : s.status i = .shouldRun)
  | binary {logic l r} (hkind : g.kind i = .binary logic l r) (hstatus : s.status i = .inProgress)
      (hawaits : Awaits s.Requested l r (s.node i))

/-- Who waits for a decision still does when more are asked. -/
lemma Awaits.mono {asked asked' : Fin g.size → Prop} (himp : ∀ i, asked i → asked' i)
    {l r : Fin g.size} {n : NodeState} (h : Awaits asked l r n) : Awaits asked' l r n := by
  rcases h with ⟨hl, hasked⟩ | ⟨hl, hr, hasked⟩
  · exact .inl ⟨hl, himp l hasked⟩
  · exact .inr ⟨hl, hr, himp r hasked⟩

lemma Awaits.congr {asked : Fin g.size → Prop} {l r : Fin g.size} {n n' : NodeState}
    (h : Awaits asked l r n) (hl : n'.leftDecision = n.leftDecision)
    (hr : n'.rightDecision = n.rightDecision) : Awaits asked l r n' := by
  unfold Awaits at h ⊢
  rw [hl, hr]
  exact h

/-- A request that is about to be made is received in the end, and not forgotten. -/
lemma requested_step (hmoves : Moves a s s') {i : Fin g.size} (h : s.Requested i) :
    s'.Requested i := by
  unfold State.Requested State.Asked at h ⊢
  cases hmoves with
  | ignored hagenda | madeLeaf hagenda =>
    rw [hagenda] at h
    simp only [List.mem_append, List.mem_cons, Call.request.injEq, Prod.mk.injEq,
      List.not_mem_nil, or_false] at h ⊢
    tauto
  | counted hagenda =>
    rw [hagenda] at h
    simpa using h
  | madeBinary hagenda =>
    rw [hagenda] at h
    simp only [List.mem_append, List.mem_cons, Call.request.injEq, Prod.mk.injEq,
      List.not_mem_nil, or_false] at h ⊢
    tauto
  | finished hagenda | stray hagenda | stored hagenda | asked hagenda =>
    rw [hagenda] at h
    simp only [List.mem_cons, reduceCtorEq, false_or] at h ⊢
    tauto
  | decided hagenda =>
    rw [hagenda] at h
    simp only [List.mem_append, List.mem_cons, reduceCtorEq, false_or] at h ⊢
    tauto
  | ran hagenda =>
    rw [hagenda] at h
    exact .inl (h.resolve_right List.not_mem_nil)

/-- Who is settled stays so if its members do not change. -/
lemma settling_of_node (hmoves : Moves a s s') {i : Fin g.size} (hnode : s'.node i = s.node i)
    (h : s.Settling i) : s'.Settling i := by
  have hstatus : s'.status i = s.status i := congrArg NodeState.runStatus hnode
  cases h with
  | decided hdone => exact .decided (hstatus.trans hdone)
  | leaf hkind hshould => exact .leaf hkind (hstatus.trans hshould)
  | binary hkind hprogress hawaits =>
    refine .binary hkind (hstatus.trans hprogress) ?_
    rw [hnode]
    exact hawaits.mono fun j => requested_step hmoves

/-- What the next call tells node `p` is the first thing that node hears from there. -/
lemma State.Delivered.next (h : s.Delivered f) {p i : Fin g.size} {d : ControlFlowStatus}
    {rest : List (Call (Fin g.size))} {logic : Logic} {l r : Fin g.size}
    (hkind : g.kind p = .binary logic l r) (hne : l ≠ r)
    (hagenda : s.agenda = .decision (.node p) i d :: rest) :
    d ≠ .notStarted ∧ s.status i = .completed ∧
      (i = l ∧ (s.node p).leftDecision = .notStarted ∨
        i = r ∧ (s.node p).rightDecision = .notStarted) := by
  have hdeliveries : s.deliveries
      = (.node p, i, d) :: State.deliveries { s with agenda := rest } := by
    rw [State.deliveries, hagenda]
    rfl
  obtain ⟨hd, hdecided, -, hfirst⟩ := h.head hkind hne hdeliveries
  refine ⟨hd, ?_, hfirst⟩
  by_contra hne
  rw [State.decided, if_neg hne] at hdecided
  cases hdecided

/-- A decision that makes the node wait on leaves it waiting for the other composite. -/
lemma awaits_stored (h : s.Delivered f) {p i : Fin g.size} {d : ControlFlowStatus}
    {rest : List (Call (Fin g.size))} {logic : Logic} {l r : Fin g.size}
    (hkind : g.kind p = .binary logic l r) (hlr : l ≠ r)
    (hagenda : s.agenda = .decision (.node p) i d :: rest)
    (hstatus : (s.node p).runStatus = .inProgress)
    (hwaits : Waits logic ((s.node p).store (i = l) d) (i = l)) {asked : Fin g.size → Prop}
    (hawaits : Awaits asked l r (s.node p)) : Awaits asked l r ((s.node p).store (i = l) d) := by
  obtain ⟨hcount, hleft, -⟩ := hwaits.resolve_left (by simpa using hstatus)
  obtain ⟨hd, -, hfirst⟩ := h.next hkind hlr hagenda
  have hne : i ≠ l := by simpa using hleft
  obtain ⟨rfl, hright⟩ := hfirst.resolve_left fun hl => hne hl.1
  rcases hawaits with ⟨hl, hasked⟩ | ⟨hl, -, -⟩
  · exact .inl ⟨by simpa [hne] using hl, hasked⟩
  · -- with the left decision there this is the second one, and the node would decide
    have htwo := h.count p logic l i hkind hlr
    rw [arrived_of_ne hl, arrived_eq_zero.mpr hright] at htwo
    simp [htwo] at hcount

/-- A settled node stays settled. -/
lemma settling_step (hg : g.Distinct) (h : s.Delivered f) (hmoves : Moves a s s') {i : Fin g.size}
    (hsettling : s.Settling i) : s'.Settling i := by
  have hstarted : s.status i ≠ .notStarted := by
    cases hsettling <;> simp [*]
  have hreq := fun j => requested_step hmoves (i := j)
  have hkeep := settling_of_node hmoves (i := i)
  have hother : ∀ j n, i ≠ j → Function.update s.node j n i = s.node i := fun j n hj =>
    Function.update_of_ne hj _ _
  cases hmoves with
  | ignored | finished | stray => exact hkeep rfl hsettling
  | counted _ hstatus | madeLeaf _ hstatus | madeBinary _ hstatus =>
    exact hkeep (hother _ _ fun hj => hstarted (hj ▸ hstatus)) hsettling
  | @stored p j d rest logic l r hagenda hkind hwaits =>
    by_cases hp : i = p
    · subst hp
      cases hsettling with
      | decided hdone => exact .decided (by simpa [State.status] using hdone)
      | leaf hleaf => rw [hkind] at hleaf; cases hleaf
      | binary hkind' hprogress hawaits =>
        obtain ⟨rfl, rfl, rfl⟩ := by simpa [hkind] using hkind'
        refine .binary hkind (by simpa [State.status] using hprogress) ?_
        -- the decision that has arrived is not the one it waits for
        have hafter := awaits_stored h hkind (hg.left_ne_right hkind) hagenda hprogress hwaits (hawaits.mono hreq)
        simpa using hafter
    · exact hkeep (hother _ _ hp) hsettling
  | @asked p d rest logic l r hagenda hkind hstatus hcount hshort =>
    by_cases hp : i = p
    · subst hp
      have hne := hg.left_ne_right hkind
      obtain ⟨hd, -, hfirst⟩ := h.next hkind hne hagenda
      refine .binary hkind ?_ (.inr ⟨?_, ?_, .inr List.mem_cons_self⟩)
      · simpa [State.status] using hstatus
      · simpa using hd
      · -- the left decision is the first one, so the right one, which is asked now, is missing
        have hleft := (hfirst.resolve_right fun hr => hne hr.1).2
        have htwo := h.count i logic l r hkind hne
        rw [arrived_eq_zero.mpr hleft] at htwo
        have hnone : (s.node i).rightDecision = .notStarted := by
          by_contra hne
          rw [arrived_of_ne hne] at htwo
          exact hcount htwo
        simpa using hnone
    · exact hkeep (hother _ _ hp) hsettling
  | @decided p j d rest logic l r d' calls hagenda hkind hstatus hdecides =>
    by_cases hp : i = p
    · subst hp
      exact .decided (by simp [State.status])
    · exact hkeep (hother _ _ hp) hsettling
  | @ran k j hagenda htask =>
    by_cases hj : i = j
    · subst hj
      exact .decided (by simp [State.status])
    · exact hkeep (hother _ _ hj) hsettling

/-- A node that is asked in time is settled. -/
lemma settling_of_request (hrecorded : s.Recorded) {i : Fin g.size}
    {rest : List (Call (Fin g.size))} (hmoves : Moves a s s')
    (hagenda : s.agenda = .request i .requestDecision :: rest) (htime : s.InTime i) :
    s'.Settling i := by
  have hreq := fun j => requested_step hmoves (i := j)
  unfold State.InTime at htime
  -- the only moves are those of a request
  have hhead : ∀ {c rest'}, s.agenda = c :: rest' → c = .request i .requestDecision :=
    fun hagenda' => by
      rw [hagenda] at hagenda'
      exact (List.cons.inj hagenda').1.symm
  cases hmoves with
  | @ignored j σ rest hagenda' hstatus =>
    obtain ⟨rfl, rfl⟩ := by simpa using hhead hagenda'
    cases hkind : g.kind j with
    | leaf =>
      rw [hkind] at htime
      have hprogress := hrecorded.leaf j hkind
      by_cases hdone : s.status j = .completed
      · exact .decided hdone
      · refine .leaf hkind ?_
        show s.status j = .shouldRun
        have hstatus' : s.status j ≠ .notStarted := hstatus
        cases hs : s.status j <;> simp_all
    | binary logic l r =>
      rw [hkind] at htime
      have hbinary := hrecorded.binary j logic l r hkind
      rcases htime with hdone | ⟨hnot, -⟩ | hawaits
      · exact .decided hdone
      · exact absurd hnot hstatus
      · by_cases hdone : s.status j = .completed
        · exact .decided hdone
        · refine .binary hkind ?_ (hawaits.mono fun k hk => hreq k (.inl hk))
          show s.status j = .inProgress
          have hstatus' : s.status j ≠ .notStarted := hstatus
          cases hs : s.status j <;> simp_all
  | @counted j _ hagenda' => simpa using hhead hagenda'
  | @madeLeaf j σ rest hagenda' hstatus hkind =>
    obtain ⟨rfl, rfl⟩ := by simpa using hhead hagenda'
    exact .leaf hkind (by simp [State.status, RequestState.runStatus])
  | @madeBinary j σ rest logic l r hagenda' hstatus hkind =>
    obtain ⟨rfl, rfl⟩ := by simpa using hhead hagenda'
    refine .binary hkind (by simp [State.status]) ?_
    rw [hkind] at htime
    rcases htime with hdone | ⟨-, hleft⟩ | hawaits
    · rw [State.status, hstatus] at hdone
      cases hdone
    · exact .inl ⟨by simpa using hleft, .inr (by simp)⟩
    · refine (hawaits.mono fun k hk => hreq k (.inl hk)).congr ?_ ?_ <;> simp
  | finished hagenda' | stray hagenda' | stored hagenda' | asked hagenda' | decided hagenda' =>
    cases hhead hagenda'
  | ran hnil => rw [hnil] at hagenda; cases hagenda

/-- Only the next call makes a node asked. -/
lemma asked_step (hmoves : Moves a s s') {i : Fin g.size} (h : s'.Asked i) :
    s.Asked i ∨ ∃ rest, s.agenda = .request i .requestDecision :: rest := by
  unfold State.Asked at h ⊢
  cases hmoves with
  | ignored hagenda | madeLeaf hagenda | madeBinary hagenda =>
    rcases List.mem_append.mp h with hbefore | hnew
    · exact .inl hbefore
    · obtain ⟨rfl, rfl⟩ := by simpa using hnew
      exact .inr ⟨_, hagenda⟩
  | counted => exact .inl (by simpa using h)
  | finished | stray | stored | asked | decided | ran => exact .inl h

/-- In a transition in which all requests come in time, every node that was asked is settled, and
the roots are asked. -/
structure State.Settled (s : State g) : Prop where
  settling : ∀ i, s.Asked i → s.Settling i
  roots : ∀ i ∈ g.leafNodes, s.Requested i

lemma State.Ready.settled (h : s.Ready) : (startAsync s).Settled := by
  refine ⟨fun i hasked => ?_, fun i hi => .inr (List.mem_map_of_mem hi)⟩
  rw [State.Asked, show (startAsync s).received = _ from h.received] at hasked
  cases hasked

/-- Each step keeps it, if no request comes too late. -/
lemma settled_step (hg : g.Distinct) (hrecorded : s.Recorded) (hdelivered : s.Delivered f) {b : Label}
    (htime : s.RequestInTime b) (hmoves : Moves a s s') (h : s.Settled) : s'.Settled := by
  refine ⟨fun i hasked => ?_, fun i hi => requested_step hmoves (h.roots i hi)⟩
  rcases asked_step hmoves hasked with hbefore | ⟨rest, hagenda⟩
  · exact settling_step hg hdelivered hmoves (h.settling i hbefore)
  · refine settling_of_request hrecorded hmoves hagenda ?_
    unfold State.RequestInTime at htime
    rw [hagenda] at htime
    exact htime

theorem settled (hg : g.Distinct) (h : s.Ready) (hrun : RunsTo (step a) State.RequestInTime (startAsync s) s') :
    s'.Settled := by
  refine hrun.invariant_of (J := fun t => t.Recorded ∧ t.Delivered s.finishedLeafNodes)
    (fun hrun => ⟨recorded h hrun, delivered h hrun⟩) h.settled ?_
  intro t b u hJ ht htime hstep
  exact settled_step hg hJ.1 hJ.2 htime (moves hstep) ht

/-! ## When nothing is pending -/

/-- **Whoever was asked has decided.** A node waits for a composite, which is older. -/
lemma completed_of_asked (hg : g.Distinct) (hrecorded : s.Recorded) (hdelivered : s.Delivered f) (h : s.Settled)
    (hquiet : s.Quiet) (i : Fin g.size) (hasked : s.Asked i) : s.status i = .completed := by
  have hunderway : ∀ q j, s.underway q j = 0 := by
    intro q j
    rw [State.underway, State.deliveries, hquiet.1]
    rfl
  have hrequested : ∀ j, s.Requested j → s.Asked j := by
    intro j hj
    unfold State.Requested at hj
    rw [hquiet.1] at hj
    exact hj.resolve_right List.not_mem_nil
  induction i using Fin.strong_induction_on with
  | h i ih =>
    cases h.settling i hasked with
    | decided hdone => exact hdone
    | leaf hkind hstatus =>
      have htasks := hrecorded.tasks i
      rw [if_pos hstatus, hquiet.2] at htasks
      cases htasks
    | @binary logic l r hkind hstatus hawaits =>
      -- the composite it waits for has decided, so its decision has arrived
      rcases hawaits with ⟨hleft, hl⟩ | ⟨-, hright, hr⟩
      · have hdone := ih l (DecisionGraph.left_lt hkind) (hrequested l hl)
        have harrived := hdelivered.left i logic l r hkind (hg.left_ne_right hkind)
        rw [hunderway, State.decided, if_pos hdone, hleft] at harrived
        cases harrived
      · have hdone := ih r (DecisionGraph.right_lt hkind) (hrequested r hr)
        have harrived := hdelivered.right i logic l r hkind (hg.left_ne_right hkind)
        rw [hunderway, State.decided, if_pos hdone, hright] at harrived
        cases harrived

lemma tally_count (l : List (Fin g.size)) :
    tally (fun i => l.count i) (List.finRange g.size) = l.length := by
  induction l with
  | nil => exact tally_zero _
  | cons c l ih =>
    rw [List.length_cons, ← ih, ← tally_single 1 (List.nodup_finRange g.size) (List.mem_finRange c),
      ← tally_add]
    refine tally_congr fun i _ => ?_
    by_cases hi : i = c
    · subst hi
      simp
    · simp [hi, Ne.symm hi]

/-- The decision of every root has been counted. -/
lemma finished_of_completed (hdelivered : s.Delivered f) (hquiet : s.Quiet)
    (h : ∀ i ∈ g.leafNodes, s.status i = .completed) :
    s.finishedLeafNodes = f + g.leafNodes.length := by
  have hfinished := hdelivered.finished
  rw [State.deliveries, hquiet.1, List.filterMap_nil, tally_nil] at hfinished
  rw [← tally_count g.leafNodes, ← Nat.add_zero s.finishedLeafNodes, hfinished]
  refine congrArg (f + ·) (tally_congr fun i _ => ?_)
  by_cases hi : i ∈ g.leafNodes
  · rw [State.decided, if_pos (h i hi), Nat.one_mul]
  · rw [List.count_eq_zero.mpr hi, Nat.mul_zero]

/-- A node that has decided has sent one decision. -/
lemma sent_of_completed (hrecorded : s.Recorded) {i : Fin g.size} (h : s.status i = .completed) :
    (s.sent.map Prod.fst).count i = 1 := by
  rw [hrecorded.sent, if_pos h]

/-- Every node that received `REQUEST_DECISION` has sent exactly one decision, and the decisions of
all roots are counted. -/
def State.NothingLost (s : State g) : Prop :=
  (∀ i, s.Asked i → (s.sent.map Prod.fst).count i = 1) ∧ s.finishedLeafNodes = g.leafNodes.length

/-- **No requested decision is lost if all requests come in time.** -/
theorem requested_decided (g : DecisionGraph) (hg : g.Distinct) (a : Assignment g) (s : State g)
    (hrun : RunsTo (step a) State.RequestInTime (startAsync {}) s) (hquiet : s.Quiet) :
    s.NothingLost := by
  have hrecorded := recorded ready_default hrun
  have hdelivered := delivered ready_default hrun
  have hsettled := settled hg ready_default hrun
  have hdone := completed_of_asked hg hrecorded hdelivered hsettled hquiet
  refine ⟨fun i hi => sent_of_completed hrecorded (hdone i hi), ?_⟩
  refine (finished_of_completed hdelivered hquiet fun i hi => hdone i ?_).trans (Nat.zero_add _)
  have hroot := hsettled.roots i hi
  unfold State.Requested at hroot
  rw [hquiet.1] at hroot
  exact hroot.resolve_right List.not_mem_nil

/-! ## Some graphs -/

/-- `Q = And(a, P)` and `P = And(l, r)` over the leaves `a`, `l`, `r`; `Q` and `l` are roots. The
nodes are `a`, `l`, `r`, `P`, `Q` in this order. -/
def sharedGraph : DecisionGraph where
  size := 5
  kind := ![.leaf, .leaf, .leaf, .binary .and 1 2, .binary .and 0 3]
  leafNodes := [1, 4]
  requestors := ![[.node 4], [.node 3, .start], [.node 3], [.node 4], [.start]]
  ordered := by decide
  count_start := by decide
  count_node := by decide

/-- `And(a, Or(b, c))` over the leaves `a`, `b`, `c`. -/
def andOrForest : DecisionGraph where
  size := 5
  kind := ![.leaf, .leaf, .leaf, .binary .or 1 2, .binary .and 0 3]
  leafNodes := [4]
  requestors := ![[.node 4], [.node 3], [.node 3], [.node 4], [.start]]
  ordered := by decide
  count_start := by decide
  count_node := by decide

/-- `Q = And(a, P)` and `P = And(x, y)` over the leaves `a`, `x`, `y`; `Q` and `x` are roots. The
nodes are `a`, `x`, `y`, `P`, `Q` in this order. -/
def unneededGraph : DecisionGraph where
  size := 5
  kind := ![.leaf, .leaf, .leaf, .binary .and 1 2, .binary .and 0 3]
  leafNodes := [4, 1]
  requestors := ![[.node 4], [.node 3, .start], [.node 3], [.node 4], [.start]]
  ordered := by decide
  count_start := by decide
  count_node := by decide

/-- `P = And(a, b)` over the leaves `a` and `b`; `P` and `b` are roots. The nodes are `a`, `b`, `P`
in this order. -/
def raceGraph : DecisionGraph where
  size := 3
  kind := ![.leaf, .leaf, .binary .and 0 1]
  leafNodes := [2, 1]
  requestors := ![[.node 2], [.node 2, .start], [.start]]
  ordered := by decide
  count_start := by decide
  count_node := by decide

/-- `And(a, b)` over two leaves. -/
def andForest : DecisionGraph where
  size := 3
  kind := ![.leaf, .leaf, .binary .and 0 1]
  leafNodes := [2]
  requestors := ![[.node 2], [.node 2], [.start]]
  ordered := by decide
  count_start := by decide
  count_node := by decide

/-! ## A request that comes too late -/

/-- Every leaf of `sharedGraph` decides for `GO`. -/
def sharedGraphGo : Assignment sharedGraph :=
  .const sharedGraph .go (by decide)

/-- The leaf `a` decides first, so `P` is asked before `l` decides. -/
def requestInTime : List Label :=
  [.call, .call, .call, .task 1, .call, .call, .call, .task 0, .call, .call, .call, .task 0, .call,
    .call, .call]

/-- The leaf `l` decides first, so `P` is asked when its left decision is there already. -/
def requestTooLate : List Label :=
  [.call, .call, .call, .task 0, .call, .call, .task 0, .call, .call, .call]

theorem requested_decided_sharedGraph : ∃ s : State sharedGraph, s.Asked ⟨3, by decide⟩ ∧ s.NothingLost := by
  have hrun : ∃ s, execute (step sharedGraphGo) (fun s b => decide (s.RequestInTime b))
      (startAsync {}) requestInTime = some s ∧ s.Quiet ∧ s.Asked ⟨3, by decide⟩ :=
    ⟨_, rfl, by decide, by decide⟩
  obtain ⟨s, hs, hquiet, hasked⟩ := hrun
  refine ⟨s, hasked, requested_decided sharedGraph (by decide) sharedGraphGo s ?_ hquiet⟩
  exact .of_execute _ (fun _ _ h => of_decide_eq_true h) hs

/-- **A requested decision can be lost.** `P` was asked, both its leaves have decided or were never
asked, and neither `P` nor the root `Q` ever decides. -/
theorem requested_lost :
    ¬ ∀ (g : DecisionGraph) (a : Assignment g) (s : State g), g.Distinct →
      Reaches (step a) (startAsync {}) s → s.Quiet → s.NothingLost := by
  have hrun : ∃ s, executeAll (step sharedGraphGo) (startAsync {}) requestTooLate = some s ∧
      s.Quiet ∧ s.finishedLeafNodes = 1 := ⟨_, rfl, by decide, rfl⟩
  obtain ⟨s, hs, hquiet, hfinished⟩ := hrun
  intro hall
  have hlost := (hall sharedGraph sharedGraphGo s (by decide) (.of_executeAll _ hs) hquiet).2
  rw [hfinished] at hlost
  exact absurd hlost (by decide)

end UnifyPrototype.ControlFlow
