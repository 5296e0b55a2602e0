import UnifyPrototype.ControlFlow.Requests

/-!
# Nodes that nobody needs

A node is told that nobody will ask when the number of `NO_REQUEST_COMING` it got is the number of
its requestors. The counter does not say who sent them, so the calls are recorded here together
with their callers. A binary node that was told is then in progress like one that was asked: it
stays inert only as long as no decision arrives on which a node in progress acts.
-/

namespace UnifyPrototype.ControlFlow

open UnifyPrototype.Utils

variable {g : DecisionGraph} {a : Assignment g} {s s' : State g}

/-! ## Who calls whom -/

/-- Whose member function a call runs. -/
def Call.receiver {N : Type} : Call N → Requestor N
  | .request i _ => .node i
  | .decision requestor _ _ => requestor

/-- The request that a call of `q` makes, if it is one. -/
def Call.requestOf {N : Type} (q : Requestor N) : Call N → List (Requestor N × N × RequestState)
  | .request i σ => [(q, i, σ)]
  | .decision _ _ _ => []

/-- The state of a transition, the calls still to be made with their callers, and the calls of
`requestDecisionAsync` so far with theirs. -/
structure Attributed (g : DecisionGraph) where
  state : State g
  pending : List (Requestor (Fin g.size) × Call (Fin g.size))
  requests : List (Requestor (Fin g.size) × Fin g.size × RequestState) := []

/-- Whose member function runs next: the receiver of the next call, or the leaf of the task. -/
def State.runner (s : State g) : Label → Requestor (Fin g.size)
  | .call => (s.agenda.head?.map Call.receiver).getD .start
  | .task k => (s.tasks[k]?.map Requestor.node).getD .start

/-- `step`, with the callers of the calls. -/
def Attributed.step (a : Assignment g) (t : Attributed g) (b : Label) : Option (Attributed g) :=
  (ControlFlow.step a t.state b).map fun s' =>
    let calls := s'.agenda.take (s'.agenda.length - t.pending.tail.length)
    { state := s'
      pending := calls.map (t.state.runner b, ·) ++ t.pending.tail
      requests := t.requests ++ t.pending.head?.toList.flatMap fun c => c.2.requestOf c.1 }

/-- `startAsync` makes the first calls. -/
def Attributed.start (s : State g) : Attributed g where
  state := startAsync s
  pending := (startAsync s).agenda.map (.start, ·)

variable {t t' : Attributed g}

/-- The calls with their callers are the calls. -/
def Attributed.Matches (t : Attributed g) : Prop :=
  t.pending.map Prod.snd = t.state.agenda

/-- While calls are left, a step makes the first one. -/
lemma agenda_call {b : Label} {c : Call (Fin g.size)} {rest : List (Call (Fin g.size))}
    (hagenda : s.agenda = c :: rest) (h : step a s b = some s') :
    b = .call ∧ ∃ calls, s'.agenda = calls ++ rest := by
  cases b with
  | call =>
    simp only [step, hagenda, Option.some.injEq] at h
    rw [← h]
    exact ⟨rfl, _, rfl⟩
  | task k => simp [step, hagenda] at h

/-- What a step does to the callers: the next call is taken away and those it makes are its
receiver's, or, when no call is left, a leaf makes some. -/
inductive Attribution (t t' : Attributed g) : Prop
  | call (q : Requestor (Fin g.size)) (c : Call (Fin g.size))
      (rest : List (Requestor (Fin g.size) × Call (Fin g.size))) (calls : List (Call (Fin g.size)))
      (hpending : t.pending = (q, c) :: rest) (hagenda : t.state.agenda = c :: rest.map Prod.snd)
      (hagenda' : t'.state.agenda = calls ++ rest.map Prod.snd)
      (hpending' : t'.pending = calls.map (c.receiver, ·) ++ rest)
      (hrequests : t'.requests = t.requests ++ c.requestOf q)
  | task (q : Requestor (Fin g.size)) (hpending : t.pending = []) (hagenda : t.state.agenda = [])
      (hpending' : t'.pending = t'.state.agenda.map (q, ·)) (hrequests : t'.requests = t.requests)

/-- **Inversion.** -/
lemma attribution {b : Label} (hmatches : t.Matches) (h : t.step a b = some t') :
    step a t.state b = some t'.state ∧ Attribution t t' := by
  obtain ⟨s', hstep, rfl⟩ := Option.map_eq_some_iff.mp h
  refine ⟨hstep, ?_⟩
  unfold Attributed.Matches at hmatches
  cases hpending : t.pending with
  | nil =>
    rw [hpending] at hmatches
    refine .task (t.state.runner b) hpending hmatches.symm ?_ ?_ <;> simp
  | cons head rest =>
    obtain ⟨q, c⟩ := head
    have hagenda : t.state.agenda = c :: rest.map Prod.snd := by
      rw [← hmatches, hpending]
      rfl
    obtain ⟨rfl, calls, hcalls⟩ := agenda_call hagenda hstep
    refine .call q c rest calls hpending hagenda hcalls ?_ ?_
    · simp [State.runner, hagenda, hcalls]
    · simp

lemma matches_step (h : Attribution t t') : t'.Matches := by
  unfold Attributed.Matches
  cases h with
  | call q c rest calls _ _ hagenda' hpending' => simp [hagenda', hpending', Function.comp_def]
  | task q _ _ hpending' => simp [hpending', Function.comp_def]

/-- A run with callers is a run. -/
lemma attributed_run {ok : Attributed g → Label → Prop}
    (h : RunsTo (Attributed.step a) ok (Attributed.start s) t) :
    t.Matches ∧ Reaches (step a) (startAsync s) t.state := by
  induction h with
  | refl => exact ⟨by simp [Attributed.Matches, Attributed.start, Function.comp_def], .refl⟩
  | tail _ _ hstep ih =>
    obtain ⟨hstep', hattribution⟩ := attribution ih.1 hstep
    exact ⟨matches_step hattribution, ih.2.tail trivial hstep'⟩

/-! ## The condition -/

/-- A decision that is about to arrive at a binary node that was told that nobody will ask comes
from the right composite, is the first one to arrive there and does not settle the matter. -/
def State.ArrivesInert (s : State g) (_ : Label) : Prop :=
  match s.agenda with
  | .decision (.node p) i d :: _ =>
    match g.kind p with
    | .binary logic l _ => (p, .noRequestComing) ∈ s.made →
      i ≠ l ∧ (s.node p).decisionsFromComposites = 0 ∧ logic.shortCircuitLogic d = .notStarted
    | .leaf => True
  | _ => True

instance (s : State g) (b : Label) : Decidable (s.ArrivesInert b) := by
  unfold State.ArrivesInert
  generalize s.agenda = agenda
  rcases agenda with _ | ⟨⟨i, request⟩ | ⟨_ | p, i, d⟩, rest⟩ <;> try exact .isTrue trivial
  dsimp only
  generalize g.kind p = kind
  rcases kind with _ | ⟨logic, l, r⟩ <;> infer_instance

variable {p i l r : Fin g.size} {logic : Logic} {d d' : ControlFlowStatus} {b : Label}
  {rest calls : List (Call (Fin g.size))} {n : NodeState} {fromLeft : Bool}

/-- What the condition says of a decision for a node that was told. -/
lemma State.ArrivesInert.arrives (h : s.ArrivesInert b)
    (hagenda : s.agenda = .decision (.node p) i d :: rest) (hkind : g.kind p = .binary logic l r)
    (htold : (p, .noRequestComing) ∈ s.made) :
    i ≠ l ∧ (s.node p).decisionsFromComposites = 0 ∧ logic.shortCircuitLogic d = .notStarted := by
  unfold State.ArrivesInert at h
  simp only [hagenda, hkind] at h
  exact h htold

/-- A node that sends a decision was not told. -/
lemma not_told_of_decides (h : s.ArrivesInert b)
    (hagenda : s.agenda = .decision (.node p) i d :: rest) (hkind : g.kind p = .binary logic l r)
    (hdecides : Decides logic r ((s.node p).store (i = l) d) (i = l) d' calls) :
    (p, .noRequestComing) ∉ s.made := by
  intro htold
  obtain ⟨hne, hnone, hshort⟩ := h.arrives hagenda hkind htold
  cases hdecides with
  | full hcount => simp [hnone] at hcount
  | left _ hleft => simp [hne] at hleft
  | right _ hleft hsettled => simp [hne, hshort] at hsettled

/-! ## Requests that a step makes -/

/-- A node that has started was told or asked. -/
lemma made_of_started (h : s.Recorded) (hstatus : s.status p ≠ .notStarted) :
    (p, .noRequestComing) ∈ s.made ∨ (p, .requestDecision) ∈ s.made := by
  have hone := h.made p
  rw [if_neg hstatus] at hone
  have hmem : p ∈ s.made.map Prod.fst := List.count_pos_iff.mp (by omega)
  obtain ⟨⟨q, σ⟩, hmade, rfl⟩ := List.mem_map.mp hmem
  cases σ with
  | requestDecision => exact .inr hmade
  | noRequestComing => exact .inl hmade

/-- It was told or asked once. -/
lemma count_made_le (h : s.Recorded) (p : Fin g.size) (σ : RequestState) :
    s.made.count (p, σ) ≤ if s.status p = .notStarted then 0 else 1 := by
  rw [← h.made p]
  exact List.count_le_count_map (f := Prod.fst) (x := (p, σ))

/-- A node is made to decide once, so in one way only. -/
lemma made_unique (h : s.Recorded) {σ τ : RequestState} (hσ : (p, σ) ∈ s.made)
    (hτ : (p, τ) ∈ s.made) : σ = τ := by
  by_contra hne
  have hone := h.made p
  have hperm := (List.perm_cons_erase hσ).map Prod.fst
  have hmem : p ∈ (s.made.erase (p, σ)).map Prod.fst :=
    List.mem_map.mpr ⟨_, (List.mem_erase_of_ne (by simp [Ne.symm hne])).mpr hτ, rfl⟩
  have hpos := List.count_pos_iff.mpr hmem
  rw [hperm.count_eq, List.map_cons, List.count_cons_self] at hone
  split at hone <;> omega

/-- A binary node that decides asks for nothing and tells only its right composite. -/
lemma Decides.request_mem (h : Decides logic r n fromLeft d calls) {j : Fin g.size}
    {σ : RequestState} (hmem : .request j σ ∈ calls) : j = r ∧ σ = .noRequestComing := by
  cases h with
  | full => cases hmem
  | left => simpa using hmem
  | right => cases hmem

/-- The calls of a step are what it puts in front of the rest. -/
lemma calls_eq (new : List (Call (Fin g.size))) {c c' : Call (Fin g.size)}
    {rest' : List (Call (Fin g.size))}
    (hagenda : s.agenda = c :: rest) (hagenda' : s'.agenda = calls ++ rest)
    (hbefore : s.agenda = c' :: rest') (hafter : s'.agenda = new ++ rest') :
    c = c' ∧ calls = new := by
  obtain ⟨rfl, rfl⟩ := List.cons.inj (hagenda.symm.trans hbefore)
  exact ⟨rfl, List.append_cancel_right (hagenda'.symm.trans hafter)⟩

/-- Who makes a new request, and why it may. -/
lemma new_request (hrecorded : s.Recorded) (harrives : s.ArrivesInert b) (hmoves : Moves a s s')
    {c : Call (Fin g.size)} (hagenda : s.agenda = c :: rest) (hagenda' : s'.agenda = calls ++ rest)
    {j : Fin g.size} {σ : RequestState} (hmem : .request j σ ∈ calls) :
    ∃ p, c.receiver = .node p ∧ j ∈ (g.kind p).composites ∧
      (σ = .requestDecision → (p, .requestDecision) ∈ s'.made) := by
  cases hmoves with
  | ignored h | counted h | madeLeaf h | finished h | stray h | stored h =>
    obtain ⟨-, rfl⟩ := calls_eq [] hagenda hagenda' h rfl
    cases hmem
  | @madeBinary i τ rest' logic l r h hstatus hkind =>
    obtain ⟨rfl, rfl⟩ := calls_eq (.request l τ ::
        if τ = .noRequestComing then [.request r τ] else []) hagenda hagenda' h rfl
    have hj : (j = l ∨ j = r) ∧ σ = τ := by
      cases τ with
      | requestDecision =>
        obtain ⟨rfl, rfl⟩ := by simpa using hmem
        exact ⟨.inl rfl, rfl⟩
      | noRequestComing =>
        simp only [if_true, List.mem_cons, Call.request.injEq, List.not_mem_nil, or_false] at hmem
        tauto
    obtain ⟨hj, rfl⟩ := hj
    exact ⟨i, rfl, by simpa [hkind, Kind.composites] using hj, fun hσ => by simp [hσ]⟩
  | @asked p d rest' logic l r h hkind hstatus =>
    obtain ⟨rfl, rfl⟩ := calls_eq [.request r .requestDecision] hagenda hagenda' h rfl
    obtain ⟨rfl, rfl⟩ := by simpa using hmem
    refine ⟨p, rfl, by simp [hkind, Kind.composites], fun _ => ?_⟩
    refine (made_of_started hrecorded (p := p) ?_).resolve_left fun htold => ?_
    · rw [State.status, hstatus]
      decide
    · -- a node that was told does not get its left decision first
      exact (harrives.arrives hagenda hkind htold).1 rfl
  | @decided p i d rest' logic l r d' calls' h hkind hstatus hdecides =>
    obtain ⟨rfl, rfl⟩ := calls_eq ((g.requestors p).map (.decision · p d') ++ calls')
        hagenda hagenda' h rfl
    have hnew : .request j σ ∈ calls' := by simpa using hmem
    obtain ⟨rfl, rfl⟩ := hdecides.request_mem hnew
    exact ⟨p, rfl, by simp [hkind, Kind.composites], fun hσ => by cases hσ⟩
  | ran h => rw [h] at hagenda; cases hagenda

/-- The record only grows. -/
lemma made_append (hmoves : Moves a s s') : ∃ new, s'.made = s.made ++ new := by
  cases statusStep hmoves with
  | same _ hmade | decided _ _ _ _ hmade | ran _ _ _ _ hmade =>
    exact ⟨[], hmade.trans (List.append_nil _).symm⟩
  | started i σ _ _ _ _ hmade => exact ⟨_, hmade⟩

/-- Nobody forgets that a node was told, or that it has decided. -/
lemma told_decided_mono (hmoves : Moves a s s') (q : Fin g.size) :
    s.made.count (q, .noRequestComing) ≤ s'.made.count (q, .noRequestComing) ∧
      s.decided q ≤ s'.decided q := by
  have hupdate : ∀ {i x}, s.status i ≠ .completed ∨ x = .completed →
      s'.status = Function.update s.status i x → s.decided q ≤ s'.decided q := by
    intro i x hx hstatus
    unfold State.decided
    rw [hstatus]
    by_cases hq : q = i
    · subst hq
      rw [Function.update_self]
      rcases hx with hne | rfl
      · simp [hne]
      · simp only [if_true]
        split <;> omega
    · rw [Function.update_of_ne hq]
  obtain ⟨new, hnew⟩ := made_append hmoves
  refine ⟨by rw [hnew, List.count_append]; omega, ?_⟩
  cases statusStep hmoves with
  | same hstatus => exact (decided_eq hstatus ▸ le_refl _)
  | started i σ x hbefore _ hstatus => exact hupdate (.inl (by simp [hbefore])) hstatus
  | decided i d hbefore hstatus => exact hupdate (.inr rfl) hstatus
  | ran i d _ hstatus => exact hupdate (.inr rfl) hstatus

/-- Two composites that are two nodes are told once each. -/
lemma count_told (hne : l ≠ r) (σ : RequestState) (j : Fin g.size) :
    (Call.request l σ :: if σ = .noRequestComing then [.request r σ] else []).count
      (.request j .noRequestComing) ≤ if σ = .noRequestComing then 1 else 0 := by
  cases σ with
  | requestDecision => simp
  | noRequestComing =>
    simp only [if_true, List.count_cons, List.count_nil, beq_iff_eq, Call.request.injEq, and_true]
    split <;> split <;> simp_all

/-- A node that decides tells its right composite once at most. -/
lemma Decides.count_le (h : Decides logic r n fromLeft d calls) (j : Fin g.size) :
    calls.count (.request j .noRequestComing) ≤ 1 := by
  cases h with
  | full | right => simp
  | left => exact List.count_le_length

lemma count_decisions (p : Fin g.size) (d : ControlFlowStatus) (j : Fin g.size) (σ : RequestState) :
    ((g.requestors p).map (Call.decision · p d)).count (.request j σ) = 0 := by
  refine List.count_eq_zero.mpr fun hmem => ?_
  simp at hmem

/-- How often a node has sent `NO_REQUEST_COMING` to another one: once if it was told itself, and
once if it has decided from the left. -/
lemma new_told (hg : g.Distinct) (hmoves : Moves a s s') {c : Call (Fin g.size)}
    (hagenda : s.agenda = c :: rest) (hagenda' : s'.agenda = calls ++ rest) (q j : Fin g.size) :
    s.made.count (q, .noRequestComing) + s.decided q
        + (if c.receiver = .node q then calls.count (.request j .noRequestComing) else 0)
      ≤ s'.made.count (q, .noRequestComing) + s'.decided q := by
  obtain ⟨hmade, hdecided⟩ := told_decided_mono hmoves q
  split
  next hq =>
    cases hmoves with
    | ignored h | counted h | madeLeaf h | finished h | stray h | stored h =>
      obtain ⟨-, rfl⟩ := calls_eq [] hagenda hagenda' h rfl
      simpa using Nat.add_le_add hmade hdecided
    | @madeBinary i σ rest' logic l r h hstatus hkind =>
      obtain ⟨rfl, rfl⟩ := calls_eq (.request l σ ::
        if σ = .noRequestComing then [.request r σ] else []) hagenda hagenda' h rfl
      obtain rfl : i = q := by simpa [Call.receiver] using hq
      -- the two composites are two nodes, so `j` is told once at most
      have hne := hg.left_ne_right hkind
      have hcount := count_told hne σ j
      have hlast : (s.made ++ [(i, σ)]).count (i, .noRequestComing)
          = s.made.count (i, .noRequestComing) + if σ = .noRequestComing then 1 else 0 := by
        cases σ <;> simp
      show _ ≤ (s.made ++ [(i, σ)]).count (i, .noRequestComing) + _
      rw [hlast]
      omega
    | @asked p d rest' logic l r h =>
      obtain ⟨rfl, rfl⟩ := calls_eq [.request r .requestDecision] hagenda hagenda' h rfl
      simpa using Nat.add_le_add hmade hdecided
    | @decided p i d rest' logic l r d' calls' h hkind hstatus hdecides =>
      obtain ⟨rfl, rfl⟩ := calls_eq ((g.requestors p).map (.decision · p d') ++ calls')
        hagenda hagenda' h rfl
      obtain rfl : p = q := by simpa [Call.receiver] using hq
      have hbefore : s.decided p = 0 := if_neg (by simp [State.status, hstatus])
      have hafter : ∀ t : State g, t.status p = .completed → t.decided p = 1 := fun t ht => if_pos ht
      rw [hbefore, hafter _ (by simp [State.status]), List.count_append, count_decisions]
      have hcount := hdecides.count_le j
      show s.made.count (p, .noRequestComing) + 0 + _ ≤ s.made.count (p, .noRequestComing) + 1
      omega
    | ran h => rw [h] at hagenda; cases hagenda
  next => omega

/-! ## Who was told by whom -/

/-- `q` has sent the request to node `i`, or is about to. -/
def Attributed.Requests (t : Attributed g) (q : Requestor (Fin g.size)) (i : Fin g.size)
    (σ : RequestState) : Prop :=
  (q, i, σ) ∈ t.requests ∨ (q, .request i σ) ∈ t.pending

/-- How often `q` has told node `i` that it will not ask, or is about to. -/
def Attributed.told (t : Attributed g) (q : Requestor (Fin g.size)) (i : Fin g.size) : ℕ :=
  t.requests.count (q, i, .noRequestComing) + t.pending.count (q, .request i .noRequestComing)

/-- How often node `i` was told. -/
def Attributed.toldBy (t : Attributed g) (i : Fin g.size) : List (Requestor (Fin g.size)) :=
  (t.requests.filter fun c => c.2 = (i, .noRequestComing)).map Prod.fst

/-- Nobody but a requestor tells a node anything; the `StartDecisionGraph` only asks, and a node
asks only if it was asked itself; it tells another one once, or has decided; and a node that was
told has not decided. -/
structure Attributed.Accounted (t : Attributed g) : Prop where
  requestor : ∀ q i σ, t.Requests q i σ → q ∈ g.requestors i
  start : ∀ i σ, t.Requests .start i σ → σ = .requestDecision
  asks : ∀ p j, t.Requests (.node p) j .requestDecision → (p, .requestDecision) ∈ t.state.made
  told : ∀ p i, t.told (.node p) i
    ≤ t.state.made.count (p, .noRequestComing) + t.state.decided p
  inert : ∀ p, (p, .noRequestComing) ∈ t.state.made →
    t.state.status p ≠ .completed ∧ t.state.status p ≠ .shouldRun

/-- A node is made to decide with `NO_REQUEST_COMING` when all its requestors have said so. -/
structure Attributed.Counted (t : Attributed g) : Prop where
  counter : ∀ i, (t.state.node i).willNotRunRequests ≤ (t.toldBy i).length
  made : ∀ i, (i, .noRequestComing) ∈ t.state.made →
    ∀ q ∈ g.requestors i, (q, i, .noRequestComing) ∈ t.requests

/-- A leaf makes no requests. -/
lemma request_notMem_of_nil (hmoves : Moves a s s') (hagenda : s.agenda = []) {σ : RequestState} :
    .request i σ ∉ s'.agenda := by
  cases hmoves with
  | ran => simp
  | _ h => rw [hagenda] at h; cases h

/-- The requests after a step: those before it and the new ones. -/
lemma requests_step (hmoves : Moves a t.state t'.state) (h : Attribution t t')
    (q : Requestor (Fin g.size)) (i : Fin g.size) (σ : RequestState) (hreq : t'.Requests q i σ) :
    t.Requests q i σ ∨ ∃ c rest calls, t.state.agenda = c :: rest ∧
      t'.state.agenda = calls ++ rest ∧ q = c.receiver ∧ .request i σ ∈ calls := by
  unfold Attributed.Requests at hreq ⊢
  cases h with
  | call q' c rest calls hpending hagenda hagenda' hpending' hrequests =>
    rw [hrequests, hpending', List.mem_append, List.mem_append] at hreq
    rw [hpending]
    rcases hreq with (hmem | hmem) | hmem | hmem
    · exact .inl (.inl hmem)
    · -- the request that was about to be made
      cases c with
      | request j τ =>
        obtain ⟨rfl, rfl, rfl⟩ := by simpa [Call.requestOf] using hmem
        exact .inl (.inr List.mem_cons_self)
      | decision => cases hmem
    · obtain ⟨c', hc', heq⟩ := List.mem_map.mp hmem
      obtain ⟨rfl, rfl⟩ := by simpa using heq
      exact .inr ⟨c, _, calls, hagenda, hagenda', rfl, hc'⟩
    · exact .inl (.inr (List.mem_cons_of_mem _ hmem))
  | task q' hpending hagenda hpending' hrequests =>
    rw [hrequests, hpending', List.mem_map] at hreq
    refine .inl (hreq.imp_right fun hmem => ?_)
    obtain ⟨c', hc', heq⟩ := hmem
    obtain ⟨-, rfl⟩ := by simpa using heq
    exact absurd hc' (request_notMem_of_nil hmoves hagenda)

/-- In a step a requestor tells a node only what the call of that requestor makes it tell. -/
lemma told_step (hmoves : Moves a t.state t'.state) (h : Attribution t t')
    (q : Requestor (Fin g.size)) (i : Fin g.size) :
    t'.told q i = t.told q i ∨ ∃ c rest calls, t.state.agenda = c :: rest ∧
      t'.state.agenda = calls ++ rest ∧ t'.told q i
        = t.told q i + if c.receiver = q then calls.count (.request i .noRequestComing) else 0 := by
  unfold Attributed.told
  cases h with
  | call q' c rest calls hpending hagenda hagenda' hpending' hrequests =>
    refine .inr ⟨c, _, calls, hagenda, hagenda', ?_⟩
    rw [hrequests, hpending', hpending]
    simp only [List.count_append, List.count_cons]
    have hhead : (c.requestOf q').count (q, i, .noRequestComing)
        = if ((q', c) == (q, Call.request i .noRequestComing)) = true then 1 else 0 := by
      cases c <;> simp [Call.requestOf, List.count_cons]
    have hnew : (calls.map (c.receiver, ·)).count (q, .request i .noRequestComing)
        = if c.receiver = q then calls.count (.request i .noRequestComing) else 0 := by
      split
      next hq =>
        subst hq
        exact List.count_map_of_injective calls (c.receiver, ·) (fun x y hxy => (Prod.mk.inj hxy).2)
          (.request i .noRequestComing)
      next hq =>
        refine List.count_eq_zero.mpr fun hmem => ?_
        obtain ⟨x, -, heq⟩ := List.mem_map.mp hmem
        exact hq (Prod.mk.inj heq).1
    rw [hhead, hnew]
    omega
  | task q' hpending hagenda hpending' hrequests =>
    left
    rw [hrequests, hpending, hpending', List.count_nil]
    have hnone : (t'.state.agenda.map (q', ·)).count (q, .request i .noRequestComing) = 0 := by
      refine List.count_eq_zero.mpr fun hmem => ?_
      obtain ⟨c', hc', heq⟩ := List.mem_map.mp hmem
      obtain ⟨-, rfl⟩ := by simpa using heq
      exact request_notMem_of_nil hmoves hagenda hc'
    rw [hnone]

/-- A node that was told has not decided and is no leaf with a task, whatever the step does. -/
lemma inert_step (hrecorded : s.Recorded) (harrives : s.ArrivesInert b) (hmoves : Moves a s s')
    (h : ∀ p, (p, .noRequestComing) ∈ s.made → s.status p ≠ .completed ∧ s.status p ≠ .shouldRun)
    (hp : (p, .noRequestComing) ∈ s'.made) :
    s'.status p ≠ .completed ∧ s'.status p ≠ .shouldRun := by
  have hsame : s'.status = s.status → s'.made = s.made →
      s'.status p ≠ .completed ∧ s'.status p ≠ .shouldRun := by
    intro hstatus hmade
    rw [hstatus]
    exact h p (hmade ▸ hp)
  -- another node starts, or this one does and is told
  have hstarted : ∀ {i σ x}, s.status i = .notStarted → Starts i σ x →
      s'.status = Function.update s.status i x → s'.made = s.made ++ [(i, σ)] →
      s'.status p ≠ .completed ∧ s'.status p ≠ .shouldRun := by
    intro i σ x hbefore hstarts hstatus hmade
    rw [hmade, List.mem_append] at hp
    rw [hstatus]
    by_cases hpi : p = i
    · subst hpi
      rw [Function.update_self]
      rcases hp with hbad | hnew
      · have hcount := count_made_le hrecorded p .noRequestComing
        rw [if_pos hbefore] at hcount
        exact absurd hbad (List.count_eq_zero.mp (by omega))
      · obtain rfl : .noRequestComing = σ := by simpa using hnew
        cases hstarts <;> decide
    · rw [Function.update_of_ne hpi]
      exact h p (hp.resolve_right (by simp [hpi]))
  have hdone : ∀ {i}, s'.status = Function.update s.status i .completed → s'.made = s.made →
      p ≠ i → s'.status p ≠ .completed ∧ s'.status p ≠ .shouldRun := by
    intro i hstatus hmade hpi
    rw [hstatus, Function.update_of_ne hpi]
    exact h p (hmade ▸ hp)
  cases hmoves with
  | ignored | finished | stray => exact hsame rfl rfl
  | counted => exact hsame (status_update_same _ _ _ rfl) rfl
  | stored | asked => exact hsame (status_update_same _ _ _ (by simp)) rfl
  | @madeLeaf i σ rest hagenda hstatus hkind =>
    refine hstarted hstatus ?_ (status_update _ _ _) rfl
    cases σ with
    | requestDecision => exact .asked hkind
    | noRequestComing => exact .told hkind
  | madeBinary hagenda hstatus hkind =>
    exact hstarted hstatus (.binary hkind) (status_update _ _ _) rfl
  | decided hagenda hkind hstatus hdecides =>
    refine hdone (status_update _ _ _) rfl fun hpq => ?_
    exact not_told_of_decides harrives hagenda hkind hdecides (hpq ▸ hp)
  | ran hagenda htask =>
    refine hdone (status_update _ _ _) rfl fun hpi => ?_
    subst hpi
    exact (h p hp).2 (hrecorded.status_of_mem_tasks (List.mem_of_getElem? htask))

/-- A step keeps the account, if what arrives leaves the nodes that were told inert. -/
lemma accounted_step (hg : g.Distinct) (hrecorded : t.state.Recorded)
    (harrives : t.state.ArrivesInert b) (hmoves : Moves a t.state t'.state)
    (hattribution : Attribution t t') (h : t.Accounted) : t'.Accounted := by
  have hnew : ∀ {q i σ}, t'.Requests q i σ → t.Requests q i σ ∨ ∃ p, q = .node p ∧
      i ∈ (g.kind p).composites ∧ (σ = .requestDecision → (p, .requestDecision) ∈ t'.state.made) := by
    intro q i σ hreq
    refine (requests_step hmoves hattribution q i σ hreq).imp_right ?_
    rintro ⟨c, rest, calls, hagenda, hagenda', rfl, hmem⟩
    exact new_request hrecorded harrives hmoves hagenda hagenda' hmem
  refine ⟨fun q i σ hreq => ?_, fun i σ hreq => ?_, fun p j hreq => ?_, fun p i => ?_,
    fun p hp => inert_step hrecorded harrives hmoves h.inert hp⟩
  · rcases hnew hreq with hbefore | ⟨p, rfl, hi, -⟩
    · exact h.requestor q i σ hbefore
    · exact DecisionGraph.mem_requestors hi
  · rcases hnew hreq with hbefore | ⟨p, hp, -⟩
    · exact h.start i σ hbefore
    · cases hp
  · rcases hnew hreq with hbefore | ⟨q, hq, -, hasked⟩
    · obtain ⟨new, hmade⟩ := made_append hmoves
      rw [hmade]
      exact List.mem_append_left _ (h.asks p j hbefore)
    · obtain rfl := by simpa using hq
      exact hasked rfl
  · obtain ⟨hmade, hdecided⟩ := told_decided_mono hmoves p
    have htold := h.told p i
    rcases told_step hmoves hattribution (.node p) i with heq | ⟨c, rest, calls, hagenda, hagenda', heq⟩
    · omega
    · have hle := new_told hg hmoves hagenda hagenda' p i
      omega

/-! ## The counter -/

lemma count_toldBy (t : Attributed g) (q : Requestor (Fin g.size)) (i : Fin g.size) :
    (t.toldBy i).count q = t.requests.count (q, i, .noRequestComing) := by
  unfold Attributed.toldBy
  induction t.requests with
  | nil => rfl
  | cons c l ih =>
    obtain ⟨q', j, σ⟩ := c
    rw [List.filter_cons, List.count_cons]
    by_cases hc : (j, σ) = (i, .noRequestComing)
    · obtain ⟨rfl, rfl⟩ := Prod.mk.inj hc
      simp [List.count_cons, ih]
    · rw [if_neg (by simpa using hc), ih]
      simp_all

/-- A node that was told as often as it has requestors was told by each of them. -/
lemma mem_requests_of_length (h : t.Accounted) (hrecorded : t.state.Recorded)
    (hlength : (g.requestors i).length ≤ (t.toldBy i).length) :
    ∀ q ∈ g.requestors i, (q, i, .noRequestComing) ∈ t.requests := by
  have hsubperm : (t.toldBy i).Subperm (g.requestors i) := by
    refine List.subperm_ext_iff.mpr fun q hq => ?_
    rw [count_toldBy]
    have hmem : (q, i, .noRequestComing) ∈ t.requests := by
      rw [← List.count_pos_iff, ← count_toldBy]
      exact List.count_pos_iff.mpr hq
    have hcount := List.count_pos_iff.mpr (h.requestor q i _ (.inl hmem))
    cases q with
    | start => cases h.start i _ (.inl hmem)
    | node p =>
      -- a parent tells the node once: it was told itself, or it has decided
      have htold := h.told p i
      have hone : t.state.made.count (p, .noRequestComing) + t.state.decided p ≤ 1 := by
        have hle := decided_le t.state p
        by_cases hmade : (p, .noRequestComing) ∈ t.state.made
        · have hnot : t.state.decided p = 0 := if_neg (h.inert p hmade).1
          have honce := count_made_le hrecorded p .noRequestComing
          split at honce <;> omega
        · rw [List.count_eq_zero.mpr hmade]
          omega
      unfold Attributed.told at htold
      omega
  intro q hq
  have hperm := hsubperm.perm_of_length_le hlength
  rw [← List.count_pos_iff, ← count_toldBy]
  exact List.count_pos_iff.mpr (hperm.mem_iff.mpr hq)

/-- A request is recorded, with its caller. -/
lemma requests_request {σ : RequestState} (h : Attribution t t')
    (hagenda : t.state.agenda = .request i σ :: rest) :
    ∃ q, t'.requests = t.requests ++ [(q, i, σ)] := by
  cases h with
  | call q c _ _ _ hagenda' _ _ hrequests =>
    obtain ⟨rfl, -⟩ := List.cons.inj (hagenda.symm.trans hagenda')
    exact ⟨q, hrequests⟩
  | task _ _ hnil => rw [hnil] at hagenda; cases hagenda

lemma requests_append (h : Attribution t t') : ∃ new, t'.requests = t.requests ++ new := by
  cases h with
  | call _ _ _ _ _ _ _ _ hrequests => exact ⟨_, hrequests⟩
  | task _ _ _ _ hrequests => exact ⟨[], by rw [hrequests, List.append_nil]⟩

/-- One more entry for each new request that says so. -/
lemma toldBy_append {new : List (Requestor (Fin g.size) × Fin g.size × RequestState)}
    (h : t'.requests = t.requests ++ new) (i : Fin g.size) :
    (t'.toldBy i).length
      = (t.toldBy i).length + (new.filter fun c => c.2 = (i, .noRequestComing)).length := by
  simp [Attributed.toldBy, h]

/-- What a step does to the counters of the nodes. -/
inductive CounterStep (s s' : State g) : Prop
  | same (hcounter : ∀ j, (s'.node j).willNotRunRequests = (s.node j).willNotRunRequests)
      (hmade : s'.made = s.made)
  | request (i : Fin g.size) (σ : RequestState) (rest : List (Call (Fin g.size)))
      (hagenda : s.agenda = .request i σ :: rest)
      (hother : ∀ j, j ≠ i → (s'.node j).willNotRunRequests = (s.node j).willNotRunRequests)
      (hcounter : (s'.node i).willNotRunRequests = σ.count (s.node i).willNotRunRequests)
      (hmade : s'.made = s.made ∨ s'.made = s.made ++ [(i, σ)] ∧
        (σ = .noRequestComing → (s.node i).willNotRunRequests + 1 = (g.requestors i).length))

lemma willNotRunRequests_same (s : State g) (i : Fin g.size) {n : NodeState}
    (h : n.willNotRunRequests = (s.node i).willNotRunRequests) (j : Fin g.size) :
    (Function.update s.node i n j).willNotRunRequests = (s.node j).willNotRunRequests := by
  by_cases hj : j = i
  · subst hj
    rw [Function.update_self, h]
  · rw [Function.update_of_ne hj]

/-- Only a request changes a counter. -/
lemma counterStep (hmoves : Moves a s s') : CounterStep s s' := by
  have hother : ∀ (i : Fin g.size) (n : NodeState) (j : Fin g.size), j ≠ i →
      (Function.update s.node i n j).willNotRunRequests = (s.node j).willNotRunRequests := by
    intro i n j hj
    rw [Function.update_of_ne hj]
  cases hmoves with
  | ignored | finished | stray => exact .same (fun _ => rfl) rfl
  | stored | asked | decided => exact .same (willNotRunRequests_same s _ (by simp)) rfl
  | ran => exact .same (willNotRunRequests_same s _ rfl) rfl
  | @counted i rest hagenda =>
    exact .request i _ rest hagenda (hother i _) (by simp [RequestState.count]) (.inl rfl)
  | @madeLeaf i σ rest hagenda _ _ hcount =>
    exact .request i σ rest hagenda (hother i _) (by simp) (.inr ⟨rfl, hcount⟩)
  | @madeBinary i σ rest _ _ _ hagenda _ _ hcount =>
    exact .request i σ rest hagenda (hother i _) (by simp) (.inr ⟨rfl, hcount⟩)

/-- Each request that a counter counts is on record. -/
lemma counted_step (hmoves : Moves a t.state t'.state) (hattribution : Attribution t t')
    (haccounted : t'.Accounted) (hrecorded : t'.state.Recorded) (h : t.Counted) : t'.Counted := by
  obtain ⟨new, hnew⟩ := requests_append hattribution
  have hmono : ∀ i, (t.toldBy i).length ≤ (t'.toldBy i).length := by
    intro i
    rw [toldBy_append hnew]
    omega
  have hkeep : ∀ i, (i, .noRequestComing) ∈ t.state.made →
      ∀ q ∈ g.requestors i, (q, i, .noRequestComing) ∈ t'.requests := by
    intro i hi q hq
    rw [hnew]
    exact List.mem_append_left _ (h.made i hi q hq)
  cases counterStep hmoves with
  | same hcounter hmade =>
    refine ⟨fun i => ?_, fun i hi => hkeep i (hmade ▸ hi)⟩
    rw [hcounter]
    exact (h.counter i).trans (hmono i)
  | request i σ rest hagenda hother hcounter hmade =>
    -- the request is recorded when it is counted
    obtain ⟨q, hrequest⟩ := requests_request hattribution hagenda
    have htold := toldBy_append hrequest i
    have hi := h.counter i
    have hcount : (t'.state.node i).willNotRunRequests ≤ (t'.toldBy i).length := by
      rw [hcounter, htold]
      cases σ with
      | requestDecision => exact hi.trans (Nat.le_add_right _ _)
      | noRequestComing => simpa [RequestState.count] using hi
    refine ⟨fun j => ?_, fun j hj => ?_⟩
    · by_cases hji : j = i
      · rw [hji]
        exact hcount
      · rw [hother j hji]
        exact (h.counter j).trans (hmono j)
    · rcases hmade with hmade | ⟨hmade, hall⟩
      · exact hkeep j (hmade ▸ hj)
      · rw [hmade] at hj
        rcases List.mem_append.mp hj with hj | hj
        · exact hkeep j hj
        · obtain ⟨rfl, rfl⟩ := by simpa using hj
          refine mem_requests_of_length haccounted hrecorded ?_
          rw [← hall rfl]
          rw [hcounter] at hcount
          exact hcount

/-! ## Runs -/

/-- The condition, for a state with callers. -/
def Attributed.ArrivesInert (t : Attributed g) (b : Label) : Prop :=
  t.state.ArrivesInert b

instance (t : Attributed g) (b : Label) : Decidable (t.ArrivesInert b) :=
  inferInstanceAs (Decidable (t.state.ArrivesInert b))

/-- At the start the only requests are those to the roots. -/
lemma State.Ready.accounted (h : s.Ready) : (Attributed.start s).Accounted := by
  have hmade : (startAsync s).made = [] := h.made
  have hcall : ∀ {c}, c ∈ (Attributed.start s).pending →
      ∃ i ∈ g.leafNodes, c = (.start, .request i .requestDecision) := by
    intro c hc
    simpa [Attributed.start, startAsync, eq_comm] using hc
  have hrequests : ∀ {q i σ}, (Attributed.start s).Requests q i σ →
      q = .start ∧ i ∈ g.leafNodes ∧ σ = .requestDecision := by
    intro q i σ hreq
    obtain ⟨j, hj, heq⟩ := hcall (hreq.resolve_left List.not_mem_nil)
    obtain ⟨rfl, rfl, rfl⟩ := by simpa using heq
    exact ⟨rfl, hj, rfl⟩
  refine ⟨fun q i σ hreq => ?_, fun i σ hreq => (hrequests hreq).2.2, fun p j hreq => ?_,
    fun p i => ?_, fun p hp => ?_⟩
  · obtain ⟨rfl, hi, -⟩ := hrequests hreq
    rw [← List.count_pos_iff, g.count_start]
    exact List.count_pos_iff.mpr hi
  · cases (hrequests hreq).1
  · have hnone : (Attributed.start s).told (.node p) i = 0 := by
      refine Nat.add_eq_zero_iff.mpr ⟨rfl, List.count_eq_zero.mpr fun hmem => ?_⟩
      obtain ⟨j, -, heq⟩ := hcall hmem
      simp at heq
    rw [hnone]
    exact Nat.zero_le _
  · rw [show (Attributed.start s).state.made = _ from hmade] at hp
    cases hp

lemma State.Ready.counted (h : s.Ready) : (Attributed.start s).Counted := by
  refine ⟨fun i => ?_, fun i hi => ?_⟩
  · rw [show ((Attributed.start s).state.node i).willNotRunRequests = _ from h.willNotRunRequests i]
    exact Nat.zero_le _
  · rw [show (Attributed.start s).state.made = _ from h.made] at hi
    cases hi

/-- Along a run on which whatever arrives at a node that was told leaves it inert. -/
theorem accounted (hg : g.Distinct) (h : s.Ready)
    (hrun : RunsTo (Attributed.step a) Attributed.ArrivesInert (Attributed.start s) t) :
    t.Accounted ∧ t.Counted := by
  refine hrun.invariant_of (I := fun t => t.Accounted ∧ t.Counted)
    (J := fun t : Attributed g => t.Matches ∧ t.state.Recorded) (fun hrun => ?_)
    ⟨h.accounted, h.counted⟩ ?_
  · obtain ⟨hmatches, hreaches⟩ := attributed_run hrun
    exact ⟨hmatches, recorded h hreaches⟩
  · intro t b t' hJ ht harrives hstep
    obtain ⟨hstep', hattribution⟩ := attribution hJ.1 hstep
    have hmoves := moves hstep'
    have haccounted := accounted_step hg hJ.2 harrives hmoves hattribution ht.1
    exact ⟨haccounted, counted_step hmoves hattribution haccounted (recorded_step hmoves hJ.2) ht.2⟩

/-! ## Inertness -/

/-- A node is made to decide with `NO_REQUEST_COMING` only if each of its requestors has sent it
`NO_REQUEST_COMING`, and then it sends no decision and no `REQUEST_DECISION`. -/
structure Attributed.Inert (t : Attributed g) : Prop where
  told : ∀ i, (i, .noRequestComing) ∈ t.state.made →
    ∀ q ∈ g.requestors i, (q, i, .noRequestComing) ∈ t.requests
  sent : ∀ i, (i, .noRequestComing) ∈ t.state.made → ∀ d, (i, d) ∉ t.state.sent
  asks : ∀ i, (i, .noRequestComing) ∈ t.state.made →
    ∀ j, (.node i, j, .requestDecision) ∉ t.requests

/-- The account has the three parts of inertness. -/
lemma inert_of_accounted (hrecorded : t.state.Recorded) (h : t.Accounted) (hcounted : t.Counted) :
    t.Inert := by
  refine ⟨hcounted.made, fun i hi d hsent => ?_, fun i hi j hasks => ?_⟩
  · have hcount := hrecorded.sent i
    rw [if_neg (h.inert i hi).1] at hcount
    exact List.count_eq_zero.mp hcount (List.mem_map_of_mem hsent)
  · have hasked := h.asks i j (.inl hasks)
    cases made_unique hrecorded hasked hi

/-- What a node in progress does with a decision that does not leave it inert: it sends its own,
or it asks the right composite with the next call. -/
lemma acts_of_arrival (hg : g.Distinct) {f : ℕ} (hdelivered : s.Delivered f) (hmoves : Moves a s s')
    (hagenda : s.agenda = .decision (.node p) i d :: rest) (hkind : g.kind p = .binary logic l r)
    (hstatus : s.status p = .inProgress)
    (h : ¬ (i ≠ l ∧ (s.node p).decisionsFromComposites = 0 ∧
      logic.shortCircuitLogic d = .notStarted)) :
    (∃ d', (p, d') ∈ s'.sent) ∨ s'.agenda = [.request r .requestDecision] ++ rest := by
  have hnext := hdelivered.next hkind (hg.left_ne_right hkind) hagenda
  have htwo := hdelivered.count p logic l r hkind (hg.left_ne_right hkind)
  cases hmoves with
  | ignored hagenda' | counted hagenda' | madeLeaf hagenda' | madeBinary hagenda'
    | finished hagenda' => rw [hagenda'] at hagenda; cases hagenda
  | stray hagenda' hkind' =>
    obtain ⟨⟨rfl, rfl, rfl⟩, rfl⟩ := by simpa using hagenda.symm.trans hagenda'
    rw [hkind] at hkind'
    cases hkind'
  | stored hagenda' hkind' hwaits =>
    obtain ⟨⟨rfl, rfl, rfl⟩, rfl⟩ := by simpa using hagenda.symm.trans hagenda'
    obtain ⟨rfl, rfl, rfl⟩ := by simpa using hkind.symm.trans hkind'
    -- the node waits on: the decision is the right one, and the left one is not there
    obtain ⟨hcount, hfrom, hshort⟩ := hwaits.resolve_left (by simpa [State.status] using hstatus)
    have hne : i ≠ l := by simpa using hfrom
    obtain ⟨rfl, hnot⟩ := hnext.2.2.resolve_left fun hl => hne hl.1
    refine absurd ⟨hne, ?_, by simpa [hne] using hshort⟩ h
    rw [arrived_eq_zero.mpr hnot] at htwo
    have hle : (s.node p).leftDecision.arrived ≤ 1 := by
      unfold ControlFlowStatus.arrived
      split <;> omega
    rw [store_decisionsFromComposites] at hcount
    omega
  | asked hagenda' hkind' =>
    obtain ⟨⟨rfl, rfl, rfl⟩, rfl⟩ := by simpa using hagenda.symm.trans hagenda'
    obtain ⟨rfl, -, rfl⟩ := by simpa using hkind.symm.trans hkind'
    exact .inr rfl
  | @decided _ _ _ _ _ _ _ d' _ hagenda' =>
    obtain ⟨⟨rfl, rfl, rfl⟩, rfl⟩ := by simpa using hagenda.symm.trans hagenda'
    exact .inl ⟨d', by simp⟩
  | ran hagenda' => rw [hagenda'] at hagenda; cases hagenda

/-- A request that is the next call is made by the node whose member function put it there. -/
lemma asks_next (hattribution : Attribution t t')
    (hagenda : t.state.agenda = .decision (.node p) i d :: rest)
    (hasked : t'.state.agenda = [.request r .requestDecision] ++ rest) :
    ∃ u, t'.step a .call = some u ∧ (.node p, r, .requestDecision) ∈ u.requests ∧
      ∃ new, u.state.made = t'.state.made ++ new := by
  obtain ⟨s'', hs''⟩ : ∃ s'', step a t'.state .call = some s'' := by simp [step, hasked]
  obtain ⟨u, hu⟩ : ∃ u, t'.step a .call = some u := by
    unfold Attributed.step
    rw [hs'']
    exact ⟨_, rfl⟩
  obtain ⟨hstep, hnext⟩ := attribution (matches_step hattribution) hu
  obtain ⟨new, hmade⟩ := made_append (moves hstep)
  refine ⟨u, hu, ?_, new, hmade⟩
  have hpending : ∃ rest', t'.pending = (.node p, .request r .requestDecision) :: rest' := by
    cases hattribution with
    | call q c rest' calls hpending hagenda' hcalls hpending' =>
      obtain ⟨rfl, rfl⟩ := List.cons.inj (hagenda.symm.trans hagenda')
      obtain rfl := List.append_cancel_right (hcalls.symm.trans hasked)
      exact ⟨rest', hpending'⟩
    | task _ _ hnil => rw [hnil] at hagenda; cases hagenda
  obtain ⟨rest', hpending⟩ := hpending
  cases hnext with
  | call q c _ _ hpending' _ _ _ hrequests =>
    obtain ⟨heq, -⟩ := List.cons.inj (hpending.symm.trans hpending')
    obtain ⟨rfl, rfl⟩ := Prod.mk.inj heq
    rw [hrequests]
    exact List.mem_append_right _ (List.mem_singleton_self _)
  | task _ hnil => rw [hnil] at hpending; cases hpending

/-- A decision that does not leave a node inert that was told makes it act. -/
lemma not_inert_of_arrival (hg : g.Distinct) {f : ℕ} (hmatches : t.Matches)
    (hrecorded : t.state.Recorded) (hdelivered : t.state.Delivered f) (haccounted : t.Accounted)
    (hstep : t.step a b = some t') (h : ¬ t.ArrivesInert b) :
    ∃ u, Reaches (Attributed.step a) t' u ∧ ¬ u.Inert := by
  obtain ⟨hstep', hattribution⟩ := attribution hmatches hstep
  have hmoves := moves hstep'
  unfold Attributed.ArrivesInert State.ArrivesInert at h
  split at h
  next p i d rest hagenda =>
    split at h
    next logic l r hkind =>
      obtain ⟨htold, hacts⟩ := Classical.not_imp.mp h
      have hstatus : t.state.status p = .inProgress := by
        have hnot := haccounted.inert p htold
        have hbinary := hrecorded.binary p logic l r hkind
        have hcount := count_made_le hrecorded p .noRequestComing
        have hpos := List.count_pos_iff.mpr htold
        cases hs : t.state.status p <;> simp_all
      have htold' : (p, .noRequestComing) ∈ t'.state.made := by
        obtain ⟨new, hmade⟩ := made_append hmoves
        rw [hmade]
        exact List.mem_append_left _ htold
      rcases acts_of_arrival hg hdelivered hmoves hagenda hkind hstatus hacts with ⟨d', hsent⟩ | hasked
      · exact ⟨t', .refl, fun hinert => hinert.sent p htold' d' hsent⟩
      · obtain ⟨u, hu, hrequest, new, hmade⟩ := asks_next hattribution hagenda hasked
        refine ⟨u, .tail .refl trivial hu, fun hinert => ?_⟩
        refine hinert.asks p ?_ r hrequest
        rw [hmade]
        exact List.mem_append_left _ htold'
    next => exact absurd trivial h
  next => exact absurd trivial h

/-- **A node that nobody needs stays inert** as long as no decision arrives on which it acts; when
one arrives, it acts. -/
theorem not_needed_inert (g : DecisionGraph) (hg : g.Distinct) (a : Assignment g) (t : Attributed g)
    (hrun : RunsTo (Attributed.step a) Attributed.ArrivesInert (Attributed.start {}) t) :
    t.Inert ∧ ∀ b t', t.step a b = some t' → ¬ t.ArrivesInert b →
      ∃ u, Reaches (Attributed.step a) t' u ∧ ¬ u.Inert := by
  obtain ⟨hmatches, hreaches⟩ := attributed_run hrun
  have hrecorded := recorded ready_default hreaches
  obtain ⟨haccounted, hcounted⟩ := accounted hg ready_default hrun
  refine ⟨inert_of_accounted hrecorded haccounted hcounted, fun b t' hstep harrives => ?_⟩
  have hdelivered := delivered ready_default hreaches
  exact not_inert_of_arrival hg hmatches hrecorded hdelivered haccounted hstep harrives

/-- The leaf `a` decides for `SKIP`, the other two for `GO`. -/
def unneededStatus : Assignment unneededGraph where
  status := ![.skip, .go, .go, .go, .go]
  status_ne := show ∀ i : Fin 5, _ by decide

/-- `Q` and `x` are asked, `a` decides, and `Q` tells `P` that it will not ask; `P` tells `x`, which
was asked before, and `y`. -/
def toldUnneeded : List Label :=
  [.call, .call, .call, .task 0, .call, .call, .call, .call, .call]

/-- Then the leaf `x` decides, and `P` asks `y`. -/
def asksThough : List Label :=
  toldUnneeded ++ [.task 0, .call, .call]

theorem not_needed_inert_unneeded : ∃ t : Attributed unneededGraph,
    (⟨3, by decide⟩, .noRequestComing) ∈ t.state.made ∧ t.Inert := by
  have hrun : ∃ t, execute (Attributed.step unneededStatus) (fun t b => decide (t.ArrivesInert b))
      (Attributed.start {}) toldUnneeded = some t ∧
        (⟨3, by decide⟩, .noRequestComing) ∈ t.state.made := ⟨_, rfl, by decide⟩
  obtain ⟨t, ht, hmade⟩ := hrun
  refine ⟨t, hmade, (not_needed_inert unneededGraph (by decide) unneededStatus t ?_).1⟩
  exact .of_execute _ (fun _ _ h => of_decide_eq_true h) ht

/-- **A node that nobody needs can ask.** `P` was told that nobody will ask, and asks `y`. -/
theorem not_needed_asks :
    ¬ ∀ (g : DecisionGraph) (a : Assignment g) (t : Attributed g), g.Distinct →
      Reaches (Attributed.step a) (Attributed.start {}) t → t.Inert := by
  have hrun : ∃ t, executeAll (Attributed.step unneededStatus) (Attributed.start {}) asksThough
      = some t ∧ (⟨3, by decide⟩, .noRequestComing) ∈ t.state.made ∧
        (.node ⟨3, by decide⟩, ⟨2, by decide⟩, .requestDecision) ∈ t.requests :=
    ⟨_, rfl, by decide, by decide⟩
  obtain ⟨t, ht, hmade, hasks⟩ := hrun
  intro hall
  exact (hall unneededGraph unneededStatus t (by decide) (.of_executeAll _ ht)).asks _ hmade _ hasks

end UnifyPrototype.ControlFlow
