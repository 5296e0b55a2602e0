import UnifyPrototype.ControlFlow.Evaluation
import UnifyPrototype.ControlFlow.Delivery

/-!
# Decisions in shared graphs

What a decision of a node in a shared graph follows from: the left decision alone, the right one
alone, or both, each of them sent in the same run. A decision other than `EXCEPTION` is then the
value of the Boolean formula under the node. Two runs can differ at a node only through a race:
one takes the `EXCEPTION` of one composite, the other what the other composite settles.
-/

namespace UnifyPrototype.ControlFlow

open UnifyPrototype.Utils

variable {g : DecisionGraph} {a : Assignment g} {i j l r : Fin g.size} {logic : Logic}
  {d d' x y : ControlFlowStatus} {sent sent' : List (Fin g.size × ControlFlowStatus)}

/-! ## What a decision follows from -/

/-- The nodes of the sub-graph under `i`, `i` included. -/
def DecisionGraph.Below (g : DecisionGraph) : Fin g.size → Fin g.size → Prop :=
  Relation.ReflTransGen fun j k => k ∈ (g.kind j).composites

lemma below_left (hkind : g.kind i = .binary logic l r) {k : Fin g.size} (h : g.Below l k) :
    g.Below i k :=
  .head (by simp [hkind, Kind.composites]) h

lemma below_right (hkind : g.kind i = .binary logic l r) {k : Fin g.size} (h : g.Below r k) :
    g.Below i k :=
  .head (by simp [hkind, Kind.composites]) h

/-- What makes a node decide: a leaf has its own decision; a binary node takes over the one of a
composite that settles the matter, or what the full logic makes of one of each composite. The
decisions of the composites are among those that were sent. -/
inductive Follows (a : Assignment g) (sent : List (Fin g.size × ControlFlowStatus)) :
    Fin g.size → ControlFlowStatus → Prop
  | leaf {i : Fin g.size} (hkind : g.kind i = .leaf) : Follows a sent i (a.status i)
  | left {i l r : Fin g.size} {logic : Logic} {d : ControlFlowStatus}
      (hkind : g.kind i = .binary logic l r) (hsettles : logic.Settles d)
      (hl : (l, d) ∈ sent) : Follows a sent i d
  | right {i l r : Fin g.size} {logic : Logic} {d : ControlFlowStatus}
      (hkind : g.kind i = .binary logic l r) (hsettles : logic.Settles d)
      (hr : (r, d) ∈ sent) : Follows a sent i d
  | full {i l r : Fin g.size} {logic : Logic} {x y : ControlFlowStatus}
      (hkind : g.kind i = .binary logic l r) (hl : (l, x) ∈ sent)
      (hr : (r, y) ∈ sent) : Follows a sent i (logic.fullDecisionLogic x y)

/-- Every decision follows from others that were sent. -/
def Grounded (a : Assignment g) (sent : List (Fin g.size × ControlFlowStatus)) : Prop :=
  ∀ i d, (i, d) ∈ sent → Follows a sent i d

/-- What follows from the decisions sent so far follows from them later on. -/
lemma Follows.mono (h : Follows a sent i d) (hsent : ∀ c ∈ sent, c ∈ sent') :
    Follows a sent' i d := by
  cases h with
  | leaf hkind => exact .leaf hkind
  | left hkind hsettles hl => exact .left hkind hsettles (hsent _ hl)
  | right hkind hsettles hr => exact .right hkind hsettles (hsent _ hr)
  | full hkind hl hr => exact .full hkind (hsent _ hl) (hsent _ hr)

/-- A leaf sends the decision it was given. -/
lemma Follows.eq_status (h : Follows a sent i d) (hkind : g.kind i = .leaf) : d = a.status i := by
  cases h with
  | leaf => rfl
  | left hbinary | right hbinary | full hbinary => rw [hkind] at hbinary; cases hbinary

/-- The three ways of a binary node. -/
lemma Follows.binary (h : Follows a sent i d) (hkind : g.kind i = .binary logic l r) :
    logic.Settles d ∧ (l, d) ∈ sent ∨ logic.Settles d ∧ (r, d) ∈ sent ∨
      ∃ x y, (l, x) ∈ sent ∧ (r, y) ∈ sent ∧ d = logic.fullDecisionLogic x y := by
  cases h with
  | leaf hleaf => rw [hkind] at hleaf; cases hleaf
  | left hkind' hsettles hl =>
    obtain ⟨rfl, rfl, rfl⟩ := by simpa using hkind.symm.trans hkind'
    exact .inl ⟨hsettles, hl⟩
  | right hkind' hsettles hr =>
    obtain ⟨rfl, rfl, rfl⟩ := by simpa using hkind.symm.trans hkind'
    exact .inr (.inl ⟨hsettles, hr⟩)
  | full hkind' hl hr =>
    obtain ⟨rfl, rfl, rfl⟩ := by simpa using hkind.symm.trans hkind'
    exact .inr (.inr ⟨_, _, hl, hr, rfl⟩)

/-- One more decision that follows may be sent. -/
lemma Grounded.concat (h : Grounded a sent) (hd : Follows a sent i d) :
    Grounded a (sent ++ [(i, d)]) := by
  have hmono : ∀ c ∈ sent, c ∈ sent ++ [(i, d)] := fun c hc => List.mem_append_left _ hc
  intro j dj hmem
  rcases List.mem_append.mp hmem with hold | hnew
  · exact (h j dj hold).mono hmono
  · obtain ⟨rfl, rfl⟩ := by simpa using hnew
    exact hd.mono hmono

/-- **Induction along the graph.** A property of decisions that the leaves have and that every
binary node takes over from its composites holds of everything that is sent. -/
lemma Grounded.induction (h : Grounded a sent) {P : Fin g.size → ControlFlowStatus → Prop}
    (hleaf : ∀ i, g.kind i = .leaf → P i (a.status i))
    (hleft : ∀ i logic l r d, g.kind i = .binary logic l r → logic.Settles d → P l d → P i d)
    (hright : ∀ i logic l r d, g.kind i = .binary logic l r → logic.Settles d → P r d → P i d)
    (hfull : ∀ i logic l r x y, g.kind i = .binary logic l r → P l x → P r y →
      P i (logic.fullDecisionLogic x y)) (hmem : (i, d) ∈ sent) : P i d := by
  induction i using Fin.strong_induction_on generalizing d with
  | h i ih =>
    cases h i d hmem with
    | leaf hkind => exact hleaf i hkind
    | left hkind hsettles hl =>
      exact hleft i _ _ _ d hkind hsettles (ih _ (DecisionGraph.left_lt hkind) hl)
    | right hkind hsettles hr =>
      exact hright i _ _ _ d hkind hsettles (ih _ (DecisionGraph.right_lt hkind) hr)
    | full hkind hl hr =>
      exact hfull i _ _ _ _ _ hkind (ih _ (DecisionGraph.left_lt hkind) hl)
        (ih _ (DecisionGraph.right_lt hkind) hr)

/-- What is sent is a decision. -/
lemma Grounded.ne_notStarted (h : Grounded a sent) (hmem : (i, d) ∈ sent) : d ≠ .notStarted :=
  h.induction (P := fun _ d => d ≠ .notStarted) (fun i _ => a.status_ne i)
    (fun _ _ _ _ _ _ _ hd => hd) (fun _ _ _ _ _ _ _ hd => hd)
    (fun _ _ _ _ _ _ _ _ _ => fullDecisionLogic_ne _ _ _) hmem

/-! ## The Boolean formula -/

/-- The Boolean formula of the sub-graph under a node: `GO` is true, `And` is the conjunction and
`Or` the disjunction. -/
def formula (a : Assignment g) (i : Fin g.size) : Bool :=
  match _hkind : g.kind i with
  | .leaf => a.status i = .go
  | .binary .and l r => formula a l && formula a r
  | .binary .or l r => formula a l || formula a r
termination_by i.val
decreasing_by
  all_goals first
    | exact DecisionGraph.left_lt _hkind
    | exact DecisionGraph.right_lt _hkind

lemma formula_leaf (h : g.kind i = .leaf) : formula a i = decide (a.status i = .go) := by
  rw [formula]
  split
  next => rfl
  next hkind => rw [h] at hkind; cases hkind
  next hkind => rw [h] at hkind; cases hkind

lemma formula_and (h : g.kind i = .binary .and l r) :
    formula a i = (formula a l && formula a r) := by
  rw [formula]
  split
  next hkind => rw [h] at hkind; cases hkind
  next hkind =>
    obtain ⟨rfl, rfl⟩ := by simpa using h.symm.trans hkind
    rfl
  next hkind => rw [h] at hkind; cases hkind

lemma formula_or (h : g.kind i = .binary .or l r) :
    formula a i = (formula a l || formula a r) := by
  rw [formula]
  split
  next hkind => rw [h] at hkind; cases hkind
  next hkind => rw [h] at hkind; cases hkind
  next hkind =>
    obtain ⟨rfl, rfl⟩ := by simpa using h.symm.trans hkind
    rfl

/-- The decision that stands for a truth value. -/
def ofBool (b : Bool) : ControlFlowStatus :=
  if b then .go else .skip

/-- A composite that settles the matter decides the formula. -/
lemma formula_of_settles (hkind : g.kind i = .binary logic l r) {b : Bool}
    (hsettles : logic.Settles (ofBool b)) (h : formula a l = b ∨ formula a r = b) :
    formula a i = b := by
  cases logic with
  | and =>
    -- a conjunction is settled by a false part
    cases b with
    | false =>
      rw [formula_and hkind, Bool.and_eq_false_iff]
      exact h
    | true => simp [ofBool, Logic.Settles] at hsettles
  | or =>
    cases b with
    | false => simp [ofBool, Logic.Settles] at hsettles
    | true =>
      rw [formula_or hkind, Bool.or_eq_true]
      exact h

/-- For `GO` and `SKIP` the full decision is the boolean operation. -/
lemma fullDecisionLogic_ofBool (hkind : g.kind i = .binary logic l r) :
    logic.fullDecisionLogic (ofBool (formula a l)) (ofBool (formula a r))
      = ofBool (formula a i) := by
  cases logic with
  | and =>
    rw [formula_and hkind]
    cases formula a l <;> cases formula a r <;> rfl
  | or =>
    rw [formula_or hkind]
    cases formula a l <;> cases formula a r <;> rfl

lemma ne_exception_of_full (h : logic.fullDecisionLogic x y ≠ .exception) :
    x ≠ .exception ∧ y ≠ .exception := by
  revert h
  cases logic <;> cases x <;> cases y <;> decide

/-- **A decision other than `EXCEPTION` is the value of the formula.** -/
theorem Grounded.eq_formula (h : Grounded a sent) (hmem : (i, d) ∈ sent) (hd : d ≠ .exception) :
    d = ofBool (formula a i) := by
  refine h.induction (P := fun i d => d ≠ .exception → d = ofBool (formula a i)) ?_ ?_ ?_ ?_ hmem hd
  · intro i hkind hne
    have hstarted := a.status_ne i
    rw [formula_leaf hkind]
    cases hstatus : a.status i <;> simp_all [ofBool]
  · intro i logic l r d hkind hsettles ih hd
    have hvalue := ih hd
    rw [hvalue] at hsettles
    rw [formula_of_settles hkind hsettles (.inl rfl)]
    exact hvalue
  · intro i logic l r d hkind hsettles ih hd
    have hvalue := ih hd
    rw [hvalue] at hsettles
    rw [formula_of_settles hkind hsettles (.inr rfl)]
    exact hvalue
  · intro i logic l r x y hkind ihl ihr hd
    obtain ⟨hx, hy⟩ := ne_exception_of_full hd
    rw [ihl hx, ihr hy]
    exact fullDecisionLogic_ofBool hkind

/-- An `EXCEPTION` of a binary node is one of its composites'. -/
lemma exception_of_full (h : logic.fullDecisionLogic x y = .exception) :
    x = .exception ∨ y = .exception := by
  revert h
  cases logic <;> cases x <;> cases y <;> decide

/-- An `EXCEPTION` comes from a leaf. -/
theorem Grounded.exists_exception (h : Grounded a sent) (hmem : (i, d) ∈ sent)
    (hd : d = .exception) : ∃ k, g.Below i k ∧ g.kind k = .leaf ∧ a.status k = .exception := by
  refine h.induction (P := fun i d => d = .exception →
    ∃ k, g.Below i k ∧ g.kind k = .leaf ∧ a.status k = .exception) ?_ ?_ ?_ ?_ hmem hd
  · exact fun i hkind hexc => ⟨i, .refl, hkind, hexc⟩
  · intro i logic l r d hkind _ ih hexc
    obtain ⟨k, hbelow, hk⟩ := ih hexc
    exact ⟨k, below_left hkind hbelow, hk⟩
  · intro i logic l r d hkind _ ih hexc
    obtain ⟨k, hbelow, hk⟩ := ih hexc
    exact ⟨k, below_right hkind hbelow, hk⟩
  · intro i logic l r x y hkind ihl ihr hexc
    rcases exception_of_full hexc with hx | hy
    · obtain ⟨k, hbelow, hk⟩ := ihl hx
      exact ⟨k, below_left hkind hbelow, hk⟩
    · obtain ⟨k, hbelow, hk⟩ := ihr hy
      exact ⟨k, below_right hkind hbelow, hk⟩

/-! ## Races -/

/-- A race at `j` over two runs, of which `sent` and `sent'` are the decisions. In the first one a
composite of `j` sent `EXCEPTION`, and so did `j`. In the second one the other composite sent
another decision that settles the matter, and `j` sent that one. -/
inductive Race (sent sent' : List (Fin g.size × ControlFlowStatus)) (j : Fin g.size) : Prop
  | left {l r : Fin g.size} {logic : Logic} {d : ControlFlowStatus}
      (hkind : g.kind j = .binary logic l r) (hl : (l, .exception) ∈ sent) (hr : (r, d) ∈ sent')
      (hsettles : logic.Settles d) (hd : d ≠ .exception)
      (hj : (j, .exception) ∈ sent) (hj' : (j, d) ∈ sent')
  | right {l r : Fin g.size} {logic : Logic} {d : ControlFlowStatus}
      (hkind : g.kind j = .binary logic l r) (hr : (r, .exception) ∈ sent) (hl : (l, d) ∈ sent')
      (hsettles : logic.Settles d) (hd : d ≠ .exception)
      (hj : (j, .exception) ∈ sent) (hj' : (j, d) ∈ sent')

/-- Two decisions that settle the matter are the same or one of them is `EXCEPTION`. -/
lemma settles_cases (hx : logic.Settles x) (hy : logic.Settles y) :
    x = y ∨ x = .exception ∧ y ≠ .exception ∨ y = .exception ∧ x ≠ .exception := by
  revert hx hy
  cases logic <;> cases x <;> cases y <;> decide

/-- The full logic keeps a left decision that settles the matter, or the right one is
`EXCEPTION`. -/
lemma full_of_settles_left (hx : logic.Settles x) (hy : y ≠ .notStarted) :
    logic.fullDecisionLogic x y = x ∨
      logic.fullDecisionLogic x y = .exception ∧ y = .exception ∧ x ≠ .exception := by
  revert hx hy
  cases logic <;> cases x <;> cases y <;> decide

/-- A right decision that settles the matter stands, unless the left one is `EXCEPTION`. -/
lemma full_of_settles_right (hy : logic.Settles y) (hx : x ≠ .notStarted) :
    logic.fullDecisionLogic x y = y ∨
      logic.fullDecisionLogic x y = .exception ∧ x = .exception ∧ y ≠ .exception := by
  revert hx hy
  cases logic <;> cases x <;> cases y <;> decide

/-- One run takes the left decision, the other the right one. -/
lemma race_of_left_right (hkind : g.kind i = .binary logic l r) (hx : logic.Settles x)
    (hy : logic.Settles y) (hl : (l, x) ∈ sent) (hr : (r, y) ∈ sent') (hi : (i, x) ∈ sent)
    (hi' : (i, y) ∈ sent') : x = y ∨ Race sent sent' i ∨ Race sent' sent i := by
  rcases settles_cases hx hy with heq | ⟨rfl, hne⟩ | ⟨rfl, hne⟩
  · exact .inl heq
  · exact .inr (.inl (.left hkind hl hr hy hne hi hi'))
  · exact .inr (.inr (.right hkind hr hl hx hne hi' hi))

/-- One run takes the left decision, the other makes its own of the same left one and a right
one. -/
lemma race_of_left_full (hkind : g.kind i = .binary logic l r) (hx : logic.Settles x)
    (hy : y ≠ .notStarted) (hl : (l, x) ∈ sent) (hr : (r, y) ∈ sent') (hi : (i, x) ∈ sent)
    (hi' : (i, logic.fullDecisionLogic x y) ∈ sent') :
    logic.fullDecisionLogic x y = x ∨ Race sent' sent i := by
  rcases full_of_settles_left hx hy with heq | ⟨hfull, rfl, hne⟩
  · exact .inl heq
  · rw [hfull] at hi'
    exact .inr (.right hkind hr hl hx hne hi' hi)

/-- One run has the right decision only and the other one both: they agree, or it is a race. -/
lemma race_of_right_full (hkind : g.kind i = .binary logic l r) (hy : logic.Settles y)
    (hx : x ≠ .notStarted) (hr : (r, y) ∈ sent) (hl : (l, x) ∈ sent') (hi : (i, y) ∈ sent)
    (hi' : (i, logic.fullDecisionLogic x y) ∈ sent') :
    logic.fullDecisionLogic x y = y ∨ Race sent' sent i := by
  rcases full_of_settles_right hy hx with heq | ⟨hfull, rfl, hne⟩
  · exact .inl heq
  · rw [hfull] at hi'
    exact .inr (.left hkind hl hr hy hne hi' hi)

/-- The decisions of a binary node in two runs that agree on both composites. -/
lemma Grounded.binary_agree_or_race (h : Grounded a sent) (h' : Grounded a sent')
    (hkind : g.kind i = .binary logic l r)
    (hleft : ∀ x x', (l, x) ∈ sent → (l, x') ∈ sent' → x = x')
    (hright : ∀ y y', (r, y) ∈ sent → (r, y') ∈ sent' → y = y')
    (hd : (i, d) ∈ sent) (hd' : (i, d') ∈ sent') :
    d = d' ∨ Race sent sent' i ∨ Race sent' sent i := by
  rcases (h i d hd).binary hkind with ⟨hs, hl⟩ | ⟨hs, hr⟩ | ⟨x, y, hl, hr, rfl⟩
  · rcases (h' i d' hd').binary hkind with ⟨-, hl'⟩ | ⟨hs', hr'⟩ | ⟨x', y', hl', hr', rfl⟩
    · exact .inl (hleft d d' hl hl')
    · exact race_of_left_right hkind hs hs' hl hr' hd hd'
    · obtain rfl := hleft d x' hl hl'
      exact (race_of_left_full hkind hs (h'.ne_notStarted hr') hl hr' hd hd').imp Eq.symm .inr
  · rcases (h' i d' hd').binary hkind with ⟨hs', hl'⟩ | ⟨-, hr'⟩ | ⟨x', y', hl', hr', rfl⟩
    · exact (race_of_left_right hkind hs' hs hl' hr hd' hd).imp Eq.symm Or.symm
    · exact .inl (hright d d' hr hr')
    · obtain rfl := hright d y' hr hr'
      exact (race_of_right_full hkind hs (h'.ne_notStarted hl') hr hl' hd hd').imp Eq.symm .inr
  · rcases (h' i d' hd').binary hkind with ⟨hs', hl'⟩ | ⟨hs', hr'⟩ | ⟨x', y', hl', hr', rfl⟩
    · obtain rfl := hleft x d' hl hl'
      exact (race_of_left_full hkind hs' (h.ne_notStarted hr) hl' hr hd' hd).imp_right .inl
    · obtain rfl := hright y d' hr hr'
      exact (race_of_right_full hkind hs' (h.ne_notStarted hl) hr' hl hd' hd).imp_right .inl
    · rw [hleft x x' hl hl', hright y y' hr hr']
      exact .inl rfl

/-- **Two runs agree on a node, or differ at a race below it.** -/
theorem Grounded.agree_or_race (h : Grounded a sent) (h' : Grounded a sent')
    (hd : (i, d) ∈ sent) (hd' : (i, d') ∈ sent') :
    d = d' ∨ ∃ j, g.Below i j ∧ (Race sent sent' j ∨ Race sent' sent j) := by
  by_cases hnone : ∃ j, g.Below i j ∧ (Race sent sent' j ∨ Race sent' sent j)
  · exact .inr hnone
  left
  induction i using Fin.strong_induction_on generalizing d d' with
  | h i ih =>
    cases hkind : g.kind i with
    | leaf => rw [(h i d hd).eq_status hkind, (h' i d' hd').eq_status hkind]
    | binary logic l r =>
      have hleft : ∀ x x', (l, x) ∈ sent → (l, x') ∈ sent' → x = x' := fun _ _ hx hx' =>
        ih l (DecisionGraph.left_lt hkind) hx hx' fun ⟨j, hj, hrace⟩ =>
          hnone ⟨j, below_left hkind hj, hrace⟩
      have hright : ∀ y y', (r, y) ∈ sent → (r, y') ∈ sent' → y = y' := fun _ _ hy hy' =>
        ih r (DecisionGraph.right_lt hkind) hy hy' fun ⟨j, hj, hrace⟩ =>
          hnone ⟨j, below_right hkind hj, hrace⟩
      refine (h.binary_agree_or_race h' hkind hleft hright hd hd').resolve_right fun hrace => ?_
      exact hnone ⟨i, .refl, hrace⟩

end UnifyPrototype.ControlFlow
