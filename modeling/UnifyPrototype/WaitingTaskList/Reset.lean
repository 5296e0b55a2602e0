import UnifyPrototype.WaitingTaskList.Deleted
import UnifyPrototype.WaitingTaskList.Epochs

/-!
# What the calls of an earlier epoch can do to the next one

When everything is released, the calls that have not returned are at one of a few statements: the
second `setNextNode` of `add(WaitingTaskHolder)`, the test of `m_waiting` after it, and the exchange
of `announce`. Each of the two writes can fall on the next epoch. In every run in which they do not,
that epoch is as good as the first.
-/

namespace UnifyPrototype.WaitingTaskList

open UnifyPrototype.Utils

variable {E : Type} {s s' : State E} {e e' : Epochs E} {a i j : ℕ} {p : Option (Point E)}

/-! ## The condition -/

/-- What a call of an earlier epoch writes is not of this epoch: a node of the cache that is not used
again yet; `m_head` when it is null or when everything is announced anyway; and, in `doneWaiting`,
the members before `reset` has returned. In this epoch every second write is of the node that the
call has made. -/
def harmless (s : Epochs E) : EpochLabel E → Bool
  | .list b => writesOwnNode s.list b
  | .advanceEarlier j _ =>
    match s.earlier[j]? with
    | some ⟨.setNextAgain _ (.cached i), cache⟩ =>
      cache = s.cache && (s.resetting.isSome || decide (s.list.lastAssignedCacheIndex ≤ i))
    | some ⟨.setNextAgain _ (.heap _), _⟩ => false
    | some ⟨.exchangeNull, _⟩ => s.list.head.isNone || !s.list.waiting
    | some ⟨.setException _, _⟩ | some ⟨.clearWaiting, _⟩ => s.resetting.isSome
    | _ => true
  | _ => true

/-- Where a call can be when everything is released. -/
def Point.leftover : Point E → Bool
  | .setNextAgain _ _ | .recheckWaiting | .setException _ | .clearWaiting | .exchangeNull => true
  | _ => false

/-! ## An epoch in progress -/

/-- All that is known of an epoch. -/
structure State.Ready (s : State E) : Prop where
  called : s.Called
  waited : s.Waited
  awaited : s.Awaited
  placed : s.Placed
  single : s.Single

lemma ready_step {b : Label E} (h : s.Ready) (hpermitted : Permitted s b)
    (hstep : step s b = some s') : s'.Ready where
  called := called_step h.called hstep
  waited := waited_step h.waited hstep
  awaited := awaited_step h.awaited hstep
  placed := placed_step h.called h.waited h.awaited h.placed hpermitted hstep
  single := single_step h.called h.waited h.awaited h.placed h.single hstep

lemma ready_init (k : ℕ) : (init k : State E).Ready :=
  ⟨called_init k, waited_init k, awaited_init k, placed_init k, single_init k⟩

lemma tally_idle (hidle : s.Idle) {w : Option (Point E) → ℕ} (hw : w none = 0) :
    tally w s.threads = 0 :=
  tally_eq_zero.mpr fun q hq => by rw [hidle q hq, hw]

/-- The list as `reset` leaves it, which may have kept any cache. -/
lemma ready_fresh (hidle : s.Idle) (hhead : s.head = none) (hheap : ∀ b, s.heap b = none)
    (hindex : s.lastAssignedCacheIndex = 0) (hwaiting : s.waiting = true) (hadded : s.added = [])
    (hreleased : s.released = []) (hdone : s.done = none) : s.Ready := by
  have hnone : ∀ (k : ℕ) (q : Point E), s.threads[k]? ≠ some (some q) := fun k q hk => by
    cases hidle _ (List.mem_of_getElem? hk)
  -- there is no node: the index is zero and the heap is empty
  have hempty : ∀ n t o, ¬ s.At n t o := by
    rintro n t o ⟨node, hnode, -⟩
    cases n with
    | cached k => cases (assigned_cached_zero hindex k).symm.trans hnode
    | heap b => cases (hheap b).symm.trans hnode
  refine ⟨⟨?_, ?_, fun t => ?_, ?_, ?_⟩, ⟨fun _ => ⟨hreleased, tally_idle hidle rfl⟩, ?_,
    fun k q hk => absurd hk (hnone k _), fun k hk => absurd hk (hnone k _), fun hw => ?_,
    fun q _ t ht => ?_, fun q _ k pt t hk => absurd hk (hnone k _)⟩, fun hw => ?_,
    ⟨[], s.threads.map fun _ => [], hhead, List.length_map _, trivial, fun c hc => ?_,
      fun k q c hk hc => ?_, fun t => ?_⟩,
    ⟨fun n m t o o' hn => absurd hn (hempty n t o), fun n t o hn => absurd hn (hempty n t o),
      fun b t o hb => absurd hb (hempty _ t o), fun k ov t n old hk => absurd hk (hnone k _),
      fun b node hb => ?_⟩⟩
  · rw [hadded]
    nofun
  · rw [hadded]
    exact List.nodup_nil
  · rw [tally_idle hidle rfl]
    exact Nat.zero_le _
  · rw [tally_idle hidle rfl, hindex]
    exact Nat.zero_le _
  · rw [hadded]
    exact Nat.two_pow_pos 32
  · rw [tally_idle hidle rfl, if_neg fun h => h.1 hdone]
  · cases hwaiting.symm.trans hw
  · rw [hreleased] at ht
    cases ht
  · cases hwaiting.symm.trans hw
  · obtain ⟨q, -, rfl⟩ := List.mem_map.mp hc
    trivial
  · rw [List.getElem?_map, Option.map_eq_some_iff] at hc
    obtain ⟨r, hr, rfl⟩ := hc
    rw [hidle q (List.mem_of_getElem? hk)]
    rfl
  · have hzero : tally (fun c => tally (queued t) c) (s.threads.map fun _ => []) = 0 :=
      tally_eq_zero.mpr fun c hc => by
        obtain ⟨q, -, rfl⟩ := List.mem_map.mp hc
        rfl
    rw [tally_idle hidle rfl, hzero, hreleased, hadded]
    rfl
  · cases (hheap b).symm.trans hb

/-- A call of an earlier epoch comes to announce the list, which is announced anyway. -/
lemma ready_join (h : s.Ready) (hwaiting : s.waiting = false) :
    State.Ready { s with threads := s.threads ++ [some .exchangeNull] } := by
  -- the thread of the earlier epoch counts for nothing that the invariant counts
  have hold : ∀ {k : ℕ} {q : Point E}, (s.threads ++ [some .exchangeNull])[k]? = some (some q) →
      s.threads[k]? = some (some q) ∨ q = .exchangeNull := by
    intro k q hk
    rcases Nat.lt_or_ge k s.threads.length with hlt | hge
    · rw [List.getElem?_append_left hlt] at hk
      exact .inl hk
    · rw [List.getElem?_append_right hge, List.getElem?_singleton] at hk
      split at hk
      · exact .inr (Option.some.inj (Option.some.inj hk)).symm
      · cases hk
  have hsame : ∀ w : Option (Point E) → ℕ, w (some .exchangeNull) = 0 →
      tally w (s.threads ++ [some .exchangeNull]) = tally w s.threads := fun w hw => by
    rw [tally_append, tally_cons, hw, tally_nil, Nat.add_zero]
  refine ⟨⟨h.called.number, h.called.nodup, fun t => ?_, ?_, h.called.few⟩,
    ⟨fun hw => ?_, ?_, fun k q hk => ?_, fun k hk => ?_, h.waited.after, h.waited.released,
      fun q hq k pt t hk ht => ?_⟩, fun hw hhead => ?_,
    placed_appear h.placed (fun _ => rfl) rfl,
    single_outside h.single rfl rfl rfl rfl (fun k ov t n old hk => ?_) fun w _ hw => hsame w hw⟩
  · rw [hsame _ rfl]
    exact h.called.calling t
  · rw [hsame _ rfl]
    exact h.called.index
  · cases hwaiting.symm.trans hw
  · rw [hsame _ rfl]
    exact h.waited.clearing
  · rcases hold hk with hk | hk
    · exact h.waited.set k q hk
    · cases hk
  · rcases hold hk with hk | hk
    · exact h.waited.clear k hk
    · cases hk
  · rcases hold hk with hk | rfl
    · exact h.waited.releases q hq k pt t hk ht
    · cases ht
  · rw [tally_append]
    exact Nat.lt_add_right _ (h.awaited hw hhead)
  · rcases hold hk with hk | hk
    · exact hk
    · cases hk

/-- It writes a node of the cache that is not used yet. -/
lemma ready_setNextNode (h : s.Ready) (o : Option NodeRef) {k : ℕ}
    (hfree : s.lastAssignedCacheIndex ≤ k) : (s.setNextNode o (.cached k)).Ready := by
  have hassigned : (s.setNextNode o (.cached k)).assigned = s.assigned := by
    ext1 n
    by_cases hn : n = .cached k
    · have hnone : s.assigned (.cached k) = none := if_neg (Nat.not_lt.mpr hfree)
      rw [hn, assigned_setNextNode_self, hnone]
      rfl
    · exact assigned_setNextNode_of_ne s o hn
  have hcalled := h.called
  have hwaited := h.waited
  exact ⟨⟨hcalled.number, hcalled.nodup, hcalled.calling, hcalled.index, hcalled.few⟩,
    ⟨hwaited.before, hwaited.clearing, hwaited.set, hwaited.clear, hwaited.after, hwaited.released,
      hwaited.releases⟩, h.awaited, placed_congr h.placed rfl hassigned rfl rfl rfl,
    single_outside h.single hassigned rfl rfl rfl (fun _ _ _ _ _ hj => hj) fun _ _ _ => rfl⟩

/-! ## The end of an epoch -/

/-- When everything is released, nothing is on the list or in the hands of a thread. -/
lemma State.Owned.nil_of_released {stack : List (NodeRef × Added)}
    {chains : List (List (NodeRef × Added))} (howned : s.Owned stack chains) (hcalled : s.Called)
    (hreleased : ∀ t ∈ s.added, t ∈ s.released) :
    (∀ t, tally (carry t) s.threads = 0) ∧ stack = [] ∧ ∀ c ∈ chains, c = [] := by
  have hzero : ∀ t, tally (carry t) s.threads + tally (queued t) stack
      + tally (fun c => tally (queued t) c) chains = 0 := by
    intro t
    have hplaces := howned.places t
    have hone := hcalled.count_le t
    by_cases ht : t ∈ s.added
    · have hpos := List.count_pos_iff.mpr (hreleased t ht)
      omega
    · have hcount := List.count_eq_zero.mpr ht
      omega
  have hnil : ∀ l : List (NodeRef × Added), (∀ t, tally (queued t) l = 0) → l = [] := by
    intro l hl
    refine List.eq_nil_iff_forall_not_mem.mpr fun x hx => ?_
    have hle := le_tally_of_mem (queued x.2) hx
    rw [hl, queued, if_pos rfl] at hle
    omega
  refine ⟨fun t => ?_, hnil stack fun t => ?_, fun c hc => hnil c fun t => ?_⟩
  · have hsum := hzero t
    omega
  · have hsum := hzero t
    omega
  · have hsum := hzero t
    have hle : tally (queued t) c ≤ tally (fun c => tally (queued t) c) chains :=
      le_tally_of_mem _ hc
    omega

/-- Then the list is empty, there is no node on the heap, and a call that has not returned is at one
of a few points. -/
lemma State.Ready.of_released (h : s.Ready) (hreleased : ∀ t ∈ s.added, t ∈ s.released) :
    s.head = none ∧ (∀ b, s.heap b = none) ∧
      ∀ pt, some pt ∈ s.threads → pt.leftover = true := by
  obtain ⟨stack, chains, howned⟩ := h.placed
  obtain ⟨hcarry, rfl, hchains⟩ := howned.nil_of_released h.called hreleased
  refine ⟨howned.head, fun b => ?_, fun pt hpt => ?_⟩
  · cases hnode : s.heap b with
    | none => rfl
    | some node =>
      have hat : s.At (.heap b) node.added node.next := ⟨node, hnode, rfl, rfl⟩
      exact absurd (hreleased _ (h.single.made _ _ _ hat).1) (h.single.kept b _ _ hat).1
  · obtain ⟨k, hk⟩ := List.getElem?_of_mem hpt
    obtain ⟨c, hc, hfollows⟩ := howned.chain hk
    have hno : ∀ t, carry t (some pt) = 0 := fun t => tally_eq_zero.mp (hcarry t) _ hpt
    cases pt with
    | setNextAgain | recheckWaiting | setException | clearWaiting | exchangeNull => rfl
    | setNext ov t n old =>
      -- a node that is not linked is not released
      obtain ⟨-, hat, -⟩ := hfollows
      exact absurd (hreleased t (h.single.made n t _ hat).1) (h.single.linking k ov t n old hk).1
    | readNext n =>
      rw [hchains c (List.mem_of_getElem? hc)] at hfollows
      cases hfollows
    | readWaiting _ t | late t | lateRelease t | createNode _ t | exchangeHead _ t _ | fail t _ _
    | free t _ _ | release t _ => exact absurd (hno t) (by simp [carry])

/-! ## Every step -/

/-- `reset` has set `m_lastAssignedCacheIndex` to zero. -/
def ResetPoint.indexCleared : ResetPoint → Bool
  | .checkHead _ | .expandCache _ | .setWaiting => true
  | _ => false

/-- The list while `reset` is in progress. -/
structure State.Drained (s : State E) : Prop where
  idle : s.Idle
  head : s.head = none
  heap : ∀ b, s.heap b = none
  added : s.added = []
  released : s.released = []
  done : s.done = none

/-- What is left of earlier epochs, and this epoch or the `reset` before it. -/
structure Epochs.Sound (s : Epochs E) : Prop where
  leftover : ∀ e ∈ s.earlier, e.point.leftover = true
  ready : s.resetting = none → s.list.Ready
  drained : ∀ r, s.resetting = some r → s.list.Drained ∧
    (r.indexCleared = true → s.list.lastAssignedCacheIndex = 0)

lemma sound_init (k : ℕ) : (Epochs.init k : Epochs E).Sound :=
  ⟨fun _ he => (nomatch he), fun _ => ready_init k, nofun⟩

/-- While `reset` is in progress nothing happens to the list. -/
lemma drained_step {b : Label E} (h : s.Drained) (hmay : b.mayStart true = true)
    (hstep : step s b = some s') :
    s'.Drained ∧ s'.lastAssignedCacheIndex = s.lastAssignedCacheIndex := by
  cases steps hstep with
  | fork =>
    refine ⟨⟨fun q hq => ?_, h.head, h.heap, h.added, h.released, h.done⟩, rfl⟩
    rcases List.mem_append.mp hq with hq | hq
    · exact h.idle q hq
    · exact List.mem_singleton.mp hq
  | add | doneWaiting | reset => cases hmay
  | retain | letGo => exact ⟨⟨h.idle, h.head, h.heap, h.added, h.released, h.done⟩, rfl⟩
  | advance k a hk => cases h.idle _ (List.mem_of_getElem? hk)

/-- A step of the list, if no late write harms it. -/
lemma sound_list {b : Label E} (h : e.Sound) (hharmless : harmless e (.list b) = true)
    (hstep : e.step (.list b) = some e') : e'.Sound := by
  simp only [Epochs.step] at hstep
  split at hstep
  next hmay =>
    obtain ⟨list, hlist, rfl⟩ := Option.map_eq_some_iff.mp hstep
    refine ⟨h.leftover, fun hnone => ready_step (h.ready hnone) hharmless hlist, fun r hr => ?_⟩
    obtain ⟨hdrained, hindex⟩ := h.drained r hr
    rw [show e.resetting = some r from hr] at hmay
    obtain ⟨hdrained', hsame⟩ := drained_step hdrained hmay hlist
    exact ⟨hdrained', fun hcleared => hsame.trans (hindex hcleared)⟩
  next => cases hstep

lemma sound_startReset (h : e.Sound) (hstep : e.startReset = some e') : e'.Sound := by
  simp only [Epochs.startReset] at hstep
  split at hstep
  next hboth =>
    obtain rfl := Option.some.inj hstep
    obtain ⟨hnone, -, hreleased⟩ := hboth
    obtain ⟨hhead, hheap, hleft⟩ := (h.ready hnone).of_released hreleased
    refine ⟨fun c hc => ?_, by simp,
      fun r hr => ⟨⟨fun q hq => ?_, hhead, hheap, rfl, rfl, rfl⟩, ?_⟩⟩
    · rcases List.mem_append.mp hc with hc | hc
      · exact h.leftover c hc
      · obtain ⟨q, hq, hmap⟩ := List.mem_filterMap.mp hc
        obtain ⟨pt, rfl, rfl⟩ := Option.map_eq_some_iff.mp hmap
        exact hleft pt hq
    · obtain ⟨-, -, rfl⟩ := List.mem_map.mp hq
      rfl
    · obtain rfl := Option.some.inj hr
      rintro ⟨⟩
  next => cases hstep

/-- The list while `reset` is in progress, with other members. -/
lemma State.Drained.congr (h : s.Drained)
    (hsame : (s'.threads, s'.head, s'.heap, s'.added, s'.released, s'.done)
      = (s.threads, s.head, s.heap, s.added, s.released, s.done)) : s'.Drained := by
  simp only [Prod.mk.injEq] at hsame
  obtain ⟨hthreads, hhead, hheap, hadded, hreleased, hdone⟩ := hsame
  refine ⟨fun q hq => h.idle q (hthreads ▸ hq), hhead.trans h.head, fun b => ?_,
    hadded.trans h.added, hreleased.trans h.released, hdone.trans h.done⟩
  rw [hheap]
  exact h.heap b

lemma sound_advanceReset (h : e.Sound) (hstep : e.advanceReset = some e') : e'.Sound := by
  cases hresetting : e.resetting with
  | none =>
    rw [Epochs.advanceReset, hresetting] at hstep
    cases hstep
  | some r =>
    obtain ⟨hdrained, hindex⟩ := h.drained r hresetting
    rw [Epochs.advanceReset, hresetting] at hstep
    cases r with
    | clearException | readIndex =>
      obtain rfl := Option.some.inj hstep
      refine ⟨h.leftover, by simp, fun r hr => ⟨hdrained.congr rfl, ?_⟩⟩
      obtain rfl := Option.some.inj hr
      rintro ⟨⟩
    | zeroIndex n =>
      obtain rfl := Option.some.inj hstep
      exact ⟨h.leftover, by simp, fun r hr => ⟨hdrained.congr rfl, fun _ => rfl⟩⟩
    | checkHead n =>
      simp only [hdrained.head, if_true] at hstep
      obtain rfl := Option.some.inj hstep
      exact ⟨h.leftover, by simp, fun r hr => ⟨hdrained, fun _ => hindex rfl⟩⟩
    | expandCache n =>
      simp only at hstep
      split at hstep
      · obtain rfl := Option.some.inj hstep
        exact ⟨h.leftover, by simp, fun r hr => ⟨hdrained.congr rfl, fun _ => hindex rfl⟩⟩
      · obtain rfl := Option.some.inj hstep
        exact ⟨h.leftover, by simp, fun r hr => ⟨hdrained, fun _ => hindex rfl⟩⟩
    | setWaiting =>
      obtain rfl := Option.some.inj hstep
      refine ⟨h.leftover, fun _ => ?_, by simp⟩
      exact ready_fresh hdrained.idle hdrained.head hdrained.heap (hindex rfl) rfl hdrained.added
        hdrained.released hdrained.done

/-! ## The calls of earlier epochs -/

/-- One of them goes on; the list stays as good as it was. -/
lemma sound_goOn {c : Earlier E} {r : State E × Option (Point E)} (h : e.Sound)
    (hleft : ∀ pt, r.2 = some pt → pt.leftover = true)
    (hready : e.resetting = none → e.list.Ready → r.1.Ready)
    (hdrained : e.list.Drained → r.1.Drained ∧
      r.1.lastAssignedCacheIndex = e.list.lastAssignedCacheIndex) : (e.goOn j c r).Sound := by
  refine ⟨fun d hd => ?_, fun hnone => hready hnone (h.ready hnone), fun q hq => ?_⟩
  · obtain ⟨list, p⟩ := r
    cases p with
    | none => exact h.leftover d (List.mem_of_mem_eraseIdx hd)
    | some pt =>
      rcases List.mem_or_eq_of_mem_set hd with hd | rfl
      · exact h.leftover d hd
      · exact hleft pt rfl
  · obtain ⟨hold, hindex⟩ := h.drained q hq
    obtain ⟨hnew, hsame⟩ := hdrained hold
    exact ⟨hnew, fun hcleared => hsame.trans (hindex hcleared)⟩

/-- The call takes a list that is empty, or that is announced anyway. -/
lemma sound_exchangeNull (h : e.Sound)
    (htake : e.list.head = none ∨ e.list.waiting = false) :
    Epochs.Sound { e with
      list := { e.list with
        head := none
        threads := e.list.threads ++ [e.list.head.map .readNext] }
      earlier := e.earlier.eraseIdx j } := by
  have hempty : e.list.head = none → ({ e.list with
      head := none
      threads := e.list.threads ++ [e.list.head.map .readNext] } : State E)
      = { e.list with threads := e.list.threads ++ [none] } := by
    intro hhead
    rw [hhead]
    simp only [Option.map_none]
    rw [← hhead]
  refine ⟨fun d hd => h.leftover d (List.mem_of_mem_eraseIdx hd), fun hnone => ?_, fun r hr => ?_⟩
  · have hready := h.ready hnone
    rcases htake with hhead | hwaiting
    · rw [hempty hhead]
      exact ready_step (b := .fork) hready rfl rfl
    · -- it comes to the exchange, and makes it
      have hjoin := ready_join hready hwaiting
      have hlast : (e.list.threads ++ [some .exchangeNull])[e.list.threads.length]?
          = some (some .exchangeNull) := by
        simp
      refine ready_step (b := .advance e.list.threads.length 0) hjoin ?_ ?_
      · simp [Permitted, writesOwnNode]
      · simp [step, Point.step, State.goto]
  · obtain ⟨hdrained, hindex⟩ := h.drained r hr
    rw [hempty hdrained.head]
    obtain ⟨hnew, hsame⟩ := drained_step (b := .fork) hdrained rfl rfl
    exact ⟨hnew, fun hcleared => hindex hcleared⟩

lemma sound_advanceEarlier (h : e.Sound) (hharmless : harmless e (.advanceEarlier j a) = true)
    (hstep : e.advanceEarlier j a = some e') : e'.Sound := by
  cases hc : e.earlier[j]? with
  | none =>
    rw [Epochs.advanceEarlier, hc] at hstep
    cases hstep
  | some c =>
    obtain ⟨pt, cache⟩ := c
    have hleft := h.leftover _ (List.mem_of_getElem? hc)
    simp only [harmless, hc] at hharmless
    simp only [Epochs.advanceEarlier, hc] at hstep
    cases pt with
    | setNextAgain t n =>
      cases n with
      | heap b => cases hharmless
      | cached k =>
        simp only [Bool.and_eq_true, decide_eq_true_eq, Bool.or_eq_true] at hharmless
        obtain ⟨hcache, hfree⟩ := hharmless
        simp only [hcache, if_true, Point.step, Option.map_some] at hstep
        obtain rfl := Option.some.inj hstep
        refine sound_goOn h (fun q hq => ?_) (fun hnone hready => ?_) fun hdrained =>
          ⟨hdrained.congr rfl, rfl⟩
        · obtain rfl := Option.some.inj hq
          rfl
        · rw [hnone] at hfree
          exact ready_setNextNode hready none (hfree.resolve_left (by simp))
    | recheckWaiting =>
      obtain rfl := Option.some.inj hstep
      refine sound_goOn h (fun q hq => ?_) (fun _ hready => hready) fun hdrained => ⟨hdrained, rfl⟩
      cases hwaiting : e.list.waiting
      · rw [hwaiting] at hq
        obtain rfl := Option.some.inj hq
        rfl
      · rw [hwaiting] at hq
        cases hq
    | setException q | clearWaiting =>
      obtain rfl := Option.some.inj hstep
      refine sound_goOn h (fun q hq => ?_) (fun hnone _ => ?_) fun hdrained =>
        ⟨hdrained.congr rfl, rfl⟩
      · obtain rfl := Option.some.inj hq
        rfl
      · -- not before `reset` has returned
        rw [hnone] at hharmless
        cases hharmless
    | exchangeNull =>
      obtain rfl := Option.some.inj hstep
      refine sound_exchangeNull h ?_
      simpa [Option.isNone_iff_eq_none] using hharmless
    | _ => cases hleft

/-- So does every step. -/
lemma sound_step {b : EpochLabel E} (h : e.Sound) (hharmless : harmless e b = true)
    (hstep : e.step b = some e') : e'.Sound := by
  cases b with
  | list b => exact sound_list h hharmless hstep
  | reset => exact sound_startReset h hstep
  | advanceReset => exact sound_advanceReset h hstep
  | advanceEarlier j a => exact sound_advanceEarlier h hharmless hstep

/-! ## Runs -/

variable {k : ℕ}

/-- Along harmless runs the state is sound. -/
lemma sound (h : RunsTo Epochs.step (fun s b => harmless s b = true) (Epochs.init k) e) :
    e.Sound :=
  h.invariant (sound_init k) fun _ _ _ hs hok hstep => sound_step hs hok hstep

/-- **A list may be reset by a task that it has released.** In every state of a run whose writes of
earlier epochs are not of this one: when `doneWaiting` was called and the calls of the epoch have
returned, the list is empty and every task that was added has been released once; no task is released
twice; and none is released before `doneWaiting` has cleared `m_waiting`. -/
theorem released_once_after_reset
    (h : RunsTo Epochs.step (fun s b => harmless s b = true) (Epochs.init k) e) :
    (e.resetting = none → e.list.Idle → e.list.done ≠ none →
      e.list.head = none ∧ ∀ t ∈ e.list.added, e.list.released.count t = 1) ∧
    (∀ t, e.list.released.count t ≤ 1 ∧ (t ∈ e.list.released → t ∈ e.list.added)) ∧
    ∀ t ∈ e.list.released, e.list.waiting = false ∧ e.list.done ≠ none := by
  have hsound := sound h
  cases hresetting : e.resetting with
  | none =>
    have hready := hsound.ready hresetting
    refine ⟨fun _ hidle hdone => ?_, fun t => ⟨?_, fun ht => ?_⟩, fun t ht => ?_⟩
    · obtain ⟨-, hhead⟩ := head_eq_none hready.waited hready.awaited hidle hdone
      refine ⟨hhead, fun t ht => ?_⟩
      have hrel := hready.placed.released_of_idle hidle hhead t
      have hpos := List.count_pos_iff.mpr ht
      have hone := hready.called.count_le t
      omega
    · exact (hready.placed.count_le t).trans (hready.called.count_le t)
    · have hpos := List.count_pos_iff.mpr ht
      exact List.count_pos_iff.mp (lt_of_lt_of_le hpos (hready.placed.count_le t))
    · have hwaiting : e.list.waiting = false := by
        by_contra hno
        rw [(hready.waited.before (by simpa using hno)).1] at ht
        cases ht
      refine ⟨hwaiting, ?_⟩
      rw [hready.waited.after hwaiting]
      exact Option.some_ne_none _
  | some r =>
    obtain ⟨hdrained, -⟩ := hsound.drained r hresetting
    rw [hdrained.released]
    exact ⟨nofun, fun t => ⟨Nat.zero_le _, nofun⟩, nofun⟩

/-- Moves of the calls of this epoch. -/
def inEpoch (bs : List (Label ℕ)) : List (EpochLabel ℕ) :=
  bs.map .list

/-- The call of `reset`. -/
def wholeReset : List (EpochLabel ℕ) :=
  .reset :: List.replicate 6 .advanceReset

/-- Thread 0 is delayed before its second write of a node of the cache; the task that it added is
released and resets the list; thread 0 goes on; and a second epoch follows. -/
def lateWrite : List (EpochLabel ℕ) :=
  inEpoch ([.fork, .fork, .add 0 .holder 10 0] ++ operations 0 0 4 ++ [.doneWaiting 1 none] ++
      operations 1 0 7) ++
    wholeReset ++ List.replicate 2 (.advanceEarlier 0 0) ++
    inEpoch ([.add 1 .task 11 0] ++ operations 1 0 5 ++ [.doneWaiting 1 none] ++ operations 1 0 7)

theorem released_once_after_reset_lateWrite :
    ∃ e : Epochs ℕ, execute Epochs.step harmless (Epochs.init 2) lateWrite = some e ∧
      e.list.head = none ∧ (∀ t ∈ e.list.added, e.list.released.count t = 1) ∧
      e.list.added ≠ [] := by
  have hrun : ∃ e : Epochs ℕ, execute Epochs.step harmless (Epochs.init 2) lateWrite = some e ∧
      e.resetting = none ∧ e.list.Idle ∧ e.list.done ≠ none ∧ e.list.added ≠ [] := by
    refine ⟨_, rfl, ?_, ?_, ?_, ?_⟩ <;> decide
  obtain ⟨e, he, hresetting, hidle, hdone, hadded⟩ := hrun
  have hmain := (released_once_after_reset (.of_execute lateWrite (fun _ _ h => h) he)).1 hresetting
    hidle hdone
  exact ⟨e, he, hmain.1, hmain.2, hadded⟩

/-- Thread 0 has found `m_waiting` cleared and is delayed before it takes the list; the list is reset
and thread 1 adds a task; thread 0 takes it and releases it. -/
def lateAnnounce : List (EpochLabel ℕ) :=
  inEpoch ([.fork, .fork, .add 0 .task 10 0] ++ operations 0 0 4 ++ [.doneWaiting 1 none] ++
      operations 1 0 2 ++ operations 0 0 1 ++ operations 1 0 5) ++
    wholeReset ++ inEpoch ([.add 1 .task 11 0] ++ operations 1 0 5) ++ [.advanceEarlier 0 0] ++
    inEpoch (operations 2 0 4)

/-- **A task can be released before `doneWaiting`.** -/
theorem released_before_doneWaiting :
    ¬ ∀ (k : ℕ) (e : Epochs ℕ), Reaches Epochs.step (Epochs.init k) e →
      ∀ t ∈ e.list.released, e.list.waiting = false ∧ e.list.done ≠ none := by
  have hrun : ∃ e : Epochs ℕ, executeAll Epochs.step (Epochs.init 1) lateAnnounce = some e ∧
      ⟨0, 11, 0⟩ ∈ e.list.released ∧ e.list.waiting = true := by
    refine ⟨_, rfl, ?_, ?_⟩ <;> decide
  obtain ⟨e, he, hreleased, hwaiting⟩ := hrun
  intro hall
  obtain ⟨hcleared, -⟩ := hall 1 e (.of_executeAll _ he) _ hreleased
  cases hwaiting.symm.trans hcleared

end UnifyPrototype.WaitingTaskList
