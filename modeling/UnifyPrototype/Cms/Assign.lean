import UnifyPrototype.Cms.Model

/-!
# Assignment and `swap`

`swap` exchanges five of the data members and writes the buffer of the other stream behind that of
`this`, so an assignment transfers the message only to an exception that has none.
-/

namespace UnifyPrototype.Cms

open UnifyPrototype.Utils

variable {s s' : State} {a b : Exception} {i j k : ℕ}

/-- What can be seen of an exception. -/
structure View where
  message : StdString
  category : StdString
  what : StdString
  context : List StdString
  additionalInfo : List StdString
  alreadyPrinted : Bool
  explainSelf : StdString

def Exception.view (e : Exception) : View where
  message := e.message
  category := e.category
  what := e.what
  context := e.context
  additionalInfo := e.additionalInfo
  alreadyPrinted := e.alreadyPrinted
  explainSelf := e.explainSelf

def State.view (s : State) (i : ℕ) : Option View :=
  s[i]?.map Exception.view

/-! ## What the stream takes -/

/-- Nothing but `text` is in the stream when `text` has been written to it: it was empty and does not
pad, or it has failed and had the same text before. -/
def OStringStream.Takes (ost : OStringStream) (text : StdString) : Prop :=
  if ost.good then ost.str = [] ∧ ost.width ≤ text.length else ost.str = text

instance (ost : OStringStream) (text : StdString) : Decidable (ost.Takes text) :=
  inferInstanceAs (Decidable (if ost.good then _ else _))

/-- An insertion gives exactly the text if the stream takes it. -/
lemma insert_str_eq_iff {ost : OStringStream} {text : StdString} :
    (ost.insert text).str = text ↔ ost.Takes text := by
  unfold OStringStream.insert OStringStream.Takes OStringStream.padding
  split
  next =>
    constructor
    · intro heq
      have hlength := congrArg List.length heq
      have hshort : ost.str.length + (ost.width - text.length) = 0 := by
        split at hlength <;>
          simp only [List.length_append, List.length_replicate] at hlength <;> omega
      exact ⟨List.length_eq_zero_iff.mp (by omega), by omega⟩
    · rintro ⟨hempty, hwidth⟩
      simp [hempty, Nat.sub_eq_zero_of_le hwidth]
  next => exact Iff.rfl

/-- Nothing comes to what is in the stream when two texts are written to it. -/
lemma insert_insert_str_eq_iff {ost : OStringStream} {t u : StdString} :
    ((ost.insert t).insert u).str = ost.str ↔ (ost.good → t = [] ∧ ost.width = 0 ∧ u = []) := by
  cases hgood : ost.good with
  | false => simp [OStringStream.insert, hgood]
  | true =>
    simp only [OStringStream.insert, OStringStream.padding, hgood, if_true, true_imp_iff]
    constructor
    · intro heq
      have hlength := congrArg List.length heq
      have hshort : t.length + (ost.width - t.length) + u.length = 0 := by
        split at hlength <;>
          simp only [List.length_append, List.length_replicate] at hlength <;> omega
      exact ⟨List.length_eq_zero_iff.mp (by omega), by omega, List.length_eq_zero_iff.mp (by omega)⟩
    · rintro ⟨rfl, hwidth, rfl⟩
      simp [hwidth]

/-- All that is seen of an exception depends on its stream by the message only. -/
lemma view_eq_iff (e e' : Exception) (hsame : (e.category, e.what, e.context, e.additionalInfo,
      e.alreadyPrinted) = (e'.category, e'.what, e'.context, e'.additionalInfo, e'.alreadyPrinted)) :
    e.view = e'.view ↔ e.message = e'.message := by
  simp only [Prod.mk.injEq] at hsame
  obtain ⟨hcategory, hwhat, hcontext, hinfo, hprinted⟩ := hsame
  constructor
  · intro heq
    exact congrArg View.message heq
  · intro hmessage
    have hstr : e.ost.str = e'.ost.str := hmessage
    have hexplain : e.explainSelf = e'.explainSelf := by
      unfold Exception.explainSelf
      rw [hcategory, hcontext, hinfo, hstr]
    unfold Exception.view
    rw [hmessage, hcategory, hwhat, hcontext, hinfo, hprinted, hexplain]

/-- The copy constructor transfers the message, whatever is in it. -/
lemma copy_message (e : Exception) : e.copy.message = e.message := by
  have htakes : ({} : OStringStream).Takes e.ost.str := ⟨rfl, Nat.zero_le _⟩
  exact insert_str_eq_iff.mpr htakes

/-- The copy shows what the original does, if its stream takes the message. -/
lemma assign_view_iff : (a.assign b).view = b.view ↔ a.ost.Takes b.message := by
  rw [view_eq_iff (a.assign b) b rfl, ← insert_str_eq_iff, ← copy_message b]
  rfl

/-- A swap appends, so it is right only if both messages are the same. -/
lemma swap_view_iff : ((a.swap b).1.view = b.view ∧ (a.swap b).2.view = a.view) ↔
    a.ost.Takes b.message ∧ a.message = b.message := by
  rw [view_eq_iff (a.swap b).1 b rfl, view_eq_iff (a.swap b).2 a rfl, ← insert_str_eq_iff]
  exact and_congr Iff.rfl eq_comm

/-- A swap with itself is right if the stream takes the message. -/
lemma selfSwap_view_iff : a.selfSwap.view = a.view ↔ a.ost.Takes a.message := by
  rw [view_eq_iff a.selfSwap a rfl, ← insert_str_eq_iff]
  rfl

/-! ## Assignment and swap in a program -/

/-- `a = b` transfers the state of `b`, and nothing else changes. -/
def State.Assigns (s : State) (i j : ℕ) : Prop :=
  ∃ s', step s (.assign i j) = some s' ∧ s'.view i = s.view j ∧ ∀ k ≠ i, s'[k]? = s[k]?

/-- `a.swap(b)` gives each the state of the other one. -/
def State.Swaps (s : State) (i j : ℕ) : Prop :=
  ∃ s', step s (.swap i j) = some s' ∧ s'.view i = s.view j ∧ s'.view j = s.view i

/-- A second `a.swap(b)` restores both. -/
def State.SwapsBack (s : State) (i j : ℕ) : Prop :=
  ∃ s' s'', step s (.swap i j) = some s' ∧ step s' (.swap i j) = some s'' ∧
    s''.view i = s.view i ∧ s''.view j = s.view j

lemma view_eq (ha : s[i]? = some a) : s.view i = some a.view := by
  unfold State.view
  rw [ha]
  rfl

lemma getElem?_modified (ha : s[i]? = some a) (e : Exception) : (s.set i e)[i]? = some e :=
  List.getElem?_set_self (List.getElem?_eq_some_iff.mp ha).1

/-- The condition for an assignment, read at the two objects. -/
lemma assigns_iff (ha : s[i]? = some a) (hb : s[j]? = some b) :
    s.Assigns i j ↔ a.ost.Takes b.message := by
  have hstep : step s (.assign i j) = some (s.set i (a.assign b)) := by
    simp [step, State.modify, ha, hb]
  have hview := view_eq (getElem?_modified ha (a.assign b))
  rw [← assign_view_iff]
  constructor
  · rintro ⟨s', hs', heq, -⟩
    obtain rfl := Option.some.inj (hstep.symm.trans hs')
    rw [hview, view_eq hb] at heq
    exact Option.some.inj heq
  · intro heq
    refine ⟨_, hstep, ?_, fun k hk => List.getElem?_set_ne hk.symm⟩
    rw [hview, view_eq hb, heq]

/-- A swap of two objects. -/
lemma step_swap (ha : s[i]? = some a) (hb : s[j]? = some b) (hne : i ≠ j) :
    ∃ s', step s (.swap i j) = some s' ∧ s'[i]? = some (a.swap b).1 ∧ s'[j]? = some (a.swap b).2 := by
  refine ⟨(s.set i (a.swap b).1).set j (a.swap b).2, by simp [step, ha, hb, hne], ?_, ?_⟩
  · rw [List.getElem?_set_ne hne.symm]
    exact getElem?_modified ha _
  · have hb' : (s.set i (a.swap b).1)[j]? = some b := by rw [List.getElem?_set_ne hne, hb]
    exact getElem?_modified hb' _

/-- A swap of an object with itself. -/
lemma step_selfSwap (ha : s[i]? = some a) :
    ∃ s', step s (.swap i i) = some s' ∧ s'[i]? = some a.selfSwap :=
  ⟨s.set i a.selfSwap, by simp [step, ha], getElem?_modified ha _⟩

/-- The condition for a swap, read at the two objects. -/
lemma swaps_iff (ha : s[i]? = some a) (hb : s[j]? = some b) :
    s.Swaps i j ↔ a.ost.Takes b.message ∧ a.message = b.message := by
  by_cases hij : i = j
  · subst hij
    obtain rfl := Option.some.inj (ha.symm.trans hb)
    obtain ⟨s', hstep, ha'⟩ := step_selfSwap ha
    rw [and_iff_left rfl, ← selfSwap_view_iff]
    unfold State.Swaps
    simp [hstep, view_eq ha, view_eq ha']
  · obtain ⟨s', hstep, ha', hb'⟩ := step_swap ha hb hij
    rw [← swap_view_iff]
    unfold State.Swaps
    simp [hstep, view_eq ha, view_eq hb, view_eq ha', view_eq hb']

/-- A second swap brings both back only if nothing is appended. -/
lemma swapsBack_iff (ha : s[i]? = some a) (hb : s[j]? = some b) :
    s.SwapsBack i j ↔ (a.ost.good → b.message = [] ∧ a.ost.width = 0) := by
  by_cases hij : i = j
  · subst hij
    obtain rfl := Option.some.inj (ha.symm.trans hb)
    obtain ⟨s', hstep, ha'⟩ := step_selfSwap ha
    obtain ⟨s'', hstep', ha''⟩ := step_selfSwap ha'
    have hview : s.SwapsBack i i ↔ a.selfSwap.selfSwap.view = a.view := by
      unfold State.SwapsBack
      simp [hstep, hstep', view_eq ha, view_eq ha'']
    have hmessage : a.selfSwap.selfSwap.message = a.message ↔
        (a.ost.good → a.message = [] ∧ a.ost.width = 0 ∧ (a.ost.insert a.message).str = []) :=
      insert_insert_str_eq_iff
    rw [hview, view_eq_iff a.selfSwap.selfSwap a rfl, hmessage]
    refine imp_congr_right fun hgood => ⟨fun h => ⟨h.1, h.2.1⟩, fun h => ⟨h.1, h.2, ?_⟩⟩
    simp [OStringStream.insert, OStringStream.padding, hgood, h.1, h.2, show a.ost.str = [] from h.1]
  · obtain ⟨s', hstep, ha', hb'⟩ := step_swap ha hb hij
    obtain ⟨s'', hstep', ha'', hb''⟩ := step_swap ha' hb' hij
    have hview : s.SwapsBack i j ↔ ((a.swap b).1.swap (a.swap b).2).1.view = a.view ∧
        ((a.swap b).1.swap (a.swap b).2).2.view = b.view := by
      unfold State.SwapsBack
      simp [hstep, hstep', view_eq ha, view_eq hb, view_eq ha'', view_eq hb'']
    have hmessage : ((a.swap b).1.swap (a.swap b).2).1.message = a.message ↔
        (a.ost.good → b.message = [] ∧ a.ost.width = 0 ∧ b.message = []) :=
      insert_insert_str_eq_iff
    have hthis := view_eq_iff ((a.swap b).1.swap (a.swap b).2).1 a rfl
    have hother := view_eq_iff ((a.swap b).1.swap (a.swap b).2).2 b rfl
    have hkept : ((a.swap b).1.swap (a.swap b).2).2.message = b.message := rfl
    rw [hview, hthis, hother, and_iff_left hkept, hmessage]
    exact imp_congr_right fun _ => ⟨fun h => ⟨h.1, h.2.1⟩, fun h => ⟨h.1, h.2, h.1⟩⟩

/-- **Assignment and `swap` transfer the state if and only if the stream takes the message.** In every
state: `a = b` gives `a` what is seen of `b` if and only if nothing but the message of `b` is in the
stream of `a` when it has been written there; `a.swap(b)` exchanges the two if and only if the
messages are the same besides; and a second `a.swap(b)` restores both if and only if the message of
`b` is empty and no field width of `a` is pending, or the stream of `a` takes nothing at all. -/
theorem transfers_iff (ha : s[i]? = some a) (hb : s[j]? = some b) :
    (s.Assigns i j ↔ a.ost.Takes b.message) ∧
    (s.Swaps i j ↔ a.ost.Takes b.message ∧ a.message = b.message) ∧
    (s.SwapsBack i j ↔ (a.ost.good → b.message = [] ∧ a.ost.width = 0)) :=
  ⟨assigns_iff ha hb, swaps_iff ha hb, swapsBack_iff ha hb⟩

/-- An exception without a message, and one with a message. -/
def overEmpty : State :=
  [.ofCategory ['A'], .ofMessage ['B'] ['y', '\n']]

theorem transfers_iff_overEmpty : overEmpty.Assigns 0 1 ∧ ¬ overEmpty.Swaps 0 1 := by
  obtain ⟨hassigns, hswaps, -⟩ := transfers_iff (s := overEmpty) (i := 0) (j := 1) rfl rfl
  exact ⟨hassigns.mpr (by decide), fun h => absurd (hswaps.mp h).2 (by decide)⟩

/-- Two exceptions with messages. -/
def twoMessages : List Label :=
  [.ofMessage ['A'] ['x', '\n'], .ofMessage ['B'] ['y', '\n']]

/-- The assignment leaves the old message before the new one, and `swap` does the same and transfers
nothing to the other exception. -/
theorem twoMessages_kept : ∃ s, Reachable s ∧ ¬ s.Assigns 0 1 ∧ ¬ s.Swaps 0 1 ∧ ¬ s.SwapsBack 0 1 := by
  have hrun : ∃ s, executeAll step [] twoMessages = some s ∧
      s = [.ofMessage ['A'] ['x', '\n'], .ofMessage ['B'] ['y', '\n']] := ⟨_, rfl, rfl⟩
  obtain ⟨s, hs, rfl⟩ := hrun
  refine ⟨_, .of_executeAll _ hs, fun h => ?_, fun h => ?_, fun h => ?_⟩
  · exact absurd ((assigns_iff rfl rfl).mp h) (by decide)
  · exact absurd ((swaps_iff rfl rfl).mp h).1 (by decide)
  · exact absurd ((swapsBack_iff rfl rfl).mp h) (by decide)

end UnifyPrototype.Cms
