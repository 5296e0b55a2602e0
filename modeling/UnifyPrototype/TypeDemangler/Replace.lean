import UnifyPrototype.TypeDemangler.Model

/-!
# `replaceString`

The search goes on where the replacement begins. What is still as it was is the text behind the
replacement, and every match takes a character of it; before the position the text stays as it is.
-/

namespace UnifyPrototype.TypeDemangler

open UnifyPrototype.Utils UnifyPrototype.Cms Text

variable {from' to' s s' t a b : StdString} {pos pos' : ℕ}

/-- A round replaces the first match from the position on. -/
lemma replaceRound_eq_again (h : replaceRound from' to' (pos, s) = .again (pos', s')) :
    ∃ a b, s = a ++ from' ++ b ∧ s' = a ++ to' ++ b ∧ a.length = pos' ∧ pos ≤ pos' ∧
      ∀ a' b', s = a' ++ from' ++ b' → pos ≤ a'.length → pos' ≤ a'.length := by
  unfold replaceRound at h
  dsimp only at h
  split at h
  next i hfind =>
    obtain ⟨rfl, rfl⟩ := Prod.mk.inj (Round.again.inj h)
    obtain ⟨a, b, rfl, rfl, hpos, hfirst⟩ := find_eq_some hfind
    exact ⟨a, b, rfl, replace_append a from' b to', rfl, hpos, hfirst⟩
  next => cases h

lemma replaceRound_eq_leave (h : replaceRound from' to' (pos, s) = .leave) :
    ∀ a b, s = a ++ from' ++ b → a.length < pos := by
  unfold replaceRound at h
  dsimp only at h
  split at h
  next => cases h
  next hfind => exact fun a b hs => find_eq_none hfind hs

lemma replaceRound_cases (from' to' : StdString) (pos : ℕ) (s : StdString) :
    replaceRound from' to' (pos, s) = .leave ∨
      ∃ pos' s', replaceRound from' to' (pos, s) = .again (pos', s') := by
  unfold replaceRound
  dsimp only
  split
  · exact .inr ⟨_, _, rfl⟩
  · exact .inl rfl

lemma replaceString_eq_some {fuel : ℕ} (h : replaceString fuel s from' to' = some t) :
    ∃ pos, Ends (replaceRound from' to') (0, s) (pos, t) := by
  obtain ⟨⟨pos, t'⟩, hloop, rfl⟩ := Option.map_eq_some_iff.mp h
  exact ⟨pos, .of_loop hloop⟩

/-! ## How often it replaces -/

/-- From the position on there is a text without `from'`, which the last round has inserted, and then
`n` characters that are as they were. -/
def Untouched (from' : StdString) (n : ℕ) : ℕ × StdString → Prop
  | (pos, s) => ∃ left x rest, s = left ++ x ++ rest ∧ left.length = pos ∧ ¬ from' <:+: x ∧
      rest.length = n

/-- A match takes a character of what is as it was. -/
lemma untouched_round {n : ℕ} (hfrom : ¬ from' <:+: to') (h : Untouched from' n (pos, s))
    (hround : replaceRound from' to' (pos, s) = .again (pos', s')) :
    ∃ m < n, Untouched from' m (pos', s') := by
  obtain ⟨left, x, rest, rfl, rfl, hx, rfl⟩ := h
  obtain ⟨a, b, hs, rfl, rfl, hpos, -⟩ := replaceRound_eq_again hround
  refine ⟨b.length, ?_, a, to', b, rfl, rfl, hfrom, rfl⟩
  by_contra hle
  -- otherwise all of the match is in the text without one
  rw [List.append_assoc, List.append_assoc] at hs
  obtain ⟨a', rfl, hx'⟩ := append_split hs hpos
  have hlength := congrArg List.length hx'
  simp only [List.length_append] at hlength
  rw [← List.append_assoc] at hx'
  obtain ⟨c, rfl, -⟩ := append_split hx'.symm (by rw [List.length_append]; omega)
  exact hx ⟨a', c, rfl⟩

/-- As many rounds as there are characters are enough. -/
lemma exists_replaceString (s : StdString) (hfrom : ¬ from' <:+: to') :
    ∃ t, replaceString s.length s from' to' = some t := by
  have hne : from' ≠ [] := by
    rintro rfl
    exact hfrom List.nil_infix
  have hstart : Untouched from' s.length (0, s) :=
    ⟨[], [], s, rfl, rfl, fun hinfix => hne (List.infix_nil.mp hinfix), rfl⟩
  obtain ⟨⟨pos, t⟩, ht⟩ := exists_loop hstart (by
    rintro n ⟨pos, s⟩ hs
    rcases replaceRound_cases from' to' pos s with hleave | ⟨pos', s', hagain⟩
    · exact .inl hleave
    · obtain ⟨m, hlt, hs'⟩ := untouched_round hfrom hs hagain
      exact .inr ⟨_, m, hagain, hlt, hs'⟩)
  exact ⟨t, by rw [replaceString, ht]; rfl⟩

/-- **`replaceString` ends.** If `from'` is no part of `to'`, it makes at most as many replacements as
the name has characters. -/
theorem replaceString_ends (from' to' s : StdString) (hfrom : ¬ from' <:+: to') :
    ∃ t, replaceString s.length s from' to' = some t :=
  exists_replaceString s hfrom

/-- The replacement may be longer than what it replaces and contain the beginning of it. -/
theorem replaceString_ends_growing :
    ∃ t, replaceString 3 "aab".toList "ab".toList "xaa".toList = some t :=
  replaceString_ends "ab".toList "xaa".toList "aab".toList (by decide)

/-! ## What is left to replace -/

/-- The pairs of `typeDemangle`. -/
def replacements : List (StdString × StdString) :=
  [(", ".toList, ",".toList), (" [".toList, "[".toList), ("std::__1::".toList, "std::".toList),
    ("std::__cxx11::".toList, "std::".toList), (">>".toList, "> >".toList),
    ("unsigned long long".toList, "ULong64_t".toList), ("long long".toList, "Long64_t".toList)]

/-- Wherever a beginning of `from'` may stand before `to'` such that both together begin like `from'`,
it has made a match with the `from'` that was there before. -/
def Settles (from' to' : StdString) : Prop :=
  ∀ n < from'.length, 0 < n → from'.drop n <+: to' ∨ to' <+: from'.drop n →
    from' <+: from'.take n ++ from'

instance (from' to' : StdString) : Decidable (Settles from' to') :=
  inferInstanceAs (Decidable (∀ n < from'.length, _ → _ → _))

/-- No match is before the position. -/
def Cleared (from' : StdString) : ℕ × StdString → Prop
  | (pos, s) => ∀ a b, s = a ++ from' ++ b → pos ≤ a.length

/-- A round leaves no occurrence before its position. -/
lemma cleared_round (hsettles : Settles from' to') (h : Cleared from' (pos, s))
    (hround : replaceRound from' to' (pos, s) = .again (pos', s')) : Cleared from' (pos', s') := by
  obtain ⟨a₀, b₀, rfl, rfl, rfl, -, hfirst⟩ := replaceRound_eq_again hround
  have hnone : ∀ a b, a₀ ++ from' ++ b₀ = a ++ from' ++ b → a₀.length ≤ a.length :=
    fun a b hs => hfirst a b hs (h a b hs)
  intro a b hs
  by_contra hlt
  push Not at hlt
  rcases Nat.lt_or_ge a₀.length (a.length + from'.length) with hover | hbefore
  · -- it reaches into what was inserted
    rw [List.append_assoc a₀] at hs
    obtain ⟨x, y, hx, hy, hfrom, rfl, ht⟩ := append_eq_of_overlap hs.symm hlt hover
    have hcommon : y <+: to' ∨ to' <+: y :=
      List.prefix_or_prefix_of_prefix ⟨b, ht.symm⟩ (List.prefix_append to' b₀)
    have hbegins : from' <+: x ++ from' := by
      have hn := hsettles x.length
      rw [hfrom, List.drop_left, List.take_left] at hn
      rw [hfrom]
      refine hn ?_ (List.length_pos_iff.mpr hx) hcommon
      rw [List.length_append]
      exact Nat.lt_add_of_pos_right (List.length_pos_iff.mpr hy)
    obtain ⟨c, hc⟩ := hbegins
    have hle := hnone a (c ++ b₀) (by
      rw [List.append_assoc a x, ← hc]
      simp only [List.append_assoc])
    omega
  · -- it was there before
    rw [List.append_assoc a₀] at hs
    obtain ⟨c, rfl, -⟩ := append_split hs.symm (by rwa [List.length_append])
    have hle := hnone a (c ++ from' ++ b₀) (by simp only [List.append_assoc])
    omega

lemma not_infix_of_cleared (h : Cleared from' (pos, t))
    (hleave : replaceRound from' to' (pos, t) = .leave) : ¬ from' <:+: t := by
  rintro ⟨a, b, ht⟩
  have hle := h a b ht.symm
  have hlt := replaceRound_eq_leave hleave a b ht.symm
  omega

/-- Where there is nothing to replace nothing changes. -/
lemma replaceString_of_not_infix (h : ¬ from' <:+: t) (fuel : ℕ) :
    replaceString fuel t from' to' = some t := by
  have hleave : replaceRound from' to' (0, t) = .leave := by
    simp [replaceRound, find_zero_eq_none_iff.mpr h]
  rw [replaceString, loop_of_leave hleave]
  rfl

/-- The replacement ends, leaves nothing to replace, and changes nothing the second time. -/
def Clears (from' to' s : StdString) : Prop :=
  ∃ t, replaceString s.length s from' to' = some t ∧ ¬ from' <:+: t ∧
    ∀ fuel, replaceString fuel t from' to' = some t

lemma clears_iff (ht : replaceString s.length s from' to' = some t) :
    Clears from' to' s ↔ ¬ from' <:+: t := by
  constructor
  · rintro ⟨t', ht', hnot, -⟩
    rwa [Option.some.inj (ht.symm.trans ht')]
  · intro hnot
    exact ⟨t, ht, hnot, replaceString_of_not_infix hnot⟩

/-- If a replacement makes no new occurrence, none is left. -/
lemma clears_of_settles (hfrom : ¬ from' <:+: to') (hsettles : Settles from' to') (s : StdString) :
    Clears from' to' s := by
  obtain ⟨t, ht⟩ := exists_replaceString s hfrom
  rw [clears_iff ht]
  obtain ⟨pos, hends⟩ := replaceString_eq_some ht
  have hcleared : Cleared from' (pos, t) :=
    hends.invariant (fun _ _ _ => Nat.zero_le _) fun _ _ hs hround => cleared_round hsettles hs hround
  exact not_infix_of_cleared hcleared hends.left

/-! ## Spaces before a bracket -/

section
variable {pos pos' : ℕ} {s s' t : StdString}

/-- A match is before the position, or two spaces are before a bracket behind it. -/
def Doubled : ℕ × StdString → Prop
  | (pos, s) => (∃ a b, s = a ++ [' ', '['] ++ b ∧ a.length < pos) ∨
      ∃ a b, s = a ++ [' ', ' ', '['] ++ b ∧ pos ≤ a.length

/-- No two spaces are before a bracket, and no match is before the position. -/
def Single : ℕ × StdString → Prop
  | (pos, s) => ¬ [' ', ' ', '['] <:+: s ∧ Cleared [' ', '['] (pos, s)

/-- The first of two spaces stays. -/
lemma doubled_round (h : Doubled (pos, s))
    (hround : replaceRound [' ', '['] ['['] (pos, s) = .again (pos', s')) : Doubled (pos', s') := by
  obtain ⟨a₀, b₀, rfl, rfl, rfl, hpos, hfirst⟩ := replaceRound_eq_again hround
  rcases h with ⟨a, b, hs, hlt⟩ | ⟨a, b, hs, hle⟩
  · -- the match before the position ends before the next one begins
    rw [List.append_assoc, List.append_assoc] at hs
    rcases List.append_eq_append_iff.mp hs with ⟨c, rfl, -⟩ | ⟨c, rfl, hc⟩
    · simp only [List.length_append] at hlt
      omega
    · rcases c with _ | ⟨x, _ | ⟨y, c⟩⟩
      · simp at hpos
        omega
      · simp at hc
      · obtain ⟨rfl, rfl, rfl⟩ := by simpa using hc
        exact .inl ⟨a, c ++ ['['] ++ b₀, by simp, by simp⟩
  · -- the second space begins a match, which goes unless an earlier one does
    have hbefore := hfirst (a ++ [' ']) b (by simpa using hs) (by simp; omega)
    rw [List.append_assoc, List.append_assoc] at hs
    rcases List.append_eq_append_iff.mp hs with ⟨c, rfl, hc⟩ | ⟨c, rfl, hc⟩
    · rcases c with _ | ⟨x, _ | ⟨y, c⟩⟩
      · simp at hc
      · simp at hc
      · obtain ⟨rfl, rfl, rfl⟩ := by simpa using hc
        exact .inr ⟨a₀ ++ ['['] ++ c, b, by simp, by simp⟩
    · rcases c with _ | ⟨x, _ | ⟨y, c⟩⟩
      · simp at hc
      · obtain ⟨rfl, rfl⟩ := by simpa using hc
        exact .inl ⟨a, b, by simp, by simp⟩
      · simp at hbefore

lemma single_round (h : Single (pos, s))
    (hround : replaceRound [' ', '['] ['['] (pos, s) = .again (pos', s')) : Single (pos', s') := by
  obtain ⟨a₀, b₀, rfl, rfl, rfl, hpos, hfirst⟩ := replaceRound_eq_again hround
  obtain ⟨hnot, hcleared⟩ := h
  have hnone : ∀ a b, a₀ ++ [' ', '['] ++ b₀ = a ++ [' ', '['] ++ b → a₀.length ≤ a.length :=
    fun a b hs => hfirst a b hs (hcleared a b hs)
  refine ⟨fun hinfix => ?_, fun a b hs => ?_⟩
  · rw [List.append_assoc, List.infix_append_iff] at hinfix
    rcases hinfix with ha | hb | ⟨l, l', hl, ⟨c, rfl⟩, hbegins⟩
    · exact hnot (ha.trans ⟨[], [' ', '['] ++ b₀, by simp⟩)
    · rcases List.infix_cons_iff.mp hb with hbegins | hb
      · simp at hbegins
      · exact hnot (hb.trans ⟨a₀ ++ [' ', '['], [], by simp⟩)
    · -- what was inserted is the bracket behind two spaces, which stood before the third one
      rcases l with _ | ⟨x, _ | ⟨y, _ | ⟨z, l⟩⟩⟩
      · obtain rfl : l' = [' ', ' ', '['] := by simpa using hl.symm
        simp at hbegins
      · obtain ⟨rfl, rfl⟩ := by simpa using hl
        simp at hbegins
      · obtain ⟨rfl, rfl, rfl⟩ := by simpa using hl
        exact hnot ⟨c ++ [' '], b₀, by simp⟩
      · obtain ⟨rfl, rfl, rfl, rfl, -⟩ := by simpa using hl
        exact hnot ⟨c, [' ', '['] ++ b₀, by simp⟩
  · by_contra hlt
    push Not at hlt
    rw [List.append_assoc, List.append_assoc] at hs
    rcases List.append_eq_append_iff.mp hs with ⟨c, rfl, hc⟩ | ⟨c, rfl, hc⟩
    · simp only [List.length_append] at hlt
      omega
    · rcases c with _ | ⟨x, _ | ⟨y, c⟩⟩
      · simp at hlt
      · obtain ⟨rfl, -⟩ := by simpa using hc
        exact hnot ⟨a, b₀, by simp⟩
      · obtain ⟨rfl, rfl, -⟩ := by simpa using hc
        have hle := hnone a (c ++ [' ', '['] ++ b₀) (by simp)
        simp only [List.length_append, List.length_cons] at hle
        omega

/-- Of several spaces before a bracket all but one stay. -/
theorem clears_bracket_iff : Clears [' ', '['] ['['] s ↔ ¬ [' ', ' ', '['] <:+: s := by
  have hfrom : ¬ [' ', '['] <:+: ['['] := by decide
  obtain ⟨t, ht⟩ := exists_replaceString s hfrom
  obtain ⟨pos, hends⟩ := replaceString_eq_some ht
  rw [clears_iff ht]
  constructor
  · -- two spaces before a bracket leave a match in the end
    rintro hnot ⟨a, b, hs⟩
    have hdoubled : Doubled (pos, t) :=
      hends.invariant (.inr ⟨a, b, hs.symm, Nat.zero_le _⟩) fun _ _ h hround => doubled_round h hround
    rcases hdoubled with ⟨a, b, ht, -⟩ | ⟨a, b, ht, -⟩
    · exact hnot ⟨a, b, ht.symm⟩
    · exact hnot ⟨a ++ [' '], b, by simpa using ht.symm⟩
  · -- where there are no two spaces none come up, so no match is made before the position
    intro hnot
    have hsingle : Single (pos, t) :=
      hends.invariant ⟨hnot, fun _ _ _ => Nat.zero_le _⟩ fun _ _ h hround => single_round h hround
    exact not_infix_of_cleared hsingle.2 hends.left

end

/-- All other replacements leave nothing to replace in any string. -/
theorem clears_of_ne_bracket {p : StdString × StdString} (hp : p ∈ replacements)
    (hne : p ≠ (" [".toList, "[".toList)) (s : StdString) : Clears p.1 p.2 s := by
  have hsettles : ∀ p ∈ replacements, p ≠ (" [".toList, "[".toList) →
      ¬ p.1 <:+: p.2 ∧ Settles p.1 p.2 := by decide
  obtain ⟨hfrom, hsettles⟩ := hsettles p hp hne
  exact clears_of_settles hfrom hsettles s

/-- **`replaceString` leaves nothing to replace unless two spaces are before a bracket.** For every name
each replacement of `typeDemangle` ends, its result contains no more of the replaced text and a second
time nothing changes, if and only if no `[` of the name comes after two spaces. -/
theorem replacements_clear_iff (s : StdString) :
    (∀ p ∈ replacements, Clears p.1 p.2 s) ↔ ¬ "  [".toList <:+: s := by
  constructor
  · intro h
    exact clears_bracket_iff.mp (h (" [".toList, "[".toList) (by decide))
  · intro hnot p hp
    by_cases hbracket : p = (" [".toList, "[".toList)
    · rw [hbracket]
      exact clears_bracket_iff.mpr hnot
    · exact clears_of_ne_bracket hp hbracket s

/-- Two spaces before a bracket: one of them is left. -/
theorem twoSpaces_left :
    replaceString 8 "int  [3]".toList " [".toList "[".toList = some "int [3]".toList ∧
      ¬ ∀ p ∈ replacements, Clears p.1 p.2 "int  [3]".toList := by
  refine ⟨by decide, fun h => ?_⟩
  have hclears := h (" [".toList, "[".toList) (by decide)
  exact absurd (by decide) (clears_bracket_iff.mp hclears)

end UnifyPrototype.TypeDemangler
