import UnifyPrototype.TypeDemangler.Const

/-!
# The suffixes of integers

Each round of `reformatter` takes what `[ul]l*` matches from one template argument, whichever one the
search has come to, and all other arguments stay as they are.
-/

namespace UnifyPrototype.TypeDemangler

open UnifyPrototype.Utils UnifyPrototype.Cms Text Relation

variable {s t x y n r : StdString} {R : StdString → StdString → Prop}

/-! ## Template arguments -/

/-- The characters that end an argument. -/
def isEnd (c : Char) : Bool :=
  c = ',' ∨ c = '>'

/-- The text between a `<` or `,` and the next `,` or `>`. -/
def IsArgument (s x : StdString) : Prop :=
  ∃ u d e v, s = u ++ d :: (x ++ e :: v) ∧ isDelimiter d ∧ isEnd e ∧ ∀ c ∈ x, isEnd c = false

/-- One argument is changed. -/
def Changes (R : StdString → StdString → Prop) (s t : StdString) : Prop :=
  ∃ u d x y e v, s = u ++ d :: (x ++ e :: v) ∧ t = u ++ d :: (y ++ e :: v) ∧ isDelimiter d ∧
    isEnd e ∧ R x y

lemma not_mem_of_isDelimiter {d : Char} (hx : Plain x) (hd : isDelimiter d) : d ∉ x := by
  intro hmem
  obtain ⟨hopening, -, hcomma⟩ := hx d hmem
  simp [isDelimiter, hopening, hcomma] at hd

lemma not_mem_of_isEnd {e : Char} (hx : Plain x) (he : isEnd e) : e ∉ x := by
  intro hmem
  obtain ⟨-, hclosing, hcomma⟩ := hx e hmem
  simp [isEnd, hclosing, hcomma] at he

/-- All other arguments stay. -/
lemma isArgument_changed {u v : StdString} {d e : Char} (x' : StdString)
    (h : IsArgument (u ++ d :: (x ++ e :: v)) y) (hd : isDelimiter d) (he : isEnd e) (hx : Plain x)
    (hy : Plain y) : y = x ∨ IsArgument (u ++ d :: (x' ++ e :: v)) y := by
  obtain ⟨u₁, d₁, e₁, v₁, h, hd₁, he₁, hends⟩ := h
  rcases Nat.lt_trichotomy u₁.length u.length with hlt | heq | hgt
  · -- it begins before the change, so it also ends before it
    right
    obtain ⟨w, rfl, hw⟩ := append_cons_split h.symm hlt
    obtain ⟨m, rfl, hm⟩ := append_split_of_not_mem hw (not_mem_of_isDelimiter hy hd)
    obtain ⟨v₂, hv₂⟩ : ∃ v₂, m ++ d :: (x' ++ e :: v) = e₁ :: v₂ := by
      cases m with
      | nil => exact ⟨x' ++ e :: v, by rw [(List.cons.inj hm).1]; rfl⟩
      | cons c m => exact ⟨m ++ d :: (x' ++ e :: v), by rw [(List.cons.inj hm).1]; rfl⟩
    exact ⟨u₁, d₁, e₁, v₂, by rw [← hv₂]; simp, hd₁, he₁, hends⟩
  · left
    obtain ⟨rfl, hcons⟩ := List.append_inj h heq.symm
    obtain ⟨m, rfl, hm⟩ := append_split_of_not_mem (List.cons.inj hcons).2 (not_mem_of_isEnd hx he₁)
    cases m with
    | nil => exact List.append_nil x
    | cons c m =>
      obtain rfl := (List.cons.inj hm).1
      exact absurd (List.mem_append_right x List.mem_cons_self) (not_mem_of_isEnd hy he)
  · -- it begins behind the change
    right
    obtain ⟨w, rfl, hw⟩ := append_cons_split h hgt
    obtain ⟨m, rfl, hm⟩ := append_split_of_not_mem hw (not_mem_of_isDelimiter hx hd₁)
    exact ⟨u ++ d :: (x' ++ m), d₁, e₁, v₁, by rw [hm]; simp, hd₁, he₁, hends⟩

/-! ## Integers with a suffix -/

/-- `[0-9]+`. -/
def Digits (n : StdString) : Prop :=
  n ≠ [] ∧ ∀ c ∈ n, isDigit c = true

/-- `[ul]l*`. -/
def Matched (r : StdString) : Prop :=
  ∃ c l, r = c :: l ∧ c ∈ ['u', 'l'] ∧ ∀ c ∈ l, c = 'l'

/-- What a round takes from an argument. -/
def Cuts (x y : StdString) : Prop :=
  ∃ r, x = y ++ r ∧ Digits y ∧ Matched r

/-- The suffixes of integers. -/
def suffixes : List StdString :=
  ["u".toList, "l".toList, "ul".toList, "ll".toList, "ull".toList]

/-- An integer, which may be negative, loses its suffix. -/
def LosesSuffix (x y : StdString) : Prop :=
  ∃ r ∈ suffixes, x = y ++ r ∧ (Digits y ∨ ∃ n, y = '-' :: n ∧ Digits n)

/-- An integer with a suffix. -/
def Suffixed (x : StdString) : Prop :=
  ∃ y, LosesSuffix x y

/-- An integer with something that the regular expression matches. -/
def Reached (x : StdString) : Prop :=
  ∃ y, Cuts x y

/-! ## Rounds -/

/-- `(.*[<,][0-9]+)`. -/
lemma matches_number {gs : List StdString} :
    (Regex.group (.seq (.many anyChar) (.seq (.set (· ∈ ['<', ','])) (.plus isDigit)))).Matches t gs ↔
      ∃ u d n, t = u ++ d :: n ∧ gs = [t] ∧ (∀ c ∈ u, anyChar c) ∧ isDelimiter d ∧ Digits n := by
  have hset : ∀ d, decide (d ∈ ['<', ',']) = true ↔ isDelimiter d := by simp [isDelimiter]
  -- the text is taken apart in the order of the expression
  simp only [Regex.matches_group, Regex.matches_seq, Regex.matches_many, Regex.matches_set,
    Regex.matches_plus, hset]
  constructor
  · rintro ⟨_, ⟨u, _, _, _, ⟨hu, rfl⟩, ⟨_, _, n, _, ⟨d, hd, rfl, rfl⟩, ⟨hne, hn, rfl⟩, rfl, rfl⟩, rfl, rfl⟩,
      rfl⟩
    exact ⟨u, d, n, rfl, rfl, hu, hd, hne, hn⟩
  · rintro ⟨u, d, n, rfl, rfl, hu, hd, hne, hn⟩
    exact ⟨[], ⟨u, [], d :: n, [], ⟨hu, rfl⟩, ⟨[d], [], n, [], ⟨d, hd, rfl, rfl⟩, ⟨hne, hn, rfl⟩, rfl, rfl⟩,
      rfl, rfl⟩, rfl⟩

/-- `[ul]l*([,>].*)`. -/
lemma matches_suffix {gs : List StdString} :
    (Regex.seq (.set (· ∈ ['u', 'l'])) (.seq (.many (· = 'l'))
      (.group (.seq (.set (· ∈ [',', '>'])) (.many anyChar))))).Matches t gs ↔
      ∃ r e v, t = r ++ e :: v ∧ gs = [e :: v] ∧ Matched r ∧ isEnd e ∧ ∀ c ∈ v, anyChar c := by
  have hset : ∀ e, decide (e ∈ [',', '>']) = true ↔ isEnd e := by simp [isEnd]
  simp only [Regex.matches_group, Regex.matches_seq, Regex.matches_many, Regex.matches_set, hset,
    decide_eq_true_eq]
  constructor
  · rintro ⟨_, _, _, _, ⟨c, hc, rfl, rfl⟩, ⟨l, _, _, _, ⟨hl, rfl⟩,
      ⟨_, ⟨_, _, v, _, ⟨e, he, rfl, rfl⟩, ⟨hv, rfl⟩, rfl, rfl⟩, rfl⟩, rfl, rfl⟩, rfl, rfl⟩
    exact ⟨c :: l, e, v, rfl, rfl, ⟨c, l, rfl, hc, hl⟩, he, hv⟩
  · rintro ⟨_, e, v, rfl, rfl, ⟨c, l, rfl, hc, hl⟩, he, hv⟩
    exact ⟨[c], [], l ++ e :: v, [e :: v], ⟨c, hc, rfl, rfl⟩, ⟨l, [], e :: v, [e :: v], ⟨hl, rfl⟩,
      ⟨[], ⟨[e], [], v, [], ⟨e, he, rfl, rfl⟩, ⟨hv, rfl⟩, rfl, rfl⟩, rfl⟩, rfl, rfl⟩, rfl, rfl⟩

/-- The regular expression takes the name apart around the suffix. -/
lemma matches_suffixed {gs : List StdString} : suffixed.Matches t gs ↔ ∃ u d n r e v,
    t = u ++ d :: (n ++ r ++ e :: v) ∧ gs = [u ++ d :: n, e :: v] ∧ (∀ c ∈ u, anyChar c) ∧
      isDelimiter d ∧ Digits n ∧ Matched r ∧ isEnd e ∧ ∀ c ∈ v, anyChar c := by
  rw [suffixed, Regex.matches_seq]
  constructor
  · rintro ⟨_, _, _, _, hnumber, hsuffix, rfl, rfl⟩
    obtain ⟨u, d, n, rfl, rfl, hu, hd, hn⟩ := matches_number.mp hnumber
    obtain ⟨r, e, v, rfl, rfl, hr, he, hv⟩ := matches_suffix.mp hsuffix
    exact ⟨u, d, n, r, e, v, by simp, rfl, hu, hd, hn, hr, he, hv⟩
  · rintro ⟨u, d, n, r, e, v, rfl, rfl, hu, hd, hn, hr, he, hv⟩
    have hnumber := matches_number.mpr ⟨u, d, n, rfl, rfl, hu, hd, hn⟩
    have hsuffix := matches_suffix.mpr ⟨r, e, v, rfl, rfl, hr, he, hv⟩
    exact ⟨_, _, _, _, hnumber, hsuffix, by simp, rfl⟩

lemma Digits.plain (hn : Digits n) : Plain n := by
  intro c hc
  have hdigit := hn.2 c hc
  refine ⟨?_, ?_, ?_⟩ <;>
  · rintro rfl
    revert hdigit
    decide

/-- What holds of the characters of `[ul]` holds of all that `[ul]l*` matches. -/
lemma Matched.forall_mem {p : Char → Prop} (hr : Matched r) (hul : ∀ c ∈ ['u', 'l'], p c) :
    ∀ c ∈ r, p c := by
  obtain ⟨c, l, rfl, hc, hl⟩ := hr
  refine List.forall_mem_cons.mpr ⟨hul c hc, fun d hd => ?_⟩
  rw [hl d hd]
  exact hul 'l' (by simp)

lemma Matched.plain (hr : Matched r) : Plain r :=
  hr.forall_mem (forall_mem_of_all (by decide))

lemma Digits.anyChar (hn : Digits n) : ∀ c ∈ n, anyChar c := by
  intro c hc
  have hdigit := hn.2 c hc
  simp only [isDigit, decide_eq_true_eq] at hdigit
  have hle : '0'.toNat ≤ c.toNat := hdigit.1
  have hpos : 0 < '0'.toNat := by decide
  simp only [TypeDemangler.anyChar, decide_eq_true_eq]
  omega

lemma Matched.anyChar (hr : Matched r) : ∀ c ∈ r, anyChar c :=
  hr.forall_mem (forall_mem_of_all (by decide))

/-- `.` matches all characters of a name that matches. -/
lemma anyChar_of_match {u v : StdString} {d e : Char} (hu : ∀ c ∈ u, anyChar c) (hd : isDelimiter d)
    (hn : Digits n) (hr : Matched r) (he : isEnd e) (hv : ∀ c ∈ v, anyChar c) :
    ∀ c ∈ u ++ d :: (n ++ r ++ e :: v), anyChar c := by
  have hd' : anyChar d := by
    obtain rfl | rfl : d = '<' ∨ d = ',' := by simpa [isDelimiter] using hd
    · decide
    · decide
  have he' : anyChar e := by
    obtain rfl | rfl : e = ',' ∨ e = '>' := by simpa [isEnd] using he
    · decide
    · decide
  intro c hc
  simp only [List.mem_append, List.mem_cons] at hc
  rcases hc with hc | rfl | (hc | hc) | rfl | hc
  · exact hu c hc
  · exact hd'
  · exact hn.anyChar c hc
  · exact hr.anyChar c hc
  · exact he'
  · exact hv c hc

/-- What a round does: nothing matches, or it cuts an argument. -/
lemma reformatRound_cases (s : StdString) :
    (reformatRound suffixed [1, 2] s = .leave ∧
      ((∀ c ∈ s, anyChar c) → ∀ x, IsArgument s x → ¬ Reached x)) ∨
    ∃ t, reformatRound suffixed [1, 2] s = .again t ∧ (∀ c ∈ s, anyChar c) ∧ Changes Cuts s t := by
  unfold reformatRound
  cases hmatch : suffixed.regexMatch s with
  | none =>
    refine .inl ⟨rfl, fun hany x hx hreached => ?_⟩
    obtain ⟨u, d, e, v, rfl, hd, he, -⟩ := hx
    obtain ⟨n, r, rfl, hn, hr⟩ := hreached
    have hu : ∀ c ∈ u, anyChar c := fun c hc => hany c (List.mem_append_left _ hc)
    have hv : ∀ c ∈ v, anyChar c := fun c hc => hany c (by simp [hc])
    exact Regex.not_matches_of_regexMatch hmatch [u ++ d :: n, e :: v]
      (matches_suffixed.mpr ⟨u, d, n, r, e, v, rfl, rfl, hu, hd, hn, hr, he, hv⟩)
  | some m =>
    obtain ⟨u, d, n, r, e, v, hs, hgroups, hu, hd, hn, hr, he, hv⟩ :=
      matches_suffixed.mp (Regex.matches_of_regexMatch hmatch)
    have hexpand : Regex.expand [1, 2] m = u ++ d :: (n ++ e :: v) := by
      rw [Regex.expand, hgroups]
      simp
    refine .inr ⟨u ++ d :: (n ++ e :: v), ?_, ?_, u, d, n ++ r, n, e, v, hs, rfl, hd, he, r, rfl, hn, hr⟩
    · rw [← hexpand, ← Regex.regexReplace_eq hmatch rfl]
      rfl
    · rw [hs]
      exact anyChar_of_match hu hd hn hr he hv

/-- Where the loop leaves, the regular expression matches no argument. -/
lemma not_reached_of_leave (h : reformatRound suffixed [1, 2] t = .leave) (ht : ∀ c ∈ t, anyChar c)
    (hx : IsArgument t x) : ¬ Reached x := by
  rcases reformatRound_cases t with ⟨-, hunreached⟩ | ⟨_, hagain, -⟩
  · exact hunreached ht x hx
  · cases h.symm.trans hagain

/-- A round removes the letters of one integer. -/
lemma changes_of_again (h : reformatRound suffixed [1, 2] s = .again t) :
    (∀ c ∈ s, anyChar c) ∧ Changes Cuts s t := by
  rcases reformatRound_cases s with ⟨hleave, -⟩ | ⟨t', hagain, hany, hchange⟩
  · cases h.symm.trans hleave
  · obtain rfl := Round.again.inj (h.symm.trans hagain)
    exact ⟨hany, hchange⟩

lemma Changes.anyChar (h : Changes Cuts s t) (hs : ∀ c ∈ s, anyChar c) : ∀ c ∈ t, anyChar c := by
  obtain ⟨u, d, _, y, e, v, rfl, rfl, -, -, r, rfl, -⟩ := h
  intro c hc
  apply hs
  simp only [List.mem_append, List.mem_cons] at hc ⊢
  tauto

lemma Changes.length_lt (h : Changes Cuts s t) : t.length < s.length := by
  obtain ⟨u, d, _, y, e, v, rfl, rfl, -, -, r, rfl, -, c, l, rfl, -⟩ := h
  simp only [List.length_append, List.length_cons]
  omega

/-- Plain arguments that are not changed stay. -/
lemma Changes.isArgument (h : Changes R s t) (hR : ∀ x y, R x y → Plain x) (hx : Plain x)
    (hargument : IsArgument s x) : (∃ y, R x y) ∨ IsArgument t x := by
  obtain ⟨u, d, x', y, e, v, rfl, rfl, hd, he, hchange⟩ := h
  rcases isArgument_changed y hargument hd he (hR _ _ hchange) hx with rfl | hstays
  · exact .inl ⟨y, hchange⟩
  · exact .inr hstays

/-- The loop ends: every round makes the name shorter. -/
lemma exists_reformatter_ends (s : StdString) : ∃ t, Ends (reformatRound suffixed [1, 2]) s t := by
  refine exists_ends (I := fun _ => True) List.length trivial fun s _ => ?_
  rcases reformatRound_cases s with ⟨hleave, -⟩ | ⟨t, hagain, -, hchange⟩
  · exact .inl hleave
  · exact .inr ⟨t, hagain, hchange.length_lt, trivial⟩

/-! ## The result -/

lemma Cuts.plain (h : Cuts x y) : Plain x := by
  obtain ⟨r, rfl, hy, hr⟩ := h
  intro c hc
  exact (List.mem_append.mp hc).elim (hy.plain c) (hr.plain c)

lemma LosesSuffix.plain (h : LosesSuffix x y) : Plain x := by
  obtain ⟨r, hr, rfl, hy⟩ := h
  have hsuffix : ∀ r ∈ suffixes, Plain r := by decide
  intro c hc
  rcases List.mem_append.mp hc with hc | hc
  · rcases hy with hy | ⟨n, rfl, hn⟩
    · exact hy.plain c hc
    · rcases List.mem_cons.mp hc with rfl | hc
      · decide
      · exact hn.plain c hc
  · exact hsuffix r hr c hc

/-- No suffix is left, and nothing but suffixes has been taken away. -/
def Cleans (s : StdString) : Prop :=
  ∃ fuel t, reformatter fuel s suffixed [1, 2] = some t ∧ (∀ x, IsArgument t x → ¬ Suffixed x) ∧
    ReflTransGen (Changes LosesSuffix) s t

/-- The regular expression matches the suffixes and nothing else. -/
def Covered (s : StdString) : Prop :=
  ∀ x, IsArgument s x → (Suffixed x ↔ Reached x ∧ ∀ c ∈ s, anyChar c)

/-- What comes behind the digits of an integer. -/
def EndsDigits (r : StdString) : Prop :=
  ∃ c l, r = c :: l ∧ isDigit c = false

lemma Matched.endsDigits (hr : Matched r) : EndsDigits r := by
  have hdigits : ∀ c ∈ r, isDigit c = false := hr.forall_mem (forall_mem_of_all (by decide))
  obtain ⟨c, l, rfl, -⟩ := hr
  exact ⟨c, l, rfl, hdigits c List.mem_cons_self⟩

lemma endsDigits_of_mem (hr : r ∈ suffixes) : EndsDigits r := by
  simp only [suffixes, List.mem_cons, List.not_mem_nil, or_false] at hr
  rcases hr with rfl | rfl | rfl | rfl | rfl
  all_goals exact ⟨_, _, rfl, by decide⟩

lemma EndsDigits.not_digits (hr : EndsDigits r) (y : StdString) : ¬ Digits (y ++ r) := by
  obtain ⟨c, l, rfl, hc⟩ := hr
  intro hdigits
  have hdigit := hdigits.2 c (List.mem_append_right y List.mem_cons_self)
  rw [hc] at hdigit
  cases hdigit

/-- The digits of an integer end in one place. -/
lemma digits_unique {n' r' : StdString} (h : n ++ r = n' ++ r') (hn : Digits n) (hn' : Digits n')
    (hr : EndsDigits r) (hr' : EndsDigits r') : n = n' ∧ r = r' := by
  -- what is behind the shorter one begins with no digit, so it does not reach into the longer one
  have hle : ∀ {n r n' r' : StdString}, n ++ r = n' ++ r' → Digits n' → EndsDigits r →
      n.length ≤ n'.length → n = n' ∧ r = r' := by
    rintro n r n' r' h hn' ⟨c, l, rfl, hc⟩ hle
    obtain ⟨m, rfl, hm⟩ := append_split h hle
    cases m with
    | nil => exact ⟨(List.append_nil n).symm, hm⟩
    | cons d m =>
      obtain rfl := (List.cons.inj hm).1
      have hdigit := hn'.2 c (List.mem_append_right n List.mem_cons_self)
      rw [hc] at hdigit
      cases hdigit
  rcases Nat.le_total n.length n'.length with h' | h'
  · exact hle h hn' hr h'
  · obtain ⟨hn, hr⟩ := hle h.symm hn hr' h'
    exact ⟨hn.symm, hr.symm⟩

lemma not_suffixed (hy : Digits y) : ¬ Suffixed y := by
  rintro ⟨n, r, hr, rfl, -⟩
  exact (endsDigits_of_mem hr).not_digits n hy

lemma not_reached (hy : Digits y) : ¬ Reached y := by
  rintro ⟨n, r, rfl, -, hr⟩
  exact hr.endsDigits.not_digits n hy

/-- A suffix that is cut is all of the suffix. -/
lemma Cuts.losesSuffix (h : Cuts x y) (hx : Suffixed x) : LosesSuffix x y := by
  obtain ⟨r, rfl, hy, hr⟩ := h
  obtain ⟨y', r', hr', heq, hy'⟩ := hx
  rcases hy' with hy' | ⟨n, rfl, hn⟩
  · obtain ⟨rfl, rfl⟩ := digits_unique heq hy hy' hr.endsDigits (endsDigits_of_mem hr')
    exact ⟨r, hr', rfl, .inl hy⟩
  · -- it begins with a digit
    obtain ⟨c, y, rfl⟩ := List.exists_cons_of_ne_nil hy.1
    obtain rfl := (List.cons.inj heq).1
    exact absurd (hy.2 '-' List.mem_cons_self) (by decide)

lemma isArgument_of_changes {u v : StdString} {d e : Char} (hd : isDelimiter d) (he : isEnd e)
    (hx : Plain x) : IsArgument (u ++ d :: (x ++ e :: v)) x := by
  refine ⟨u, d, e, v, rfl, hd, he, fun c hc => ?_⟩
  obtain ⟨-, hclosing, hcomma⟩ := hx c hc
  simp [isEnd, hclosing, hcomma]

/-- A round takes a suffix, and the other arguments are as before. -/
lemma Covered.round (hs : Covered s) (hany : ∀ c ∈ s, anyChar c) (h : Changes Cuts s t) :
    Covered t ∧ Changes LosesSuffix s t := by
  have hany' := h.anyChar hany
  obtain ⟨u, d, x, y, e, v, rfl, rfl, hd, he, hcuts⟩ := h
  have hsuffixed : Suffixed x :=
    (hs x (isArgument_of_changes hd he hcuts.plain)).mpr ⟨⟨y, hcuts⟩, hany⟩
  refine ⟨fun z hz => ?_, u, d, x, y, e, v, rfl, rfl, hd, he, hcuts.losesSuffix hsuffixed⟩
  obtain ⟨r, -, hy, -⟩ := hcuts
  rw [and_iff_left hany']
  -- an argument of the new name is the one that was cut, which is digits now, or was there before
  have hbefore : Plain z → z = y ∨ (Suffixed z ↔ Reached z) := fun hplain => by
    rcases isArgument_changed x hz hd he hy.plain hplain with rfl | hz
    · exact .inl rfl
    · exact .inr ((hs z hz).trans (and_iff_left hany))
  constructor
  · rintro ⟨z', hloses⟩
    rcases hbefore hloses.plain with rfl | hiff
    · exact absurd ⟨z', hloses⟩ (not_suffixed hy)
    · exact hiff.mp ⟨z', hloses⟩
  · rintro ⟨z', hcuts⟩
    rcases hbefore hcuts.plain with rfl | hiff
    · exact absurd ⟨z', hcuts⟩ (not_reached hy)
    · exact hiff.mpr ⟨z', hcuts⟩

/-- An argument that none of the changes is about stays. -/
lemma isArgument_of_steps (h : ReflTransGen (Changes R) s t) (hR : ∀ x y, R x y → Plain x)
    (hx : Plain x) (hnot : ¬ ∃ y, R x y) (hargument : IsArgument s x) : IsArgument t x := by
  induction h with
  | refl => exact hargument
  | tail _ hchange ih => exact (hchange.isArgument hR hx ih).resolve_left hnot

/-- What a run does. -/
lemma changes_of_ends (h : Ends (reformatRound suffixed [1, 2]) s t) :
    ReflTransGen (Changes Cuts) s t ∧ ((∀ c ∈ s, anyChar c) ∧ (∀ c ∈ t, anyChar c) ∨ s = t) := by
  induction h with
  | leave _ => exact ⟨.refl, .inr rfl⟩
  | again hagain _ ih =>
    obtain ⟨hany, hchange⟩ := changes_of_again hagain
    refine ⟨.head hchange ih.1, .inl ⟨hany, ?_⟩⟩
    rcases ih.2 with ⟨-, ht⟩ | rfl
    · exact ht
    · exact hchange.anyChar hany

/-- A run takes suffixes and nothing else if the regular expression matches nothing else. -/
lemma Covered.of_ends (hs : Covered s) (hany : ∀ c ∈ s, anyChar c)
    (h : Ends (reformatRound suffixed [1, 2]) s t) :
    Covered t ∧ (∀ c ∈ t, anyChar c) ∧ ReflTransGen (Changes LosesSuffix) s t := by
  induction h with
  | leave _ => exact ⟨hs, hany, .refl⟩
  | again hagain _ ih =>
    obtain ⟨-, hchange⟩ := changes_of_again hagain
    obtain ⟨hs', hloses⟩ := hs.round hany hchange
    obtain ⟨ht, hany', hsteps⟩ := ih hs' (hchange.anyChar hany)
    exact ⟨ht, hany', hsteps.head hloses⟩

/-- Where the loop takes the suffixes and nothing else, the pattern matches nothing else. -/
lemma Cleans.covered (h : Cleans s) : Covered s := by
  obtain ⟨fuel, t, ht, hnone, hsteps⟩ := h
  intro x hx
  have hends : Ends (reformatRound suffixed [1, 2]) s t := .of_loop ht
  obtain ⟨hcuts, hany⟩ := changes_of_ends hends
  constructor
  · rintro ⟨y, hloses⟩
    refine ⟨?_, ?_⟩
    · -- an argument that no round cuts is there at the end
      by_contra hnot
      have hstays := isArgument_of_steps hcuts (fun _ _ => Cuts.plain) hloses.plain hnot hx
      exact hnone x hstays ⟨y, hloses⟩
    · rcases hany with ⟨hany, -⟩ | rfl
      · exact hany
      · exact absurd ⟨y, hloses⟩ (hnone x hx)
  · rintro ⟨⟨y, hcut⟩, hs⟩
    -- an argument that is no suffix is there at the end, so the loop would not leave
    by_contra hnot
    have hstays := isArgument_of_steps hsteps (fun _ _ => LosesSuffix.plain) hcut.plain hnot hx
    have ht' : ∀ c ∈ t, anyChar c := hany.elim And.right fun heq => heq ▸ hs
    exact not_reached_of_leave hends.left ht' hstays ⟨y, hcut⟩

/-- Where the pattern matches nothing else, the loop takes the suffixes and nothing else. -/
lemma Covered.cleans (hs : Covered s) : Cleans s := by
  obtain ⟨t, hends⟩ := exists_reformatter_ends s
  obtain ⟨fuel, hfuel⟩ := hends.exists_loop
  by_cases hany : ∀ c ∈ s, anyChar c
  · obtain ⟨hcovered, ht, hsteps⟩ := hs.of_ends hany hends
    refine ⟨fuel, t, hfuel, fun x hx hsuffixed => ?_, hsteps⟩
    exact not_reached_of_leave hends.left ht hx ((hcovered x hx).mp hsuffixed).1
  · -- nothing is matched
    obtain rfl : s = t := by
      obtain ⟨-, h⟩ := changes_of_ends hends
      exact h.resolve_left fun h => hany h.1
    exact ⟨fuel, s, hfuel, fun x hx hsuffixed => hany ((hs x hx).mp hsuffixed).2, .refl⟩

/-- **No suffix is left and nothing else is changed if and only if the regular expression matches the
suffixes and nothing else.** -/
theorem cleans_iff (s : StdString) : Cleans s ↔ Covered s :=
  ⟨Cleans.covered, Covered.cleans⟩

/-- A negative integer keeps its suffix. -/
theorem negative_kept : reformatter 0 "A<-3l>".toList suffixed [1, 2] = some "A<-3l>".toList ∧
    ¬ Cleans "A<-3l>".toList := by
  have hloop : reformatter 0 "A<-3l>".toList suffixed [1, 2] = some "A<-3l>".toList := by decide
  refine ⟨hloop, ?_⟩
  rintro ⟨fuel, t, ht, hnone, -⟩
  obtain rfl : t = "A<-3l>".toList := Ends.unique (.of_loop ht) (.of_loop hloop)
  have hargument : IsArgument "A<-3l>".toList "-3l".toList :=
    ⟨['A'], '<', '>', [], rfl, by decide, by decide, forall_mem_of_all (by decide)⟩
  refine hnone _ hargument ⟨"-3".toList, "l".toList, by decide, rfl, .inr ⟨['3'], rfl, ?_⟩⟩
  exact ⟨by decide, forall_mem_of_all (by decide)⟩

end UnifyPrototype.TypeDemangler
