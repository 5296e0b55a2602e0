import UnifyPrototype.TypeDemangler.Pipeline

/-!
# What the result of `typeDemangle` is free of

The order of the steps of `typeDemangle` is important, and it is right for the last five of them: what
one of them has cleared away does not come back with what the later ones insert or take away.
-/

namespace UnifyPrototype.TypeDemangler

open UnifyPrototype.Utils UnifyPrototype.Cms Text

variable {cxaDemangle : StdString → Option StdString} {mangledName demangled : StdString}
  {p s t x from' to' a b : StdString} {fuel : ℕ} {d e : Char}

/-! ## Words that do not come up -/

/-- The word `p` cannot be made of `to'` and of what stands around it. -/
def Foreign (p to' : StdString) : Prop :=
  to' ≠ [] ∧ to'.head?.all (· ∉ p) ∧ ¬ p <:+: to' ∧
    ∀ n < p.length, 0 < n → ¬ p.take n <:+ to'

instance (p to' : StdString) : Decidable (Foreign p to') :=
  inferInstanceAs (Decidable (_ ∧ _ ∧ _ ∧ _))

/-- What the replacement has no part of was there before. -/
lemma infix_of_foreign (h : Foreign p to') (hwithin : p <:+: a ++ to' ++ b) : p <:+: a ∨ p <:+: b := by
  obtain ⟨hne, hhead, hnot, hbegins⟩ := h
  have hp : p ≠ [] := by
    rintro rfl
    exact hnot List.nil_infix
  cases to' with
  | nil => exact absurd rfl hne
  | cons c rest =>
    rw [List.append_assoc, List.cons_append, infix_append_cons hp (of_decide_eq_true hhead)] at hwithin
    cases hwithin with
    | inl hbefore => exact .inl hbefore
    | inr hover =>
      rcases List.infix_append_iff.mp hover with hin | hbehind | ⟨l, l', rfl, hl, hl'⟩
      · exact absurd (hin.trans (List.suffix_cons c rest).isInfix) hnot
      · exact .inr hbehind
      · -- a beginning of the word ends what is inserted: it is empty, or it is the word
        have hsuffix : l <:+ c :: rest := hl.trans (List.suffix_cons c rest)
        cases l with
        | nil => exact .inr hl'.isInfix
        | cons y l =>
          cases l' with
          | nil =>
            rw [List.append_nil] at hnot
            exact absurd hsuffix.isInfix hnot
          | cons z l' =>
            have hlt : (y :: l).length < (y :: l ++ z :: l').length := by simp
            have hno := hbegins _ hlt (Nat.succ_pos _)
            rw [List.take_left] at hno
            exact absurd hsuffix hno

/-- A replacement does not bring the word back. -/
lemma not_infix_replaceString (h : Foreign p to') (hs : ¬ p <:+: s)
    (ht : replaceString fuel s from' to' = some t) : ¬ p <:+: t := by
  obtain ⟨pos, hends⟩ := replaceString_eq_some ht
  apply hends.invariant (I := fun r => ¬ p <:+: r.2) hs
  intro r r' hr hround hwithin
  obtain ⟨a, b, hsplit, heq, -⟩ := replaceRound_eq_again hround
  rw [heq] at hwithin
  cases infix_of_foreign h hwithin with
  | inl hbefore =>
    apply hr
    rw [hsplit, List.append_assoc]
    exact hbefore.trans (List.prefix_append _ _).isInfix
  | inr hbehind =>
    apply hr
    rw [hsplit]
    exact hbehind.trans (List.suffix_append _ _).isInfix

/-- A suffix that is taken from an integer does not bring a word without digits back. -/
lemma not_infix_changes (hp : p ≠ []) (hdigit : ∀ c ∈ p, isDigit c = false) (hs : ¬ p <:+: s)
    (h : Changes Cuts s t) : ¬ p <:+: t := by
  obtain ⟨u, d, x, y, e, v, rfl, rfl, -, -, r, rfl, hy, -⟩ := h
  -- the last digit is not in the word
  obtain ⟨c, hlast⟩ : ∃ c, y.getLast? = some c := by
    cases hy' : y.getLast? with
    | none => exact absurd (List.getLast?_eq_none_iff.mp hy') hy.1
    | some c => exact ⟨c, rfl⟩
  obtain ⟨y, rfl⟩ : ∃ z, y = z ++ [c] := ⟨_, (List.dropLast_append_getLast? c hlast).symm⟩
  have hc : c ∉ p := by
    intro hmem
    have hone := hy.2 c (by simp)
    rw [hdigit c hmem] at hone
    cases hone
  have hafter : u ++ d :: (y ++ [c] ++ e :: v) = (u ++ d :: y) ++ c :: (e :: v) := by simp
  have hbefore : u ++ d :: (y ++ [c] ++ r ++ e :: v) = (u ++ d :: y) ++ c :: (r ++ e :: v) := by simp
  rw [hbefore, infix_append_cons hp hc] at hs
  rw [hafter, infix_append_cons hp hc]
  intro hwithin
  apply hs
  cases hwithin with
  | inl hin => exact .inl hin
  | inr hin => exact .inr (hin.trans (List.suffix_append r _).isInfix)

/-- Removing letters makes no new occurrence of a text without digits. -/
lemma not_infix_reformatter (hp : p ≠ []) (hdigit : ∀ c ∈ p, isDigit c = false) (hs : ¬ p <:+: s)
    (ht : reformatter fuel s suffixed [1, 2] = some t) : ¬ p <:+: t := by
  apply (Ends.of_loop ht).invariant (I := fun r => ¬ p <:+: r) hs
  intro r r' hr hround
  exact not_infix_changes hp hdigit hr (changes_of_again hround).2

/-! ## Integers with a suffix -/

lemma Reached.chars (h : Reached x) : ∀ c ∈ x, isDigit c = true ∨ c ∈ ['u', 'l'] := by
  obtain ⟨n, r, rfl, hn, y, l, rfl, hy, hl⟩ := h
  intro c hc
  rcases List.mem_append.mp hc with hc | hc
  · exact .inl (hn.2 c hc)
  · rcases List.mem_cons.mp hc with rfl | hc
    · exact .inr hy
    · rw [hl c hc]
      exact .inr (by decide)

lemma Reached.plain (h : Reached x) : Plain x := by
  obtain ⟨y, hcuts⟩ := h
  exact hcuts.plain

/-- An argument of the name with what stands around it. -/
lemma isArgument_iff (hx : Plain x) :
    IsArgument s x ↔ ∃ d e, isDelimiter d ∧ isEnd e ∧ d :: (x ++ [e]) <:+: s := by
  constructor
  · rintro ⟨u, d, e, v, rfl, hd, he, -⟩
    exact ⟨d, e, hd, he, u, v, by simp⟩
  · rintro ⟨d, e, hd, he, u, v, rfl⟩
    refine ⟨u, d, e, v, by simp, hd, he, fun c hc => ?_⟩
    obtain ⟨-, hclosing, hcomma⟩ := hx c hc
    simp [isEnd, hclosing, hcomma]

/-- The two types that are inserted have no delimiter, and begin with a letter that is in no integer. -/
lemma foreign_argument (hx : Reached x) (hd : isDelimiter d) (he : isEnd e)
    (hto : to' = "ULong64_t".toList ∨ to' = "Long64_t".toList) : Foreign (d :: (x ++ [e])) to' := by
  have hdelimiter : d ∉ to' := by
    intro hmem
    have hnone : ∀ c ∈ "ULong64_t".toList ++ "Long64_t".toList, isDelimiter c = false :=
      forall_mem_of_all (by decide)
    have hin : d ∈ "ULong64_t".toList ++ "Long64_t".toList := by
      rcases hto with rfl | rfl
      · exact List.mem_append_left _ hmem
      · exact List.mem_append_right _ hmem
    exact absurd hd (by simp [hnone d hin])
  have hhead : ∀ c ∈ ['U', 'L'], c ∉ d :: (x ++ [e]) := by
    intro c hc hmem
    have hletter : ∀ c ∈ ['U', 'L'],
        isDelimiter c = false ∧ isEnd c = false ∧ isDigit c = false ∧ c ∉ ['u', 'l'] :=
      forall_mem_of_all (by decide)
    obtain ⟨hnot, hnot', hdigit, hsuffix⟩ := hletter c hc
    simp only [List.mem_cons, List.mem_append, List.not_mem_nil, or_false] at hmem
    rcases hmem with rfl | hmem | rfl
    · exact absurd hd (by simp [hnot])
    · cases hx.chars c hmem with
      | inl hone => exact absurd hone (by simp [hdigit])
      | inr hone => exact hsuffix hone
    · exact absurd he (by simp [hnot'])
  refine ⟨?_, ?_, fun hwithin => ?_, fun n hn hpos hsuffix => ?_⟩
  · rcases hto with rfl | rfl <;> decide
  · rcases hto with rfl | rfl
    · exact decide_eq_true (hhead 'U' (by simp))
    · exact decide_eq_true (hhead 'L' (by simp))
  · exact hdelimiter (hwithin.subset (List.mem_cons_self ..))
  · obtain ⟨n, rfl⟩ := Nat.exists_eq_succ_of_ne_zero hpos.ne'
    exact hdelimiter (hsuffix.subset (List.mem_cons_self ..))

lemma not_reached_replaceString (hs : ∀ x, IsArgument s x → ¬ Reached x)
    (hto : to' = "ULong64_t".toList ∨ to' = "Long64_t".toList)
    (ht : replaceString fuel s from' to' = some t) : ∀ x, IsArgument t x → ¬ Reached x := by
  intro x hx hreached
  obtain ⟨d, e, hd, he, hwithin⟩ := (isArgument_iff hreached.plain).mp hx
  apply not_infix_replaceString (foreign_argument hreached hd he hto) ?_ ht hwithin
  intro hbefore
  exact hs x ((isArgument_iff hreached.plain).mpr ⟨d, e, hd, he, hbefore⟩) hreached

/-! ## Characters -/

lemma anyChar_replaceString (hto : ∀ c ∈ to', anyChar c) (hs : ∀ c ∈ s, anyChar c)
    (ht : replaceString fuel s from' to' = some t) : ∀ c ∈ t, anyChar c := by
  obtain ⟨pos, hends⟩ := replaceString_eq_some ht
  apply hends.invariant (I := fun r => ∀ c ∈ r.2, anyChar c) hs
  intro r r' hr hround c hc
  obtain ⟨a, b, hsplit, heq, -⟩ := replaceRound_eq_again hround
  rw [heq] at hc
  rw [hsplit] at hr
  simp only [List.mem_append] at hc hr
  rcases hc with (hc | hc) | hc
  · exact hr c (.inl (.inl hc))
  · exact hto c hc
  · exact hr c (.inr hc)

lemma anyChar_removeParameter {toRemove : StdString} (hs : ∀ c ∈ s, anyChar c)
    (ht : removeParameter fuel s toRemove = some t) : ∀ c ∈ t, anyChar c := by
  apply (Ends.of_loop ht).invariant (I := fun r => ∀ c ∈ r, anyChar c) hs
  intro r r' hr hround c hc
  rcases removeRound_cases toRemove r with ⟨hleave, -⟩ | ⟨a, args, b, rfl, -, hagain⟩ |
    ⟨a, rest, -, -, hagain⟩
  · cases hround.symm.trans hleave
  · obtain rfl := Round.again.inj (hround.symm.trans hagain)
    have hbehind : behind a b ⊆ b := by
      unfold behind
      split
      · exact List.tail_subset b
      · exact List.Subset.refl b
    cases List.mem_append.mp hc with
    | inl hc => exact hr c (List.mem_append_left _ (List.mem_append_left _ hc))
    | inr hc => exact hr c (List.mem_append_right _ (hbehind hc))
  · obtain rfl := Round.again.inj (hround.symm.trans hagain)
    exact hr c hc

lemma anyChar_constBeforeIdentifier (hs : ∀ c ∈ s, anyChar c)
    (ht : constBeforeIdentifier fuel s = some t) : ∀ c ∈ t, anyChar c := by
  apply (Ends.of_loop ht).invariant (I := fun r => ∀ c ∈ r, anyChar c) hs
  intro r r' hr hround c hc
  rcases constRound_cases r with ⟨hleave, -⟩ |
    ⟨a, b, rfl, -, ⟨-, hundefined⟩ | ⟨-, -, hagain⟩ | ⟨upTo, y, -, -, ha, hagain⟩⟩
  · cases hround.symm.trans hleave
  · cases hround.symm.trans hundefined
  · obtain rfl := Round.again.inj (hround.symm.trans hagain)
    cases List.mem_append.mp hc with
    | inl hc => exact hr c (List.mem_append_left _ (List.mem_append_left _ hc))
    | inr hc => exact hr c (List.mem_append_right _ hc)
  · obtain rfl := Round.again.inj (hround.symm.trans hagain)
    have hconst : ∀ c ∈ "const ".toList, anyChar c := forall_mem_of_all (by decide)
    rw [ha] at hr
    simp only [List.mem_append] at hc hr
    rcases hc with (hc | hc) | hc | hc
    · exact hr c (.inl (.inl (.inl hc)))
    · exact hconst c hc
    · exact hr c (.inl (.inl (.inr hc)))
    · exact hr c (.inr hc)

lemma anyChar_stripped (hs : ∀ c ∈ s, anyChar c) (ht : stripped s fuel = some t) :
    ∀ c ∈ t, anyChar c := by
  simp only [stripped, Option.bind_eq_bind] at ht
  obtain ⟨s₁, h₁, ht⟩ := Option.bind_eq_some_iff.mp ht
  obtain ⟨s₂, h₂, ht⟩ := Option.bind_eq_some_iff.mp ht
  obtain ⟨s₃, h₃, ht⟩ := Option.bind_eq_some_iff.mp ht
  obtain ⟨s₄, h₄, ht⟩ := Option.bind_eq_some_iff.mp ht
  obtain ⟨s₅, h₅, ht⟩ := Option.bind_eq_some_iff.mp ht
  have hs₁ := anyChar_replaceString (forall_mem_of_all (by decide)) hs h₁
  have hs₂ := anyChar_replaceString (forall_mem_of_all (by decide)) hs₁ h₂
  have hs₃ := anyChar_replaceString (forall_mem_of_all (by decide)) hs₂ h₃
  have hs₄ := anyChar_replaceString (forall_mem_of_all (by decide)) hs₃ h₄
  exact anyChar_removeParameter (anyChar_removeParameter hs₄ h₅) ht

/-! ## The result -/

/-- What the last five steps clear away. -/
structure Normal (t : StdString) : Prop where
  qualifier : ¬ toBeMoved <:+: t
  closing : ¬ ">>".toList <:+: t
  longLong : ¬ "long long".toList <:+: t
  suffix : ∀ x, IsArgument t x → ¬ Reached x

/-- A replacement of `typeDemangle` leaves nothing to replace. -/
lemma not_infix_of_replaceString (hfrom : ¬ from' <:+: to') (hsettles : Settles from' to')
    (ht : replaceString fuel s from' to' = some t) : ¬ from' <:+: t := by
  obtain ⟨t', ht', hnot, -⟩ := clears_of_settles hfrom hsettles s
  rwa [(stable_replaceString s from' to').unique ht ht']

/-- What comes out of the last steps is normal. -/
lemma normal_finished (hs : ¬ toBeMoved <:+: s) (hchars : ∀ c ∈ s, anyChar c)
    (ht : finished s fuel = some t) : Normal t := by
  simp only [finished, Option.bind_eq_bind] at ht
  obtain ⟨s₁, h₁, ht⟩ := Option.bind_eq_some_iff.mp ht
  obtain ⟨s₂, h₂, ht⟩ := Option.bind_eq_some_iff.mp ht
  obtain ⟨s₃, h₃, ht⟩ := Option.bind_eq_some_iff.mp ht
  have hqualifier₁ := not_infix_replaceString (p := toBeMoved) (by decide) hs h₁
  have hqualifier₂ := not_infix_reformatter (by decide) (forall_mem_of_all (by decide)) hqualifier₁ h₂
  have hqualifier₃ := not_infix_replaceString (p := toBeMoved) (by decide) hqualifier₂ h₃
  have hclosing₁ : ¬ ">>".toList <:+: s₁ := not_infix_of_replaceString (by decide) (by decide) h₁
  have hclosing₂ := not_infix_reformatter (by decide) (forall_mem_of_all (by decide)) hclosing₁ h₂
  have hclosing₃ := not_infix_replaceString (p := ">>".toList) (by decide) hclosing₂ h₃
  have hchars₁ := anyChar_replaceString (forall_mem_of_all (by decide)) hchars h₁
  have hchars₂ : ∀ c ∈ s₂, anyChar c :=
    (Ends.of_loop h₂).invariant (I := fun r => ∀ c ∈ r, anyChar c) hchars₁
      fun r r' hr hround => (changes_of_again hround).2.anyChar hr
  have hsuffix₂ : ∀ x, IsArgument s₂ x → ¬ Reached x := fun x hx =>
    not_reached_of_leave (Ends.of_loop h₂).left hchars₂ hx
  have hsuffix₃ := not_reached_replaceString hsuffix₂ (.inl rfl) h₃
  exact {
    qualifier := not_infix_replaceString (by decide) hqualifier₃ ht
    closing := not_infix_replaceString (by decide) hclosing₃ ht
    longLong := not_infix_of_replaceString (by decide) (by decide) ht
    suffix := not_reached_replaceString hsuffix₃ (.inr rfl) ht }

/-- In a normal name nothing is moved. -/
lemma Normal.constBeforeIdentifier_eq (h : Normal t) (fuel : ℕ) :
    constBeforeIdentifier fuel t = some t := by
  apply loop_of_leave
  rcases constRound_cases t with ⟨hleave, -⟩ | ⟨a, b, rfl, -⟩
  · exact hleave
  · exact absurd ⟨a, b, rfl⟩ h.qualifier

/-- What is cleared stays as it is. -/
lemma Normal.finished_eq (h : Normal t) (fuel : ℕ) : finished t fuel = some t := by
  have hreformat : reformatter fuel t suffixed [1, 2] = some t := by
    apply loop_of_leave
    rcases reformatRound_cases t with ⟨hleave, -⟩ | ⟨t', -, -, hchange⟩
    · exact hleave
    · obtain ⟨u, d, x, y, e, v, rfl, -, hd, he, hcuts⟩ := hchange
      have hplain := hcuts.plain
      have hargument : IsArgument (u ++ d :: (x ++ e :: v)) x :=
        (isArgument_iff hplain).mpr ⟨d, e, hd, he, u, v, by simp⟩
      exact absurd ⟨y, hcuts⟩ (h.suffix x hargument)
  have hunsigned : ¬ "unsigned long long".toList <:+: t := fun hwithin =>
    h.longLong (List.IsInfix.trans ⟨"unsigned ".toList, [], by decide⟩ hwithin)
  simp only [finished, Option.bind_eq_bind, replaceString_of_not_infix h.closing, Option.bind_some,
    hreformat, replaceString_of_not_infix hunsigned, replaceString_of_not_infix h.longLong]

/-- `typeDemangle` ends where all qualifiers can be moved, and then it returns a name. -/
lemma exists_typeDemangle (hdemangled : cxaDemangle mangledName = some demangled)
    (hstripped : stripped demangled fuel = some s) (hmovable : Movable s) :
    ∃ fuel t, typeDemangle cxaDemangle fuel mangledName = some (.ok t) := by
  obtain ⟨fuel', s', hs', -⟩ := (exists_constBeforeIdentifier_iff s).mpr hmovable
  obtain ⟨fuel'', t, ht⟩ := exists_finished s'
  have hreturn : ∃ fuel result,
      ((finished s' fuel).bind fun name => some (Except.ok (ε := Cms.Exception) name)) = some result :=
    ⟨fuel'', .ok t, by rw [ht, Option.bind_some]⟩
  have hok : ∀ s, Stable fun fuel =>
      (finished s fuel).bind fun name => some (Except.ok (ε := Cms.Exception) name) := fun s =>
    (stable_finished s).bind fun _ _ _ _ _ hm => hm
  have hconst : ∀ s, Stable fun fuel => constBeforeIdentifier fuel s := fun s => stable_loop constRound s
  have hrest := (hconst s).exists_bind hok ⟨fuel', hs'⟩ hreturn
  obtain ⟨n, result, hresult⟩ :=
    (stable_stripped demangled).exists_bind (fun s => (hconst s).bind hok) ⟨fuel, hstripped⟩ hrest
  obtain ⟨s₁, h₁, hresult⟩ := Option.bind_eq_some_iff.mp hresult
  obtain ⟨s₂, h₂, hresult⟩ := Option.bind_eq_some_iff.mp hresult
  obtain ⟨t', h₃, -⟩ := Option.bind_eq_some_iff.mp hresult
  refine ⟨n, t', ?_⟩
  rw [typeDemangle_eq hdemangled, h₁, Option.bind_some, h₂, Option.bind_some, h₃, Option.bind_some]

/-- What `typeDemangle` returns is cleared. -/
lemma normal_typeDemangle {result : Except Cms.Exception StdString}
    (hdemangled : cxaDemangle mangledName = some demangled) (hchars : ∀ c ∈ demangled, anyChar c)
    (hresult : typeDemangle cxaDemangle fuel mangledName = some result) :
    ∃ t, result = .ok t ∧ Normal t := by
  rw [typeDemangle_eq hdemangled] at hresult
  obtain ⟨s, hs, hresult⟩ := Option.bind_eq_some_iff.mp hresult
  obtain ⟨s', hs', hresult⟩ := Option.bind_eq_some_iff.mp hresult
  obtain ⟨t, ht, hok⟩ := Option.bind_eq_some_iff.mp hresult
  have hqualifier : ¬ toBeMoved <:+: s' := not_infix_of_leave (Ends.of_loop hs').left
  have hchars' := anyChar_constBeforeIdentifier (anyChar_stripped hchars hs) hs'
  exact ⟨t, (Option.some.inj hok).symm, normal_finished hqualifier hchars' ht⟩

/-- **The last five steps of `typeDemangle` keep what the earlier ones of them have done.** Where all
qualifiers can be moved in the name that the first six steps leave, `typeDemangle` ends. Whatever it
returns is a name that has no ` const`, no `>>` and no `long long`, and no argument of it is an integer
with what the regular expression takes away. Running the last five steps again changes nothing. -/
theorem typeDemangle_clears (hdemangled : cxaDemangle mangledName = some demangled)
    (hchars : ∀ c ∈ demangled, anyChar c) (hstripped : stripped demangled fuel = some s)
    (hmovable : Movable s) :
    (∃ fuel result, typeDemangle cxaDemangle fuel mangledName = some result) ∧
    ∀ fuel result, typeDemangle cxaDemangle fuel mangledName = some result →
      ∃ t, result = .ok t ∧ Normal t ∧
        ∀ fuel, constBeforeIdentifier fuel t = some t ∧ finished t fuel = some t := by
  constructor
  · obtain ⟨fuel', t, ht⟩ := exists_typeDemangle hdemangled hstripped hmovable
    exact ⟨fuel', .ok t, ht⟩
  · intro fuel' result hresult
    obtain ⟨t, rfl, hnormal⟩ := normal_typeDemangle hdemangled hchars hresult
    exact ⟨t, rfl, hnormal,
      fun fuel => ⟨hnormal.constBeforeIdentifier_eq fuel, hnormal.finished_eq fuel⟩⟩

/-- A demangler that knows one name. -/
def demangleOnly (mangled demangled name : StdString) : Option StdString :=
  if name = mangled then some demangled else none

def manySteps : StdString :=
  "A<B<int const>, 3ul, unsigned long long>".toList

/-- All five steps have something to do. -/
theorem typeDemangle_clears_manySteps :
    (∃ fuel result, typeDemangle (demangleOnly "1AI1BIKiELm3EyE".toList manySteps) fuel
      "1AI1BIKiELm3EyE".toList = some result) ∧
    ∀ fuel result, typeDemangle (demangleOnly "1AI1BIKiELm3EyE".toList manySteps) fuel
        "1AI1BIKiELm3EyE".toList = some result →
      ∃ t, result = .ok t ∧ Normal t ∧
        ∀ fuel, constBeforeIdentifier fuel t = some t ∧ finished t fuel = some t := by
  have hstripped : stripped manySteps 2 = some "A<B<int const>,3ul,unsigned long long>".toList := by
    decide
  have hconst : constBeforeIdentifier 2 "A<B<int const>,3ul,unsigned long long>".toList =
      some "A<B<const int>,3ul,unsigned long long>".toList := by decide
  have hdemangled : demangleOnly "1AI1BIKiELm3EyE".toList manySteps "1AI1BIKiELm3EyE".toList =
      some manySteps := if_pos rfl
  exact typeDemangle_clears hdemangled (forall_mem_of_all (by decide)) hstripped
    (Movable.of_ends (.of_loop hconst))

end UnifyPrototype.TypeDemangler
