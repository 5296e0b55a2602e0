import UnifyPrototype.TypeDemangler.Types

/-!
# `replaceString` on types

A replacement of `typeDemangle` does its work on the names and the commas of a type one by one.
-/

namespace UnifyPrototype.TypeDemangler

open UnifyPrototype.Utils UnifyPrototype.Cms Text

variable {p q from' to' s t u pre z z' d d' : StdString} {st st' : Style} {b : Bool}

/-! ## What `replaceString` computes -/

lemma rewrites_of_ends {r r' : ℕ × StdString} (h : Ends (replaceRound p q) r r')
    (hr : r = (pre.length, pre ++ s)) : ∃ t, r'.2 = pre ++ t ∧ Rewrites p q s t := by
  induction h generalizing pre s with
  | leave hleave =>
    subst hr
    refine ⟨s, rfl, .leave ?_⟩
    rintro ⟨x, y, rfl⟩
    have hlt := replaceRound_eq_leave hleave (pre ++ x) y (by simp)
    simp only [List.length_append] at hlt
    omega
  | @again r r₁ r₂ hagain _ ih =>
    subst hr
    obtain ⟨pos', s'⟩ := r₁
    obtain ⟨a, y, hs, rfl, rfl, hle, hfirst⟩ := replaceRound_eq_again hagain
    rw [List.append_assoc] at hs
    obtain ⟨x, rfl, rfl⟩ := append_split hs hle
    obtain ⟨t, ht, hrest⟩ := ih (show _ = ((pre ++ x).length, (pre ++ x) ++ (q ++ y)) by simp)
    rw [← List.append_assoc x p y]
    refine ⟨x ++ t, by rw [ht, List.append_assoc], .again (fun x' y' h => ?_) hrest⟩
    have hpos := hfirst (pre ++ x') y' (by rw [← List.append_assoc x, h]; simp) (by simp)
    simp only [List.length_append] at hpos
    omega

/-- `replaceString` makes one text of a text. -/
lemma rewrites_replaced (hfrom : ¬ from' <:+: to') (s : StdString) :
    Rewrites from' to' s (replaced from' to' s) := by
  obtain ⟨t, ht⟩ := exists_replaceString s hfrom
  obtain ⟨pos, hends⟩ := replaceString_eq_some ht
  obtain ⟨t', heq, hrewrites⟩ := rewrites_of_ends hends (show _ = ([].length, [] ++ s) from rfl)
  have hvalue : replaced from' to' s = t' := by
    rw [replaced, ht]
    exact heq
  rwa [hvalue]

/-- What the rewriting makes of a name is what `replaceString` returns. -/
lemma replaceString_of_rewrites (hfrom : ¬ from' <:+: to') (h : Rewrites from' to' s t) :
    ∃ fuel, replaceString fuel s from' to' = some t := by
  obtain ⟨u, hu⟩ := exists_replaceString s hfrom
  have hvalue : replaced from' to' s = u := by
    rw [replaced, hu]
    rfl
  have hsame := (rewrites_replaced hfrom s).unique h
  exact ⟨s.length, by rw [hu, ← hvalue, hsame]⟩

/-! ## The parts of a type -/

/-- A replacement that takes one style to another one, part by part. -/
structure Respells (p q : StdString) (st st' : Style) : Prop where
  nonempty : p ≠ []
  opening : '<' ∉ p
  closing : '>' ∉ p
  comma : ',' ∉ p.tail
  space : ¬ p <:+: [' ', '>'] ∧ ∀ n < p.length, 0 < n → ¬ p.take n <:+ [' ', '>']
  commas : ∀ {z z'}, z.head? ≠ some ' ' → Rewrites p q z z' →
    Rewrites p q (st.comma ++ z) (st'.comma ++ z')
  head : st.comma.head? = some ','
  front : ∀ const name, Rewrites p q (st.front const name) (st'.front const name)
  first : ∀ const name, ∃ c rest, st.front const name = c :: rest ∧ c ≠ ' '
  back : ∀ const declarators, ¬ p <:+: st.back const declarators
  type : ∀ const name declarators,
    Rewrites p q (st.front const name ++ st.back const declarators)
      (st'.front const name ++ st'.back const declarators)
  number : ∀ value letters, Digits value → letters = [] ∨ Matched letters →
    Rewrites p q (st.number value letters) (st'.number value letters)
  before : st'.before = st.before
  spaced : st'.spaced = st.spaced
  loose : st.spaced → st.before

lemma fresh_write (hcomma : ',' ∉ p.tail) (hhead : st.comma.head? = some ',') {t : Arguments}
    (hz : t.closes st.before false = false → Fresh p z) : Fresh p (t.write st st.comma z) := by
  obtain ⟨r, hr⟩ := List.head?_eq_some_iff.mp hhead
  cases t with
  | none => exact hz rfl
  | integer | type | template =>
    rw [Arguments.write, hr]
    exact fresh_cons hcomma _

lemma closes_mono {all all' : Bool} (hall : all → all') {b b' : Bool} (hb : b → b') (t : Arguments)
    (h : t.closes all b) : t.closes all' b' := by
  induction t generalizing b b' with
  | none => exact hb h
  | integer value letters rest ih => exact ih (fun hno => hno) h
  | type name const declarators rest ih => exact ih (fun hno => hno) h
  | template name arguments const declarators rest _ ih =>
    apply ih _ h
    intro hcloses
    simp only [Bool.and_eq_true, Bool.or_eq_true] at hcloses ⊢
    exact ⟨hcloses.1, hcloses.2.imp_left hall⟩

lemma back_eq_nil {const : Bool} {declarators : List Declarator}
    (hempty : (declarators.isEmpty && (st.before || !const)) = true) : st.back const declarators = [] := by
  rw [Bool.and_eq_true, List.isEmpty_iff] at hempty
  unfold Style.back
  rw [hempty.1]
  cases const <;> simp_all

lemma digit_ne_space {c : Char} (hc : isDigit c = true) : c ≠ ' ' := by
  rintro rfl
  cases hc

lemma head?_number (st : Style) {value letters : StdString} (hvalue : Digits value) (z : StdString) :
    (st.number value letters ++ z).head? ≠ some ' ' := by
  obtain ⟨c, v, rfl⟩ := List.exists_cons_of_ne_nil hvalue.1
  have hc := digit_ne_space (hvalue.2 c List.mem_cons_self)
  unfold Style.number
  split <;> simpa using hc

namespace Respells
variable (h : Respells p q st st')
include h

/-- What comes before an argument. -/
lemma delimiter (hd : d = [] ∧ d' = [] ∨ d = st.comma ∧ d' = st'.comma) (hhead : z.head? ≠ some ' ')
    (hz : Rewrites p q z z') : Rewrites p q (d ++ z) (d' ++ z') := by
  rcases hd with ⟨rfl, rfl⟩ | ⟨rfl, rfl⟩
  · exact hz
  · exact h.commas hhead hz

lemma close (b : Bool) (hz : Rewrites p q z z') :
    Rewrites p q (TypeDemangler.closing b ++ z) (TypeDemangler.closing b ++ z') := by
  have hclose := hz.cons h.closing h.nonempty
  cases b with
  | false => exact hclose
  | true => exact hz.prepend (a := [' ', '>']) (apart_of_suffix h.space.2 z) h.space.1

lemma head?_front (const : Bool) (name : Name) (z : StdString) :
    (st.front const name ++ z).head? ≠ some ' ' := by
  obtain ⟨c, rest, hfront, hc⟩ := h.first const name
  rw [hfront, List.cons_append, List.head?_cons]
  exact fun heq => hc (Option.some.inj heq)

lemma back_eq (const : Bool) (declarators : List Declarator) :
    st'.back const declarators = st.back const declarators := by
  unfold Style.back
  rw [h.before]

/-- The opening bracket comes behind the name. -/
lemma opening_cons (hz : Rewrites p q z z') : Rewrites p q ('<' :: z) ('<' :: z') ∧ Fresh p ('<' :: z) :=
  ⟨hz.cons h.opening h.nonempty, fresh_cons (fun hmem => h.opening (List.mem_of_mem_tail hmem)) z⟩

/-- **A replacement goes through the type part by part.** -/
theorem write (t : Arguments) (hd : d = [] ∧ d' = [] ∨ d = st.comma ∧ d' = st'.comma)
    (hfresh : t.closes st.before b = false → Fresh p z) (hz : Rewrites p q z z') :
    Rewrites p q (t.write st d z) (t.write st' d' z') := by
  induction t generalizing b z z' d d' with
  | none => exact hz
  | integer value letters rest ih =>
    have hrest := ih (.inr ⟨rfl, rfl⟩) hfresh hz
    have hnumber := (h.number value.val letters.val value.property letters.property).append hrest
      (fresh_write h.comma h.head hfresh)
    exact h.delimiter hd (head?_number st value.property _) hnumber
  | type name const declarators rest ih =>
    have hrest := ih (.inr ⟨rfl, rfl⟩) hfresh hz
    have hwhole := (h.type const name declarators).append hrest (fresh_write h.comma h.head hfresh)
    apply h.delimiter hd _ hwhole
    rw [List.append_assoc]
    exact h.head?_front const name _
  | template name arguments const declarators rest ihArguments ih =>
    have hrest := ih (b := declarators.isEmpty && (st.before || !const)) (.inr ⟨rfl, rfl⟩) hfresh hz
    rw [Arguments.closes] at hfresh
    -- what comes behind the closing bracket
    have hback : Rewrites p q (st.back const declarators ++ rest.write st st.comma z)
        (st'.back const declarators ++ rest.write st' st'.comma z') := by
      rw [h.back_eq]
      cases hempty : declarators.isEmpty && (st.before || !const) with
      | true =>
        rw [back_eq_nil hempty]
        exact hrest
      | false =>
        rw [hempty] at hfresh
        exact hrest.prepend ((fresh_write h.comma h.head hfresh).apart _) (h.back const declarators)
    -- the bracket behind the arguments
    have hinside := ihArguments (b := false) (.inl ⟨rfl, rfl⟩) (fun hcloses => ?_)
      (h.close (arguments.closes st.spaced false) hback)
    · obtain ⟨hopening, hfresh'⟩ := h.opening_cons hinside
      have hwhole := (h.front const name).append hopening hfresh'
      rw [Arguments.write, Arguments.write, h.spaced]
      exact h.delimiter hd (h.head?_front const name _) hwhole
    · cases hspaced : arguments.closes st.spaced false with
      | false => exact fresh_cons (fun hmem => h.closing (List.mem_of_mem_tail hmem)) _
      | true =>
        have hmono := closes_mono h.loose (fun hno => hno) arguments hspaced
        exact absurd (hcloses.symm.trans hmono) (by decide)

end Respells

/-! ## The replacements of `typeDemangle` -/

/-- The characters behind names. -/
def behindNames : StdString :=
  " const*&".toList

/-- The characters other than digits that are around names and in integers. -/
def marks : StdString :=
  behindNames ++ "ul>".toList

lemma mem_back {st : Style} {const : Bool} {declarators : List Declarator} {c : Char}
    (hc : c ∈ st.back const declarators) : c ∈ behindNames := by
  have hdeclarators : ∀ c ∈ declarators.map Declarator.char, c ∈ behindNames := by
    intro c hc
    obtain ⟨x, -, rfl⟩ := List.mem_map.mp hc
    cases x <;> decide
  have hconst : ∀ c ∈ toBeMoved, c ∈ behindNames := forall_mem_of_all (by decide)
  unfold Style.back at hc
  split at hc
  · rcases List.mem_append.mp hc with hc | hc
    · exact hconst c hc
    · exact hdeclarators c hc
  · exact hdeclarators c hc

lemma mem_number {st : Style} {value letters : StdString} (hvalue : Digits value)
    (hletters : letters = [] ∨ Matched letters) {c : Char} (hc : c ∈ st.number value letters) :
    isDigit c = true ∨ c ∈ ['u', 'l'] := by
  have hmatched : ∀ c ∈ letters, c ∈ ['u', 'l'] := by
    rcases hletters with rfl | hmatched
    · exact fun c hc => absurd hc List.not_mem_nil
    · exact hmatched.forall_mem fun c hc => hc
  unfold Style.number at hc
  split at hc
  · rcases List.mem_append.mp hc with hc | hc
    · exact .inl (hvalue.2 c hc)
    · exact .inr (hmatched c hc)
  · exact .inl (hvalue.2 c hc)

lemma not_infix_of_mem {c : Char} (hc : c ∈ p) (hs : c ∉ s) : ¬ p <:+: s := fun hwithin =>
  hs (hwithin.subset hc)

/-- What is to be replaced has a character that is only in names and between arguments, and no bracket,
and it does not begin in the text that is around names. -/
structure Replaceable (p : StdString) : Prop where
  mark : ∃ c ∈ p, isDigit c = false ∧ c ∉ marks
  opening : '<' ∉ p
  closing : '>' ∉ p
  comma : ',' ∉ p.tail
  declarators : ∀ c ∈ ['*', '&'], c ∉ p.tail
  space : ∀ n < p.length, 0 < n → ¬ p.take n <:+ [' ', '>']

namespace Replaceable
variable (hp : Replaceable p)
include hp

lemma ne_nil : p ≠ [] := by
  obtain ⟨c, hc, -⟩ := hp.mark
  exact List.ne_nil_of_mem hc

lemma not_infix_of_marks (hs : ∀ c ∈ s, isDigit c = true ∨ c ∈ marks) : ¬ p <:+: s := by
  obtain ⟨c, hc, hdigit, hmarks⟩ := hp.mark
  apply not_infix_of_mem hc
  intro hmem
  rcases hs c hmem with hc | hc
  · rw [hdigit] at hc
    cases hc
  · exact hmarks hc

lemma not_infix_back (st : Style) (const : Bool) (declarators : List Declarator) :
    ¬ p <:+: st.back const declarators :=
  hp.not_infix_of_marks fun _ hc => .inr (List.mem_append_left _ (mem_back hc))

lemma fresh_back (hst : st.before ∨ ' ' ∉ p.tail) (const : Bool) (declarators : List Declarator) :
    Fresh p (st.back const declarators) := by
  have hdeclarators : Fresh p (declarators.map Declarator.char) := by
    cases declarators with
    | nil => exact fresh_nil p
    | cons x declarators =>
      apply fresh_cons
      apply hp.declarators
      cases x <;> simp [Declarator.char]
  unfold Style.back
  split
  next h =>
    rcases hst with hst | hst
    · simp [hst] at h
    · exact fresh_cons hst _
  next => exact hdeclarators

lemma front (hnames : ∀ name : Name, Rewrites p q (st.spell name.val) (st'.spell name.val))
    (hbefore : st'.before = st.before)
    (hconst : st.before → ∀ n < p.length, 0 < n → ¬ p.take n <:+ "const ".toList) (const : Bool)
    (name : Name) : Rewrites p q (st.front const name) (st'.front const name) := by
  unfold Style.front
  rw [hbefore]
  split
  next h =>
    simp only [Bool.and_eq_true] at h
    apply (hnames name).prepend (apart_of_suffix (hconst h.2) _)
    apply hp.not_infix_of_marks
    intro c hc
    have hmarks : ∀ c ∈ "const ".toList, c ∈ marks := forall_mem_of_all (by decide)
    exact .inr (hmarks c hc)
  next => exact hnames name

/-- A replacement in the names takes one style to another one, which has the new names. -/
theorem respells (hnames : ∀ name : Name, Rewrites p q (st.spell name.val) (st'.spell name.val))
    (hfirst : ∀ name : Name, ∃ c rest, st.spell name.val = c :: rest ∧ c ≠ ' ')
    (hcommas : ∀ {z z'}, z.head? ≠ some ' ' → Rewrites p q z z' →
      Rewrites p q (st.comma ++ z) (st'.comma ++ z'))
    (hhead : st.comma.head? = some ',')
    (hconst : st.before → ∀ n < p.length, 0 < n → ¬ p.take n <:+ "const ".toList)
    (hst : ∀ const (name : Name) declarators,
      Apart p (st.front const name) (st.back const declarators) ∧ ¬ p <:+: st.front const name ∨
        Fresh p (st.back const declarators))
    (hbefore : st'.before = st.before) (hletters : st'.letters = st.letters)
    (hspaced : st'.spaced = st.spaced) (hloose : st.spaced → st.before) : Respells p q st st' where
  nonempty := hp.ne_nil
  opening := hp.opening
  closing := hp.closing
  comma := hp.comma
  space := by
    refine ⟨hp.not_infix_of_marks fun c hc => .inr ?_, hp.space⟩
    have hmarks : ∀ c ∈ [' ', '>'], c ∈ marks := forall_mem_of_all (by decide)
    exact hmarks c hc
  commas := hcommas
  head := hhead
  front := hp.front hnames hbefore hconst
  first const name := by
    unfold Style.front
    split
    · exact ⟨'c', _, rfl, by decide⟩
    · exact hfirst name
  back := hp.not_infix_back st
  type const name declarators := by
    have hback : st'.back const declarators = st.back const declarators := by
      unfold Style.back
      rw [hbefore]
    have hfront := hp.front hnames hbefore hconst const name
    have hleave : Rewrites p q (st.back const declarators) (st.back const declarators) :=
      .leave (hp.not_infix_back st const declarators)
    rw [hback]
    rcases hst const name declarators with ⟨happ, hnone⟩ | hfresh
    · rw [hfront.unique (.leave hnone)]
      exact hleave.prepend happ hnone
    · exact hfront.append hleave hfresh
  number value letters hvalue hmatched := by
    have hsame : st'.number value letters = st.number value letters := by
      unfold Style.number
      rw [hletters]
    rw [hsame]
    have hmarks : ∀ c ∈ ['u', 'l'], c ∈ marks := forall_mem_of_all (by decide)
    exact .leave (hp.not_infix_of_marks fun c hc => (mem_number hvalue hmatched hc).imp_right (hmarks c))
  before := hbefore
  spaced := hspaced
  loose := hloose

end Replaceable

/-- A replacement takes the one spelling of a type to the other one. -/
lemma Respells.replaceString (h : Respells from' to' st st') (hfrom : ¬ from' <:+: to') (t : Arguments) :
    ∃ fuel, replaceString fuel (t.write st [] []) from' to' = some (t.write st' [] []) := by
  have hend : ¬ from' <:+: [] := fun hwithin => h.nonempty (List.infix_nil.mp hwithin)
  exact replaceString_of_rewrites hfrom
    (h.write t (.inl ⟨rfl, rfl⟩) (b := false) (fun _ => fresh_nil from') (.leave hend))

/-! ## Names -/

/-- A replacement in a name gives a name. -/
lemma isName_rewrites {n t : StdString} (hn : IsName n) (h : Rewrites p q n t)
    (hchars : ∀ c ∈ q, isNameChar c) (hfirst : ∃ c r, q = c :: r ∧ c ≠ ' ' ∧ isDigit c = false)
    (hword : word <+: t → word <+: n) (hnone : ¬ toBeMoved <:+: t) : IsName t where
  chars := h.forall_mem hchars hn.chars
  first := h.exists_cons hfirst hn.first
  unqualified := fun ht => hn.unqualified (hword ht)
  noQualifier := hnone

/-- The namespaces that are left out begin as what is left of them. -/
lemma isName_std {n : StdString} (hn : IsName n) (h : Rewrites p "std::".toList n t)
    (hp : "std::".toList <+: p) : IsName t := by
  apply isName_rewrites hn h (forall_mem_of_all (by decide)) ⟨'s', _, rfl, by decide, by decide⟩
  · intro ht
    have htake := h.take_eq hp (show 5 ≤ "std::".toList.length by decide)
    rw [List.prefix_iff_eq_take] at ht ⊢
    exact ht.trans htake
  · exact h.not_infix hp (by decide) (by decide) hn.noQualifier

/-- A name without the inline namespaces is a name. -/
lemma isName_rename (name : Name) : IsName (rename name.val) := by
  have hfirst : IsName (replaced "std::__1::".toList "std::".toList name.val) :=
    isName_std name.property (rewrites_replaced (by decide) _) (by decide)
  exact isName_std hfirst (rewrites_replaced (by decide) _) (by decide)

lemma isName_long {n : StdString} (hn : IsName n) (hfrom : ¬ p <:+: q) (h : Rewrites p q n t)
    (hchars : ∀ c ∈ q, isNameChar c) (hfirst : ∃ c r, q = c :: r ∧ c ≠ ' ' ∧ isDigit c = false ∧ c ∉ word)
    (hforeign : Foreign toBeMoved q) : IsName t := by
  obtain ⟨c, r, hq, hspace, hdigit, hword⟩ := hfirst
  obtain ⟨fuel, hfuel⟩ := replaceString_of_rewrites hfrom h
  exact isName_rewrites hn h hchars ⟨c, r, hq, hspace, hdigit⟩
    (fun ht => h.prefix_of_prefix ⟨c, r, hq, hword⟩ ht)
    (not_infix_replaceString hforeign hn.noQualifier hfuel)

lemma isName_shorten {n : StdString} (hn : IsName n) : IsName (shorten n) := by
  have hunsigned : IsName (replaced "unsigned long long".toList "ULong64_t".toList n) :=
    isName_long hn (by decide) (rewrites_replaced (by decide) _) (forall_mem_of_all (by decide))
      ⟨'U', _, rfl, by decide, by decide, by decide⟩ (by decide)
  exact isName_long hunsigned (by decide) (rewrites_replaced (by decide) _)
    (forall_mem_of_all (by decide)) ⟨'L', _, rfl, by decide, by decide, by decide⟩ (by decide)

/-! ## The steps before and behind -/

/-- Without the spaces behind commas. -/
def compact : Style :=
  { gcc with comma := [','] }

/-- With the names that the namespaces leave. -/
def renamed : Style :=
  { compact with spell := rename }

lemma not_mem_name (name : Name) {c : Char} (hc : isNameChar c = false) : c ∉ name.val := by
  intro hmem
  rw [name.property.chars c hmem] at hc
  cases hc

lemma exists_first (name : Name) {P : Char → Prop} (h : ∀ c, c ≠ ' ' → isDigit c = false → P c) :
    ∃ c rest, name.val = c :: rest ∧ P c := by
  obtain ⟨c, rest, hname, hspace, hdigit⟩ := name.property.first
  exact ⟨c, rest, hname, h c hspace hdigit⟩

/-- No space after comma. -/
lemma respells_comma : Respells ", ".toList ",".toList gcc compact := by
  have hp : Replaceable ", ".toList :=
    ⟨⟨',', by decide, by decide, by decide⟩, by decide, by decide, by decide,
      forall_mem_of_all (by decide), by decide⟩
  have hnone : ∀ name : Name, ',' ∉ name.val := fun name => not_mem_name name (by decide)
  refine hp.respells (fun name => .leave (not_infix_of_mem (c := ',') (by decide) (hnone name)))
    (fun name => exists_first name fun c hc _ => hc) ?_ rfl (fun _ => by decide)
    (fun const name declarators => .inl ?_) rfl rfl rfl id
  · intro z z' hz hrewrites
    have hfresh : Fresh ", ".toList z := by
      rintro c hc hmem
      obtain rfl : c = ' ' := List.mem_singleton.mp hmem
      exact hz hc
    have hagain : Rewrites ", ".toList ",".toList (",".toList ++ z) (",".toList ++ z') :=
      hrewrites.prepend (hfresh.apart _) (by decide)
    exact .again (x := []) (fun x' y' _ => Nat.zero_le _) hagain
  · have hfront : gcc.front const name = name.val := by
      unfold Style.front
      simp [gcc]
    rw [hfront]
    exact ⟨apart_of_head (hnone name) _ _, not_infix_of_mem (c := ',') (by decide) (hnone name)⟩

/-- A replacement in names only. -/
lemma Replaceable.respells_names (hp : Replaceable p) (hcomma : ',' ∉ p) (hst : st.comma = [','])
    {spell : StdString → StdString}
    (hnames : ∀ name : Name, Rewrites p q (st.spell name.val) (spell name.val))
    (hfirst : ∀ name : Name, ∃ c rest, st.spell name.val = c :: rest ∧ c ≠ ' ')
    (hconst : st.before → ∀ n < p.length, 0 < n → ¬ p.take n <:+ "const ".toList)
    (hspace : st.before ∨ ' ' ∉ p.tail) (hloose : st.spaced → st.before) :
    Respells p q st { st with spell := spell } := by
  refine hp.respells hnames hfirst ?_ (by rw [hst]; rfl) hconst
    (fun const name declarators => .inr (hp.fresh_back hspace const declarators)) rfl rfl rfl hloose
  intro z z' _ hrewrites
  rw [hst]
  exact hrewrites.cons hcomma hp.ne_nil

/-- No space before opening square bracket: there is none. -/
lemma respells_bracket : Respells " [".toList "[".toList compact compact := by
  have hp : Replaceable " [".toList :=
    ⟨⟨'[', by decide, by decide, by decide⟩, by decide, by decide, by decide,
      forall_mem_of_all (by decide), by decide⟩
  have hnone : ∀ name : Name, ¬ " [".toList <:+: name.val := fun name =>
    not_infix_of_mem (c := '[') (by decide) (not_mem_name name (by decide))
  exact hp.respells_names (by decide) rfl (fun name => .leave (hnone name))
    (fun name => exists_first name fun c hc _ => hc) (fun h => nomatch h) (.inr (by decide)) id

/-- The namespace of clang. -/
lemma respells_clang : Respells "std::__1::".toList "std::".toList compact
    { compact with spell := replaced "std::__1::".toList "std::".toList } := by
  have hp : Replaceable "std::__1::".toList :=
    ⟨⟨':', by decide, by decide, by decide⟩, by decide, by decide, by decide,
      forall_mem_of_all (by decide), by decide⟩
  exact hp.respells_names (by decide) rfl (fun name => rewrites_replaced (by decide) name.val)
    (fun name => exists_first name fun c hc _ => hc) (fun h => nomatch h) (.inr (by decide)) id

/-- The namespace of the new ABI of gcc. -/
lemma respells_abi : Respells "std::__cxx11::".toList "std::".toList
    { compact with spell := replaced "std::__1::".toList "std::".toList } renamed := by
  have hp : Replaceable "std::__cxx11::".toList :=
    ⟨⟨':', by decide, by decide, by decide⟩, by decide, by decide, by decide,
      forall_mem_of_all (by decide), by decide⟩
  refine hp.respells_names (by decide) rfl (fun name => rewrites_replaced (by decide) _)
    (fun name => ?_) (fun h => nomatch h) (.inr (by decide)) id
  have hname : IsName (replaced "std::__1::".toList "std::".toList name.val) :=
    isName_std name.property (rewrites_replaced (by decide) _) (by decide)
  exact exists_first ⟨_, hname⟩ fun c hc _ => hc

/-- The dictionaries' style, with the names that the namespaces leave. -/
def long : Style :=
  { dictionary with spell := rename }

/-- `unsigned long long` becomes `ULong64_t`. -/
lemma respells_unsigned : Respells "unsigned long long".toList "ULong64_t".toList long
    { long with spell := replaced "unsigned long long".toList "ULong64_t".toList ∘ rename } := by
  have hp : Replaceable "unsigned long long".toList :=
    ⟨⟨'g', by decide, by decide, by decide⟩, by decide, by decide, by decide,
      forall_mem_of_all (by decide), by decide⟩
  exact hp.respells_names (by decide) rfl (fun name => rewrites_replaced (by decide) _)
    (fun name => exists_first ⟨_, isName_rename name⟩ fun c hc _ => hc) (fun _ => by decide) (.inl rfl)
    fun _ => rfl

/-- `long long` becomes `Long64_t`. -/
lemma respells_long : Respells "long long".toList "Long64_t".toList
    { long with spell := replaced "unsigned long long".toList "ULong64_t".toList ∘ rename }
    dictionary := by
  have hp : Replaceable "long long".toList :=
    ⟨⟨'g', by decide, by decide, by decide⟩, by decide, by decide, by decide,
      forall_mem_of_all (by decide), by decide⟩
  refine hp.respells_names (by decide) rfl (fun name => rewrites_replaced (by decide) _)
    (fun name => ?_) (fun _ => by decide) (.inl rfl) fun _ => rfl
  obtain ⟨c, rest, hname, hspace, -⟩ := (isName_rename name).first
  exact (rewrites_replaced (by decide) _).exists_cons ⟨'U', _, rfl, by decide⟩ ⟨c, rest, hname, hspace⟩

end UnifyPrototype.TypeDemangler
