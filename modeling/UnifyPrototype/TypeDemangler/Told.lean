import UnifyPrototype.TypeDemangler.Dictionary

/-!
# Names of different types

A text in the style of the dictionaries can be read: it tells all of the type but the letters of its
integers and what is left out of its names.
-/

namespace UnifyPrototype.TypeDemangler

open UnifyPrototype.Utils UnifyPrototype.Cms Text

variable {cxaDemangle : StdString → Option StdString} {mangledName mangledName' s s' x y z z' : StdString}
  {t t' : Arguments} {b : Bool}

/-! ## What a text tells -/

/-- The name as it is in dictionaries. -/
def short (name : Name) : Name :=
  ⟨shorten (rename name.val), isName_shorten (isName_rename name)⟩

namespace Arguments

/-- The arguments as their text tells them. -/
def told : Arguments → Arguments
  | none => none
  | integer value _ rest => integer value ⟨[], .inl rfl⟩ rest.told
  | type name const declarators rest => type (short name) const declarators rest.told
  | template name arguments const declarators rest =>
    template (short name) arguments.told const declarators rest.told

lemma closes_told (all b : Bool) (t : Arguments) : t.told.closes all b = t.closes all b := by
  induction t generalizing b with
  | none => rfl
  | integer value letters rest ih => exact ih false
  | type name const declarators rest ih => exact ih false
  | template name arguments const declarators rest _ ih => exact ih _

/-- The text is that of what it tells. -/
lemma write_told (t : Arguments) (d z : StdString) :
    t.told.write { dictionary with spell := id } d z = t.write dictionary d z := by
  have hfront : ∀ const name, { dictionary with spell := id }.front const (short name) =
      dictionary.front const name := fun _ _ => rfl
  induction t generalizing d z with
  | none => rfl
  | integer value letters rest ih =>
    rw [told, write, write, ← ih]
    rfl
  | type name const declarators rest ih =>
    rw [told, write, write, ← ih, hfront]
    rfl
  | template name arguments const declarators rest ihArguments ih =>
    rw [told, write, write, ← ih, ← ihArguments, hfront, closes_told]
    rfl

end Arguments

/-! ## Reading -/

/-- A text whose first part is made of some characters and whose second one does not begin with one. -/
lemma span_append_inj {p : Char → Bool} (hs : ∀ c ∈ s, p c) (hs' : ∀ c ∈ s', p c)
    (hx : ∀ c ∈ x.head?, p c = false) (hy : ∀ c ∈ y.head?, p c = false) (h : s ++ x = s' ++ y) :
    s = s' ∧ x = y := by
  have hspan : ∀ {s x : StdString}, (∀ c ∈ s, p c) → (∀ c ∈ x.head?, p c = false) →
      (s ++ x).takeWhile p = s := by
    intro s x hs hx
    rw [List.takeWhile_append_of_pos hs]
    cases x with
    | nil => rw [List.takeWhile_nil, List.append_nil]
    | cons c x => rw [List.takeWhile_cons_of_neg (by simp [hx c rfl]), List.append_nil]
  have hsame : s = s' := by rw [← hspan hs hx, h, hspan hs' hy]
  subst hsame
  exact ⟨rfl, List.append_cancel_left h⟩

/-- What comes behind a type. -/
def isBehind (c : Char) : Bool :=
  c ∈ [',', ' ', '>']

lemma head?_rest (t : Arguments) (b : Bool) (z : StdString) :
    ∀ c ∈ (t.write dictionary (delimiter false) (closing (t.closes true b) ++ z)).head?,
      isBehind c ∧ (b = false → c ≠ ' ') := by
  intro c hc
  cases t with
  | none =>
    cases b with
    | true =>
      obtain rfl : ' ' = c := Option.some.inj hc
      exact ⟨rfl, fun hb => nomatch hb⟩
    | false =>
      obtain rfl : '>' = c := Option.some.inj hc
      exact ⟨rfl, fun _ => by decide⟩
  | integer | type | template =>
    obtain rfl : ',' = c := Option.some.inj hc
    exact ⟨rfl, fun _ => by decide⟩

lemma isBehind_cases {c : Char} (hc : isBehind c) : c = ',' ∨ c = ' ' ∨ c = '>' := by
  simpa [isBehind] using hc

/-- The declarators are before the first character that is none. -/
lemma back_inj {const const' : Bool} {declarators declarators' : List Declarator}
    (hx : ∀ c ∈ x.head?, isBehind c) (hy : ∀ c ∈ y.head?, isBehind c)
    (h : dictionary.back const declarators ++ x = dictionary.back const' declarators' ++ y) :
    declarators = declarators' ∧ x = y := by
  have hback : ∀ const declarators, dictionary.back const declarators = declarators.map Declarator.char := by
    intro const declarators
    unfold Style.back
    simp [dictionary]
  have hdeclarator : ∀ declarators : List Declarator, ∀ c ∈ declarators.map Declarator.char,
      (decide (c ∈ ['*', '&'])) = true := by
    intro declarators c hc
    obtain ⟨d, -, rfl⟩ := List.mem_map.mp hc
    cases d <;> rfl
  have hbehind : ∀ c, isBehind c → decide (c ∈ ['*', '&']) = false := by
    intro c hc
    rcases isBehind_cases hc with rfl | rfl | rfl <;> rfl
  rw [hback, hback] at h
  obtain ⟨hmap, hrest⟩ := span_append_inj (hdeclarator declarators) (hdeclarator declarators')
    (fun c hc => hbehind c (hx c hc)) (fun c hc => hbehind c (hy c hc)) h
  have hinjective : Function.Injective Declarator.char := by
    intro d d' hd
    cases d <;> cases d' <;> first | rfl | cases hd
  exact ⟨List.map_injective_iff.mpr hinjective hmap, hrest⟩

/-- The name is before the first character that is in no name, and `const` is not a part of it. -/
lemma front_inj {const const' : Bool} {name name' : Name} (hx : ∀ c ∈ x.head?, isNameChar c = false)
    (hy : ∀ c ∈ y.head?, isNameChar c = false)
    (h : dictionary.front const name ++ x = dictionary.front const' name' ++ y) :
    const = const' ∧ short name = short name' ∧ x = y := by
  have hfront : ∀ const name, dictionary.front const name = lead const ++ (short name).val := by
    intro const name
    cases const <;> rfl
  have hchars : ∀ const name, ∀ c ∈ dictionary.front const name, isNameChar c := by
    intro const name c hc
    rw [hfront] at hc
    rcases List.mem_append.mp hc with hc | hc
    · have hlead : ∀ c ∈ lead const, isNameChar c := by
        cases const <;> exact forall_mem_of_all (by decide)
      exact hlead c hc
    · exact (short name).property.chars c hc
  obtain ⟨hsame, hrest⟩ := span_append_inj (hchars const name) (hchars const' name') hx hy h
  rw [hfront, hfront] at hsame
  have hword : ∀ {n : Name} {m : StdString}, ¬ n.val = "const ".toList ++ m := by
    intro n m hn
    exact n.property.unqualified ⟨' ' :: m, by rw [hn]; rfl⟩
  cases const <;> cases const'
  · exact ⟨rfl, Subtype.ext hsame, hrest⟩
  · exact absurd hsame hword
  · exact absurd hsame.symm hword
  · exact ⟨rfl, Subtype.ext (List.append_cancel_left hsame), hrest⟩

/-! ## Arguments -/

/-- What comes behind the name of a type that has no arguments. -/
lemma head?_back (const : Bool) (declarators : List Declarator)
    (hx : ∀ c ∈ x.head?, isNameChar c = false ∧ c ≠ '<') :
    ∀ c ∈ (dictionary.back const declarators ++ x).head?, isNameChar c = false ∧ c ≠ '<' := by
  intro c hc
  have hback : dictionary.back const declarators = declarators.map Declarator.char := by
    unfold Style.back
    simp [dictionary]
  rw [hback] at hc
  cases declarators with
  | nil => exact hx c hc
  | cons d declarators =>
    obtain rfl : d.char = c := Option.some.inj hc
    cases d <;> exact ⟨by decide, by decide⟩

lemma head?_type (const : Bool) (declarators : List Declarator) (rest : Arguments) (z : StdString) :
    ∀ c ∈ (dictionary.back const declarators ++
      rest.write dictionary (delimiter false) (closing (rest.closes true false) ++ z)).head?,
      isNameChar c = false ∧ c ≠ '<' := by
  apply head?_back
  intro c hc
  obtain ⟨hbehind, hspace⟩ := head?_rest rest false z c hc
  rcases isBehind_cases hbehind with rfl | rfl | rfl
  · exact ⟨by decide, by decide⟩
  · exact absurd rfl (hspace rfl)
  · exact ⟨by decide, by decide⟩

/-- A type that has arguments is told from one that has none. -/
lemma type_ne_template {const const' : Bool} {name name' : Name} {declarators : List Declarator}
    (hx : ∀ c ∈ (dictionary.back const declarators ++ x).head?, isNameChar c = false ∧ c ≠ '<') :
    dictionary.front const name ++ dictionary.back const declarators ++ x ≠
      dictionary.front const' name' ++ '<' :: y := by
  intro h
  rw [List.append_assoc] at h
  obtain ⟨-, -, hsame⟩ := front_inj (fun c hc => (hx c hc).1)
    (fun c hc => by obtain rfl : '<' = c := Option.some.inj hc; decide) h
  rw [hsame] at hx
  exact (hx '<' rfl).2 rfl

/-- What the text of the arguments, with a bracket behind it, begins with. -/
def Arguments.Starts : Arguments → Char → Prop
  | .none, c => c = ' ' ∨ c = '>'
  | .integer .., c => isDigit c
  | .type .., c => isDigit c = false ∧ c ≠ ' ' ∧ c ≠ '>'
  | .template .., c => isDigit c = false ∧ c ≠ ' ' ∧ c ≠ '>'

lemma exists_starts_front (const : Bool) (name : Name) :
    ∃ c rest, dictionary.front const name = c :: rest ∧ isDigit c = false ∧ c ≠ ' ' ∧ c ≠ '>' := by
  cases const with
  | true => exact ⟨'c', _, rfl, by decide, by decide, by decide⟩
  | false =>
    obtain ⟨c, rest, hname, hspace, hdigit⟩ := (short name).property.first
    refine ⟨c, rest, hname, hdigit, hspace, ?_⟩
    rintro rfl
    have hchar : isNameChar '>' = true := (short name).property.chars '>' (by rw [hname]; exact List.mem_cons_self)
    cases hchar

/-- The first character of an argument tells what it is. -/
lemma exists_starts (t : Arguments) (b : Bool) (z : StdString) :
    ∃ c rest, t.write dictionary [] (closing b ++ z) = c :: rest ∧ t.Starts c := by
  cases t with
  | none =>
    cases b with
    | true => exact ⟨' ', _, rfl, .inl rfl⟩
    | false => exact ⟨'>', _, rfl, .inr rfl⟩
  | integer value letters rest =>
    obtain ⟨c, v, hv⟩ := List.exists_cons_of_ne_nil value.property.1
    have hc : isDigit c = true := value.property.2 c (by rw [hv]; exact List.mem_cons_self)
    refine ⟨c, v ++ rest.write dictionary (delimiter false) (closing b ++ z), ?_, hc⟩
    show value.val ++ rest.write dictionary (delimiter false) (closing b ++ z) = _
    rw [hv, List.cons_append]
  | type name const | template name _ const =>
    obtain ⟨c, front, hfront, hc⟩ := exists_starts_front const name
    simp only [Arguments.write, hfront, List.nil_append, List.cons_append]
    exact ⟨c, _, rfl, hc⟩

/-- Behind a comma. -/
lemma told_of_comma
    (ih : ∀ {t' : Arguments} {b z z'}, t.write dictionary [] (closing (t.closes true b) ++ z) =
      t'.write dictionary [] (closing (t'.closes true b) ++ z') → t.told = t'.told ∧ z = z')
    (h : t.write dictionary (delimiter false) (closing (t.closes true b) ++ z) =
      t'.write dictionary (delimiter false) (closing (t'.closes true b) ++ z')) :
    t.told = t'.told ∧ z = z' := by
  have hcomma : ∀ t : Arguments, t = .none ∨
      ∀ z, t.write dictionary (delimiter false) z = ',' :: t.write dictionary [] z := by
    intro t
    cases t with
    | none => exact .inl rfl
    | integer | type | template => exact .inr fun _ => rfl
  have hclosing : ∀ z x : StdString, closing b ++ z ≠ ',' :: x := by
    intro z x h
    cases b <;> cases h
  rcases hcomma t with rfl | ht
  · rcases hcomma t' with rfl | ht'
    · exact ⟨rfl, List.append_cancel_left h⟩
    · rw [ht'] at h
      exact absurd h (hclosing _ _)
  · rw [ht] at h
    rcases hcomma t' with rfl | ht'
    · exact absurd h.symm (hclosing _ _)
    · rw [ht'] at h
      exact ih (List.cons.inj h).2

/-- **The text tells what the arguments are.** -/
theorem told_of_write (t : Arguments) (h : t.write dictionary [] (closing (t.closes true b) ++ z) =
    t'.write dictionary [] (closing (t'.closes true b) ++ z')) : t.told = t'.told ∧ z = z' := by
  have hstarts : ∀ {t t' : Arguments} {b z z'}, t.write dictionary [] (closing (t.closes true b) ++ z) =
      t'.write dictionary [] (closing (t'.closes true b) ++ z') → ∃ c, t.Starts c ∧ t'.Starts c := by
    intro t t' b z z' h
    obtain ⟨c, rest, hc, hstart⟩ := exists_starts t (t.closes true b) z
    obtain ⟨c', rest', hc', hstart'⟩ := exists_starts t' (t'.closes true b) z'
    rw [hc, hc'] at h
    obtain ⟨rfl, -⟩ := List.cons.inj h
    exact ⟨c, hstart, hstart'⟩
  induction t generalizing t' b z z' with
  | none =>
    obtain ⟨c, hstart, hstart'⟩ := hstarts h
    cases t' with
    | none => exact ⟨rfl, List.append_cancel_left h⟩
    | integer => rcases hstart with rfl | rfl <;> cases hstart'
    | type | template => rcases hstart with rfl | rfl <;> simp [Arguments.Starts] at hstart'
  | integer value letters rest ih =>
    obtain ⟨c, hstart, hstart'⟩ := hstarts h
    cases t' with
    | none => rcases hstart' with rfl | rfl <;> cases hstart
    | type | template => exact absurd (hstart.symm.trans hstart'.1) (by decide)
    | integer value' letters' rest' =>
      have hdigit : ∀ c, isBehind c → isDigit c = false := by
        intro c hc
        rcases isBehind_cases hc with rfl | rfl | rfl <;> decide
      obtain ⟨hvalue, hrest⟩ := span_append_inj value.property.2 value'.property.2
        (fun c hc => hdigit c (head?_rest rest false z c hc).1)
        (fun c hc => hdigit c (head?_rest rest' false z' c hc).1) h
      obtain ⟨htold, hz⟩ := told_of_comma ih hrest
      rw [Arguments.told, Arguments.told, htold, Subtype.ext hvalue]
      exact ⟨rfl, hz⟩
  | type name const declarators rest ih =>
    obtain ⟨c, hstart, hstart'⟩ := hstarts h
    cases t' with
    | none => rcases hstart' with rfl | rfl <;> simp [Arguments.Starts] at hstart
    | integer => exact absurd (hstart'.symm.trans hstart.1) (by decide)
    | template => exact absurd h (type_ne_template (head?_type const declarators rest z))
    | type name' const' declarators' rest' =>
      have h' : dictionary.front const name ++ (dictionary.back const declarators ++
          rest.write dictionary (delimiter false) (closing (rest.closes true false) ++ z)) =
          dictionary.front const' name' ++ (dictionary.back const' declarators' ++
            rest'.write dictionary (delimiter false) (closing (rest'.closes true false) ++ z')) := by
        rw [← List.append_assoc, ← List.append_assoc]
        exact h
      obtain ⟨hconst, hname, hback⟩ := front_inj
        (fun c hc => (head?_type const declarators rest z c hc).1)
        (fun c hc => (head?_type const' declarators' rest' z' c hc).1) h'
      obtain ⟨hdeclarators, hrest⟩ := back_inj (fun c hc => (head?_rest rest false z c hc).1)
        (fun c hc => (head?_rest rest' false z' c hc).1) hback
      obtain ⟨htold, hz⟩ := told_of_comma ih hrest
      rw [Arguments.told, Arguments.told, htold, hconst, hname, hdeclarators]
      exact ⟨rfl, hz⟩
  | template name arguments const declarators rest ihArguments ih =>
    obtain ⟨c, hstart, hstart'⟩ := hstarts h
    cases t' with
    | none => rcases hstart' with rfl | rfl <;> simp [Arguments.Starts] at hstart
    | integer => exact absurd (hstart'.symm.trans hstart.1) (by decide)
    | type name' const' declarators' rest' =>
      exact absurd h.symm (type_ne_template (head?_type const' declarators' rest' z'))
    | template name' arguments' const' declarators' rest' =>
      have hopening : ∀ {x : StdString}, ∀ c ∈ ('<' :: x).head?, isNameChar c = false := by
        intro x c hc
        obtain rfl : '<' = c := Option.some.inj hc
        decide
      -- the name, the arguments, the declarators and what is behind them, one after the other
      obtain ⟨hconst, hname, hinside⟩ := front_inj hopening hopening h
      obtain ⟨harguments, hback⟩ := ihArguments (List.cons.inj hinside).2
      subst hconst
      have hbehind : ∀ (rest : Arguments) b z, ∀ c ∈ (rest.write dictionary (delimiter false)
          (closing (rest.closes true b) ++ z)).head?, isBehind c := fun rest b z c hc =>
        (head?_rest rest b z c hc).1
      obtain ⟨hdeclarators, hrest⟩ := back_inj (hbehind rest _ z) (hbehind rest' _ z') hback
      subst hdeclarators
      obtain ⟨htold, hz⟩ := told_of_comma ih hrest
      rw [Arguments.told, Arguments.told, htold, hname, harguments]
      exact ⟨rfl, hz⟩

/-! ## Types -/

/-- Two types written alike are told alike. -/
lemma told_of_type (htype : t.IsType) (htype' : t'.IsType)
    (h : t.write dictionary [] [] = t'.write dictionary [] []) : t.told = t'.told := by
  have hend : ∀ (declarators : List Declarator), ∀ c ∈ (dictionary.back false declarators ++ []).head?,
      isNameChar c = false ∧ c ≠ '<' := fun declarators =>
    head?_back false declarators fun c hc => nomatch hc
  have hopening : ∀ {x : StdString}, ∀ c ∈ ('<' :: x).head?, isNameChar c = false := by
    intro x c hc
    obtain rfl : '<' = c := Option.some.inj hc
    decide
  have hnone : ∀ c ∈ ([] : StdString).head?, isBehind c := fun c hc => nomatch hc
  rcases htype.eq with ⟨name, declarators, rfl⟩ | ⟨name, arguments, declarators, rfl⟩
  · rcases htype'.eq with ⟨name', declarators', rfl⟩ | ⟨name', arguments', declarators', rfl⟩
    · have h' : dictionary.front false name ++ (dictionary.back false declarators ++ []) =
          dictionary.front false name' ++ (dictionary.back false declarators' ++ []) := by
        rw [← List.append_assoc, ← List.append_assoc]
        exact h
      obtain ⟨-, hname, hback⟩ := front_inj (fun c hc => (hend declarators c hc).1)
        (fun c hc => (hend declarators' c hc).1) h'
      obtain ⟨hdeclarators, -⟩ := back_inj hnone hnone hback
      show Arguments.type (short name) false declarators .none = .type (short name') false declarators' .none
      rw [hname, hdeclarators]
    · exact absurd h (type_ne_template (hend declarators))
  · rcases htype'.eq with ⟨name', declarators', rfl⟩ | ⟨name', arguments', declarators', rfl⟩
    · exact absurd h.symm (type_ne_template (hend declarators'))
    · obtain ⟨-, hname, hinside⟩ := front_inj hopening hopening h
      obtain ⟨harguments, hback⟩ := told_of_write arguments (List.cons.inj hinside).2
      obtain ⟨hdeclarators, -⟩ := back_inj hnone hnone hback
      show Arguments.template (short name) arguments.told false declarators .none =
        .template (short name') arguments'.told false declarators' .none
      rw [hname, harguments, hdeclarators]

def stdAllocator : Name :=
  ⟨"std::allocator".toList, forall_mem_of_all (by decide), ⟨'s', _, rfl, by decide, by decide⟩, by decide,
    by decide⟩

def withAllocator : Arguments :=
  .template classA (.type classB false [] (.template stdAllocator (.type classB false [] .none) false []
    .none)) false [] .none

def withoutAllocator : Arguments :=
  .template classA (.type classB false [] .none) false [] .none

def demangleEither (name : StdString) : Option StdString :=
  if name = "1AI1BSaIS0_EE".toList then some "A<B, std::allocator<B> >".toList
  else demangleOnly "1AI1BE".toList "A<B>".toList name

end UnifyPrototype.TypeDemangler
