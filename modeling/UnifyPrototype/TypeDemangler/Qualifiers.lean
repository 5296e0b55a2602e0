import UnifyPrototype.TypeDemangler.Defaults

/-!
# `constBeforeIdentifier` on types

Inside the arguments of a template, a round takes the first qualifier to the beginning of the type that
it is for. The qualifiers come in the order in which their types end.
-/

namespace UnifyPrototype.TypeDemangler

open UnifyPrototype.Utils UnifyPrototype.Cms Text Relation

variable {a b s t x y z out : StdString} {c : Char} {m n : ℕ}

/-! ## A round -/

/-- The inner loop passes over brackets with all that is in them. -/
lemma scan_nesting (h : nesting x n = some m) (hout : out ≠ []) (k : ℕ) :
    scan (x.reverse ++ out) (m + 1 + k) = scan out (n + 1 + k) := by
  induction x generalizing n out with
  | nil =>
    obtain rfl := Option.some.inj h
    rfl
  | cons c x ih =>
    rw [List.reverse_cons, List.append_assoc, List.singleton_append]
    simp only [nesting, Brackets.nesting] at h
    split_ifs at h with hopening hclosing hzero
    · rw [ih h (List.cons_ne_nil c out), hopening, scan, if_neg hout, if_neg (by decide),
        if_pos (by omega), if_pos rfl]
      congr 1
      omega
    · rw [ih h (List.cons_ne_nil c out), hclosing, scan, if_neg hout, if_pos rfl]
      congr 1
      omega
    · rw [ih h (List.cons_ne_nil c out), scan, if_neg hout, if_neg hclosing, if_pos (by omega),
        if_neg hopening]

/-- The inner loop passes over the text `x` of a type. -/
def Passed (x : StdString) : Prop :=
  ∀ out, out ≠ [] → scan (x.reverse ++ out) 0 = scan out 0

lemma passed_of_plain (hx : Plain x) : Passed x := fun _ hout =>
  scan_append (fun c hc => hx c (List.mem_reverse.mp hc)) hout 0

lemma Passed.template (hx : Plain x) (hy : Balanced y) : Passed (x ++ '<' :: (y ++ ['>'])) := by
  intro out hout
  have hbefore : x.reverse ++ out ≠ [] := List.append_ne_nil_of_right_ne_nil _ hout
  have hinside := scan_nesting hy (List.cons_ne_nil '<' (x.reverse ++ out)) 0
  calc scan ((x ++ '<' :: (y ++ ['>'])).reverse ++ out) 0
      = scan ('>' :: (y.reverse ++ '<' :: (x.reverse ++ out))) 0 := by simp
    _ = scan (y.reverse ++ '<' :: (x.reverse ++ out)) 1 := by
        rw [scan, if_neg (by simp), if_pos rfl]
    _ = scan ('<' :: (x.reverse ++ out)) 1 := hinside
    _ = scan (x.reverse ++ out) 0 := by
        rw [scan, if_neg hbefore, if_neg (by decide), if_pos (by decide), if_pos rfl]
    _ = scan out 0 := passed_of_plain hx out hout

/-- A round moves the first qualifier to the beginning of its type. -/
lemma constRound_eq (hy : y ≠ []) (hc : isDelimiter c) (hx : Passed x)
    (hnone : ¬ toBeMoved <:+: y ++ c :: x) (b : StdString) :
    constRound (y ++ c :: (x ++ (toBeMoved ++ b))) = .again (y ++ c :: ("const ".toList ++ (x ++ b))) := by
  have htext : y ++ c :: (x ++ (toBeMoved ++ b)) = y ++ c :: x ++ (toBeMoved ++ b) := by simp
  rw [htext]
  have hscan : scan (y ++ c :: x).reverse 0 = some (c :: y.reverse) := by
    have hout := hx (c :: y.reverse) (List.cons_ne_nil _ _)
    rw [show (y ++ c :: x).reverse = x.reverse ++ c :: y.reverse by simp, hout]
    exact scan_delimiter hc (by simpa using hy)
  rcases constRound_cases (y ++ c :: x ++ (toBeMoved ++ b)) with
    ⟨-, hnot⟩ | ⟨a, b', hsplit, hfirst, hround⟩
  · exact absurd ⟨y ++ c :: x, b, by simp⟩ hnot
  have ha : a = y ++ c :: x ∧ b' = b := by
    have hfresh : Fresh toBeMoved (toBeMoved ++ b) := fresh_cons (by decide) _
    have hle := hfirst (y ++ c :: x) b (by rw [← hsplit, ← List.append_assoc])
    rcases occurrence_cases (hfresh.apart _) hsplit with ⟨z, hz, -⟩ | ⟨z, rfl, hz⟩
    · exact absurd ⟨a, z, hz.symm⟩ hnone
    · obtain rfl : z = [] := by
        rw [List.length_append] at hle
        exact List.length_eq_zero_iff.mp (by omega)
      simpa using hz.symm
  obtain ⟨rfl, rfl⟩ := ha
  rcases hround with ⟨hnil, -⟩ | ⟨-, hnowhere, -⟩ | ⟨upTo, x', -, hscan', hx', hagain⟩
  · simp at hnil
  · cases hscan.symm.trans hnowhere
  · obtain rfl := Option.some.inj (hscan.symm.trans hscan')
    obtain rfl : x' = x := by
      have hsame : y ++ c :: x = y ++ c :: x' := by simpa using hx'
      simpa using hsame.symm
    rw [hagain]
    simp

/-! ## All rounds -/

/-- The style of the demangler, with `const` before the names. -/
def qualified : Style :=
  { renamed with before := true }

lemma bracketed_qualified : Bracketed qualified where
  comma := rfl
  front const name := by
    have hopening : '<' ∉ rename name.val := not_mem_rename name (by decide)
    have hclosing : '>' ∉ rename name.val := not_mem_rename name (by decide)
    unfold Style.front
    split
    · simp only [List.mem_append, not_or]
      exact ⟨⟨by decide, hopening⟩, by decide, hclosing⟩
    · exact ⟨hopening, hclosing⟩

lemma qualified_back (const : Bool) (declarators : List Declarator) :
    qualified.back const declarators = declarators.map Declarator.char := by
  unfold Style.back
  simp [qualified]

lemma not_infix_front (const : Bool) (name : Name) : ¬ toBeMoved <:+: qualified.front const name := by
  have hname := isName_rename name
  unfold Style.front
  split
  · show ¬ toBeMoved <:+: word ++ ' ' :: rename name.val
    have hword : ' ' ∉ word := by decide
    apply not_infix_append (apart_of_head hword word _)
    · exact not_infix_of_mem List.mem_cons_self hword
    · show ¬ ' ' :: word <:+: ' ' :: rename name.val
      rw [List.infix_cons_iff, not_or, List.cons_prefix_cons]
      exact ⟨fun h => hname.unqualified h.2, hname.noQualifier⟩
  · exact hname.noQualifier

lemma not_infix_of_comma (first : Bool) (hz : ¬ toBeMoved <:+: z) : ¬ toBeMoved <:+: delimiter first ++ z := by
  cases first with
  | true => exact hz
  | false =>
    have hcomma : ',' ∉ toBeMoved := by decide
    show ¬ toBeMoved <:+: [] ++ ',' :: z
    rw [infix_append_cons (by decide) hcomma, not_or]
    exact ⟨by decide, hz⟩

lemma not_infix_back (const : Bool) (declarators : List Declarator) :
    ¬ toBeMoved <:+: qualified.back const declarators := by
  rw [qualified_back]
  apply not_infix_of_mem List.mem_cons_self
  intro hmem
  obtain ⟨x, -, hx⟩ := List.mem_map.mp hmem
  cases x <;> cases hx

lemma fresh_back (const : Bool) (declarators : List Declarator) :
    Fresh toBeMoved (qualified.back const declarators) := by
  rw [qualified_back]
  cases declarators with
  | nil => exact fresh_nil toBeMoved
  | cons x declarators =>
    apply fresh_cons
    cases x <;> decide

lemma fresh_rest (t : Arguments) (hfresh : Fresh toBeMoved z) :
    Fresh toBeMoved (t.write qualified (delimiter false) z) := by
  show Fresh toBeMoved (t.write qualified qualified.comma z)
  exact fresh_write (by decide) rfl fun _ => hfresh

lemma fresh_closing (b : Bool) (z : StdString) : Fresh toBeMoved (closing b ++ z) := by
  cases b <;> exact fresh_cons (by decide) _

lemma not_infix_closing (b : Bool) (hz : ¬ toBeMoved <:+: z) : ¬ toBeMoved <:+: closing b ++ z := by
  cases b with
  | true => exact not_infix_append (apart_of_suffix (by decide) z) (by decide) hz
  | false => exact not_infix_append (apart_of_suffix (by decide) z) (by decide) hz

/-- Nothing in the written type is a qualifier behind a name. -/
lemma not_infix_qualified (t : Arguments) (hz : ¬ toBeMoved <:+: z) (hfresh : Fresh toBeMoved z)
    (first : Bool) : ¬ toBeMoved <:+: t.write qualified (delimiter first) z := by
  induction t generalizing z first with
  | none => exact hz
  | integer value letters rest ih =>
    have hnumber : ¬ toBeMoved <:+: qualified.number value.val letters.val :=
      not_infix_of_mem List.mem_cons_self
        (not_mem_number value.property letters.property (by decide) (by decide))
    apply not_infix_of_comma
    exact not_infix_append ((fresh_rest rest hfresh).apart _) hnumber (ih hz hfresh false)
  | type name const declarators rest ih =>
    have htype : ¬ toBeMoved <:+: qualified.front const name ++ qualified.back const declarators :=
      not_infix_append ((fresh_back const declarators).apart _) (not_infix_front const name)
        (not_infix_back const declarators)
    apply not_infix_of_comma
    exact not_infix_append ((fresh_rest rest hfresh).apart _) htype (ih hz hfresh false)
  | template name arguments const declarators rest ihArguments ih =>
    have hbehind : ¬ toBeMoved <:+: qualified.back const declarators ++ rest.write qualified (delimiter false) z :=
      not_infix_append ((fresh_rest rest hfresh).apart _) (not_infix_back const declarators)
        (ih hz hfresh false)
    have hinside := ihArguments (not_infix_closing (arguments.closes false false) hbehind)
      (fresh_closing _ _) true
    apply not_infix_of_comma
    apply not_infix_append ((fresh_cons (by decide) _).apart _) (not_infix_front const name)
    have hopening : '<' ∉ toBeMoved := by decide
    show ¬ toBeMoved <:+: [] ++ '<' :: _
    rw [infix_append_cons (by decide) hopening, not_or]
    exact ⟨by decide, hinside⟩

/-- Rounds, one after the other. -/
abbrev Rounds : StdString → StdString → Prop :=
  ReflTransGen fun s s' => constRound s = .again s'

/-- What `const` puts before a type. -/
def lead (const : Bool) : StdString :=
  if const then "const ".toList else []

lemma qualified_front (const : Bool) (name : Name) :
    qualified.front const name = lead const ++ rename name.val := by
  cases const <;> rfl

lemma plain_rename (name : Name) : Plain (rename name.val) := by
  intro c hc
  refine ⟨?_, ?_, ?_⟩ <;>
  · rintro rfl
    exact absurd hc (not_mem_rename name (by decide))

/-- The qualifier of one type. -/
lemma rounds_const (hy : y ≠ []) (hc : isDelimiter c) (hx : Passed x) (hnone : ¬ toBeMoved <:+: y ++ c :: x)
    (const : Bool) (declarators : List Declarator) (z : StdString) :
    Rounds (y ++ c :: (x ++ (renamed.back const declarators ++ z)))
      (y ++ c :: (lead const ++ (x ++ (qualified.back const declarators ++ z)))) := by
  cases const with
  | false => exact .refl
  | true =>
    have hround := constRound_eq hy hc hx hnone (declarators.map Declarator.char ++ z)
    show Rounds (y ++ c :: (x ++ (toBeMoved ++ declarators.map Declarator.char ++ z))) _
    rw [List.append_assoc toBeMoved]
    exact .single hround

/-- What is left is behind a comma. -/
lemma rounds_comma {t : Arguments}
    (h : Rounds (y ++ ',' :: t.write renamed [] z) (y ++ ',' :: t.write qualified [] z)) :
    Rounds (y ++ t.write renamed (delimiter false) z) (y ++ t.write qualified (delimiter false) z) := by
  cases t with
  | none => exact .refl
  | integer | type | template => exact h

/-- The qualifier is not found across a delimiter. -/
lemma not_infix_behind (hc : isDelimiter c) (hy : ¬ toBeMoved <:+: y) (hx : ¬ toBeMoved <:+: x) :
    ¬ toBeMoved <:+: y ++ c :: x := by
  rw [infix_append_cons (by decide) (not_mem_toBeMoved hc), not_or]
  exact ⟨hy, hx⟩

/-- An argument, once it is as it is to be, is text without a qualifier. -/
lemma not_infix_argument (hc : isDelimiter c) (hy : ¬ toBeMoved <:+: y) (t : Arguments) :
    ¬ toBeMoved <:+: y ++ c :: t.write qualified [] [] :=
  not_infix_behind hc hy (not_infix_qualified t (by decide) (fresh_nil toBeMoved) true)

/-- **All qualifiers come to the beginning of their types.** -/
theorem rounds_write (t : Arguments) (hy : y ≠ []) (hc : isDelimiter c) (hnone : ¬ toBeMoved <:+: y)
    (z : StdString) : Rounds (y ++ c :: t.write renamed [] z) (y ++ c :: t.write qualified [] z) := by
  induction t generalizing y c z with
  | none => exact .refl
  | integer value letters rest ih =>
    have hargument := not_infix_argument hc hnone (.integer value letters .none)
    have hrest := rounds_comma (ih (c := ',') (by simp) rfl hargument z)
    simp only [Arguments.write, List.append_assoc, List.cons_append, List.nil_append, List.append_nil]
      at hrest
    exact hrest
  | type name const declarators rest ih =>
    have hname : ¬ toBeMoved <:+: y ++ c :: rename name.val :=
      not_infix_behind hc hnone (isName_rename name).noQualifier
    have hconst := rounds_const hy hc (passed_of_plain (plain_rename name)) hname const declarators
      (rest.write renamed (delimiter false) z)
    have hargument := not_infix_argument hc hnone (.type name const declarators .none)
    have hrest := rounds_comma (ih (c := ',') (by simp) rfl hargument z)
    simp only [Arguments.write, List.append_assoc, List.cons_append, List.nil_append, List.append_nil,
      qualified_front] at hrest
    simp only [Arguments.write, List.append_assoc, List.nil_append, qualified_front, renamed_front]
    exact hconst.trans hrest
  | template name arguments const declarators rest ihArguments ih =>
    obtain ⟨gap, hgap, hclosing⟩ := closing_eq (arguments.closes false false)
    have hargs : Balanced (arguments.write qualified [] gap) := by
      show nesting (arguments.write qualified (delimiter true) gap) 0 = some 0
      rw [nesting_write bracketed_qualified]
      exact hgap
    have hspaced : renamed.spaced = false := rfl
    have hspaced' : qualified.spaced = false := rfl
    -- first the arguments, then the type itself, then what is behind it
    have hname : ¬ toBeMoved <:+: y ++ c :: rename name.val :=
      not_infix_behind hc hnone (isName_rename name).noQualifier
    have hinside := ihArguments (c := '<') (show y ++ c :: rename name.val ≠ [] by simp) rfl hname
      (closing (arguments.closes false false) ++ (renamed.back const declarators ++
        rest.write renamed (delimiter false) z))
    have htype := not_infix_argument hc hnone (.template name arguments false [] .none)
    have hback : qualified.back false [] = [] := rfl
    simp only [Arguments.write, List.nil_append, List.append_nil, hspaced', hclosing, write_append,
      qualified_front, hback] at htype
    have hconst := rounds_const hy hc (Passed.template (plain_rename name) hargs) htype const declarators
      (rest.write renamed (delimiter false) z)
    have hargument := not_infix_argument hc hnone (.template name arguments const declarators .none)
    have hrest := rounds_comma (ih (c := ',') (by simp) rfl hargument z)
    simp only [hclosing, List.append_assoc, List.cons_append, List.nil_append, write_append] at hinside
    simp only [List.append_assoc, List.cons_append, List.nil_append] at hconst
    simp only [Arguments.write, List.append_assoc, List.cons_append, List.nil_append, List.append_nil,
      qualified_front, hspaced', hclosing, write_append] at hrest
    simp only [Arguments.write, List.append_assoc, List.nil_append, qualified_front, renamed_front,
      hspaced, hspaced', hclosing, write_append]
    exact (hinside.trans hconst).trans hrest

/-- Rounds that leave no qualifier are a loop that ends. -/
lemma ends_of_rounds (h : Rounds s t) (ht : ¬ toBeMoved <:+: t) : Ends constRound s t := by
  induction h using ReflTransGen.head_induction_on with
  | refl =>
    rcases constRound_cases t with ⟨hleave, -⟩ | ⟨a, b, rfl, -⟩
    · exact .leave hleave
    · exact absurd ⟨a, b, rfl⟩ ht
  | head hagain _ ih => exact .again hagain ih

/-- Round by round the qualifiers of a type go before its names. -/
lemma rounds_type (t : Arguments) (htype : t.IsType) :
    Rounds (t.write renamed [] []) (t.write qualified [] []) := by
  rcases htype.eq with ⟨name, declarators, rfl⟩ | ⟨name, arguments, declarators, rfl⟩
  · exact .refl
  · obtain ⟨c, rest, hname, -⟩ := (isName_rename name).first
    have hy : rename name.val ≠ [] := by
      rw [hname]
      exact List.cons_ne_nil c rest
    exact rounds_write arguments hy (c := '<') rfl (isName_rename name).noQualifier _

/-- **`constBeforeIdentifier` puts every `const` before the name.** -/
theorem constBeforeIdentifier_write (t : Arguments) (htype : t.IsType) :
    ∃ fuel, constBeforeIdentifier fuel (t.write renamed [] []) = some (t.write qualified [] []) := by
  have hnone : ¬ toBeMoved <:+: t.write qualified (delimiter true) [] :=
    not_infix_qualified t (by decide) (fresh_nil toBeMoved) true
  exact (ends_of_rounds (rounds_type t htype) hnone).exists_loop

end UnifyPrototype.TypeDemangler
