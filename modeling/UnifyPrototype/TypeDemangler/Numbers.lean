import UnifyPrototype.TypeDemangler.Qualifiers
import Mathlib.Data.List.TakeWhile

/-!
# The last steps on types

Two brackets come together where the type in front of the second one was const. The regular expression
takes the letters of one integer at a time, and the last one that it finds first; what it leaves is what
is left when all integers lose their letters.
-/

namespace UnifyPrototype.TypeDemangler

open UnifyPrototype.Utils UnifyPrototype.Cms Text Relation

variable {s t u v x y z z' : StdString} {b b' first : Bool} {c d e : Char}

/-! ## Brackets -/

/-- The style of the demangler, with `const` before the names and all spaces between brackets. -/
def spread : Style :=
  { qualified with spaced := true }

def brackets : StdString :=
  ">>".toList

def apartBrackets : StdString :=
  "> >".toList

/-- What is before the text of the next argument. -/
def bracket (b : Bool) : StdString :=
  if b then ['>'] else []

abbrev Spreads : StdString → StdString → Prop :=
  Rewrites brackets apartBrackets

lemma spreads_append (hx : '>' ∉ x) (h : Spreads z z') : Spreads (x ++ z) (x ++ z') :=
  h.prepend (apart_of_head hx _ z) (not_infix_of_mem List.mem_cons_self hx)

/-- A bracket with something else behind it. -/
lemma spreads_bracket (hc : c ≠ '>') (b : Bool) (h : Spreads (c :: z) (c :: z')) :
    Spreads (bracket b ++ c :: z) (bracket b ++ c :: z') := by
  cases b with
  | false => exact h
  | true =>
    have hfresh : Fresh brackets (c :: z) := fresh_cons (by simpa [brackets] using hc) z
    exact h.prepend (hfresh.apart _) (by decide)

/-- Two brackets. -/
lemma spreads_closing (hb : b' → b) (h : Spreads ('>' :: z) ('>' :: z')) :
    Spreads (bracket b ++ (closing b' ++ z)) (bracket b ++ (closing b ++ z')) := by
  cases b with
  | false =>
    obtain rfl : b' = false := by simpa using hb
    exact h
  | true =>
    have hspread : Spreads ('>' :: ' ' :: '>' :: z) ('>' :: ' ' :: '>' :: z') :=
      h.prepend (a := ['>', ' ']) (apart_of_suffix (by decide) _) (by decide)
    cases b' with
    | true => exact hspread
    | false => exact .again (x := []) (fun x' y' _ => Nat.zero_le _) hspread

lemma spreads_delimiter (hfirst : b → first = false) (h : Spreads z z') :
    Spreads (bracket b ++ (delimiter first ++ z)) (bracket b ++ (delimiter first ++ z')) := by
  have hcomma : Spreads (delimiter first ++ z) (delimiter first ++ z') :=
    spreads_append (not_mem_delimiter first) h
  cases b with
  | false => exact hcomma
  | true =>
    obtain rfl := hfirst rfl
    exact spreads_bracket (by decide) true hcomma

lemma not_mem_front (const : Bool) (name : Name) : '>' ∉ qualified.front const name :=
  (bracketed_qualified.front const name).2

/-- **Brackets that have come together are apart again.** -/
theorem spreads_write (t : Arguments) {b' : Bool} (b first : Bool) (hb : b' → b) (hfirst : b → first = false)
    (h : Spreads ('>' :: z) ('>' :: z')) :
    Spreads (bracket b ++ t.write qualified (delimiter first) (closing (t.closes false b') ++ z))
      (bracket b ++ t.write spread (delimiter first) (closing (t.closes true b) ++ z')) := by
  induction t generalizing b b' first z z' with
  | none => exact spreads_closing hb h
  | integer value letters rest ih =>
    have hrest := ih false false id (fun hno => absurd hno Bool.false_ne_true) h
    apply spreads_delimiter hfirst
    exact spreads_append (not_mem_number value.property letters.property (by decide) (by decide)) hrest
  | type name const declarators rest ih =>
    have hrest := ih false false id (fun hno => absurd hno Bool.false_ne_true) h
    apply spreads_delimiter hfirst
    apply spreads_append _ hrest
    simp only [List.mem_append, not_or]
    exact ⟨not_mem_front const name, not_mem_back (by decide)⟩
  | template name arguments const declarators rest ihArguments ih =>
    -- the bracket of the template and what is behind it
    have hbehind : Spreads ('>' :: (qualified.back const declarators ++ rest.write qualified (delimiter false)
          (closing (rest.closes false (declarators.isEmpty && (false || !const))) ++ z)))
        ('>' :: (qualified.back const declarators ++ rest.write spread (delimiter false)
          (closing (rest.closes true (declarators.isEmpty && (true || !const))) ++ z'))) := by
      rw [qualified_back]
      cases declarators with
      | nil => exact ih true false (fun _ => rfl) (fun _ => rfl) h
      | cons x declarators =>
        have hrest := ih false false id (fun hno => absurd hno Bool.false_ne_true) h
        have hx : x.char ≠ '>' := by cases x <;> decide
        have hback : '>' ∉ (x :: declarators).map Declarator.char := by
          rw [← qualified_back const]
          exact not_mem_back (by decide)
        exact spreads_bracket hx true (spreads_append hback hrest)
    have hinside := ihArguments false true id (fun hno => absurd hno Bool.false_ne_true)
      hbehind
    have hopening : '>' ∉ qualified.front const name ++ ['<'] := by
      simp only [List.mem_append, not_or]
      exact ⟨not_mem_front const name, by decide⟩
    have hitem := spreads_append hopening hinside
    simp only [List.append_assoc, List.singleton_append] at hitem
    exact spreads_delimiter hfirst hitem

/-- Closing brackets are spread. -/
lemma replaceString_brackets (t : Arguments) (htype : t.IsType) :
    ∃ fuel, replaceString fuel (t.write qualified [] []) ">>".toList "> >".toList =
      some (t.write spread [] []) := by
  apply replaceString_of_rewrites (by decide)
  rcases htype.eq with ⟨name, declarators, rfl⟩ | ⟨name, arguments, declarators, rfl⟩
  · apply Rewrites.leave
    apply not_infix_of_mem List.mem_cons_self
    simp only [Arguments.write, List.nil_append, List.append_nil, List.mem_append, not_or]
    exact ⟨not_mem_front false name, not_mem_back (by decide)⟩
  · have hback : '>' ∉ qualified.back false declarators ++ [] := by
      rw [List.append_nil]
      exact not_mem_back (by decide)
    have hend : Spreads ('>' :: (qualified.back false declarators ++ []))
        ('>' :: (qualified.back false declarators ++ [])) := by
      apply Rewrites.leave
      show ¬ '>' :: ['>'] <:+: _
      rw [List.infix_cons_iff, not_or, List.cons_prefix_cons]
      exact ⟨fun hbegins => hback (hbegins.2.subset List.mem_cons_self),
        not_infix_of_mem List.mem_cons_self hback⟩
    have hinside := spreads_write arguments false true id
      (fun hno => absurd hno Bool.false_ne_true) hend
    have hopening : '>' ∉ qualified.front false name ++ ['<'] := by
      simp only [List.mem_append, not_or]
      exact ⟨not_mem_front false name, by decide⟩
    have hitem := spreads_append hopening hinside
    simp only [List.append_assoc, List.singleton_append] at hitem
    exact hitem

/-! ## Integers -/

/-- The text behind a delimiter without the letters of the integer that it begins with. -/
def cutLetters (s : StdString) : StdString :=
  let digits := s.takeWhile isDigit
  match s.dropWhile isDigit with
  | c :: rest =>
    if digits ≠ [] ∧ c ∈ ['u', 'l'] ∧ ((rest.dropWhile (· = 'l')).head?.any isEnd) then
      digits ++ rest.dropWhile (· = 'l')
    else s
  | [] => s

/-- The text without the letters of any integer that is a whole argument. -/
def cleaned : StdString → StdString
  | [] => []
  | c :: s => if isDelimiter c then c :: cutLetters (cleaned s) else c :: cleaned s

/-- The letters are all that is between the digits and the end of the argument. -/
lemma cutLetters_cut {n r : StdString} (hn : Digits n) (hr : Matched r) (he : isEnd e) (z : StdString) :
    cutLetters (n ++ (r ++ e :: z)) = n ++ e :: z := by
  obtain ⟨c, l, rfl, hc, hl⟩ := hr
  have hdigit : isDigit c = false := by
    have hall : ∀ c ∈ ['u', 'l'], isDigit c = false := forall_mem_of_all (by decide)
    exact hall c hc
  have hl' : ∀ c ∈ l, decide (c = 'l') = true := fun c hmem => decide_eq_true (hl c hmem)
  have hend : decide (e = 'l') = false := by
    apply decide_eq_false
    rintro rfl
    cases he
  have htake : (n ++ (c :: l ++ e :: z)).takeWhile isDigit = n := by
    rw [List.takeWhile_append_of_pos hn.2]
    simp [hdigit]
  have hdrop : (n ++ (c :: l ++ e :: z)).dropWhile isDigit = c :: (l ++ e :: z) := by
    rw [List.dropWhile_append_of_pos hn.2]
    simp [hdigit]
  have hrest : (l ++ e :: z).dropWhile (fun c => decide (c = 'l')) = e :: z := by
    rw [List.dropWhile_append_of_pos hl']
    simp [hend]
  simp only [cutLetters, htake, hdrop, hrest]
  rw [if_pos ⟨hn.1, hc, by simpa using he⟩]

lemma cutLetters_done {n : StdString} (hn : Digits n) (he : isEnd e) (z : StdString) :
    cutLetters (n ++ e :: z) = n ++ e :: z := by
  have hnot : isDigit e = false ∧ e ∉ ['u', 'l'] := by
    obtain rfl | rfl : e = ',' ∨ e = '>' := by simpa [isEnd] using he
    · exact ⟨by decide, by decide⟩
    · exact ⟨by decide, by decide⟩
  have hdrop : (n ++ e :: z).dropWhile isDigit = e :: z := by
    rw [List.dropWhile_append_of_pos hn.2]
    simp [hnot.1]
  simp only [cutLetters, hdrop]
  rw [if_neg fun h => hnot.2 h.2.1]

lemma cutLetters_cons (hc : isDigit c = false) (s : StdString) : cutLetters (c :: s) = c :: s := by
  simp [cutLetters, hc]

/-- It does nothing else. -/
lemma cutLetters_cases (s : StdString) : cutLetters s = s ∨
    ∃ n r e z, s = n ++ (r ++ e :: z) ∧ Digits n ∧ Matched r ∧ isEnd e := by
  unfold cutLetters
  dsimp only
  split
  next c rest hdrop =>
    split
    next h =>
      obtain ⟨hne, hc, hend⟩ := h
      cases hrest : rest.dropWhile (fun c => decide (c = 'l')) with
      | nil =>
        rw [hrest] at hend
        cases hend
      | cons e z =>
        rw [hrest] at hend
        have hletters : ∀ c ∈ rest.takeWhile (fun c => decide (c = 'l')), c = 'l' := by
          intro c hmem
          simpa using List.mem_takeWhile_imp hmem
        refine .inr ⟨s.takeWhile isDigit, c :: rest.takeWhile (fun c => decide (c = 'l')), e, z, ?_,
          ⟨hne, fun c hmem => List.mem_takeWhile_imp hmem⟩, ⟨c, _, rfl, hc, hletters⟩, hend⟩
        rw [List.cons_append, ← hrest, List.takeWhile_append_dropWhile, ← hdrop,
          List.takeWhile_append_dropWhile]
    next => exact .inl rfl
  next => exact .inl rfl

lemma cleaned_congr (h : cleaned s = cleaned t) (u : StdString) : cleaned (u ++ s) = cleaned (u ++ t) := by
  induction u with
  | nil => exact h
  | cons c u ih => simp only [List.cons_append, cleaned, ih]

lemma cleaned_append (hx : ∀ c ∈ x, isDelimiter c = false) (z : StdString) :
    cleaned (x ++ z) = x ++ cleaned z := by
  induction x with
  | nil => rfl
  | cons c x ih =>
    obtain ⟨hc, hx⟩ := List.forall_mem_cons.mp hx
    rw [List.cons_append, cleaned, hc, if_neg (by decide), ih hx, List.cons_append]

lemma exists_cleaned (c : Char) (s : StdString) : ∃ t, cleaned (c :: s) = c :: t := by
  rw [cleaned]
  split
  · exact ⟨_, rfl⟩
  · exact ⟨_, rfl⟩

/-- A round of `reformatter` does some of it. -/
lemma cleaned_changes (h : Changes Cuts s t) : cleaned s = cleaned t := by
  obtain ⟨u, d, x, n, e, v, rfl, rfl, hd, he, r, rfl, hn, hr⟩ := h
  apply cleaned_congr
  obtain ⟨w, hw⟩ := exists_cleaned e v
  have hdigits : ∀ c ∈ n, isDelimiter c = false := fun c hc => hn.plain.not_delimiter hc
  have hletters : ∀ c ∈ r, isDelimiter c = false := fun c hc => hr.plain.not_delimiter hc
  rw [cleaned, cleaned, if_pos hd, if_pos hd, List.append_assoc, cleaned_append hdigits,
    cleaned_append hletters, cleaned_append hdigits, hw, cutLetters_cut hn hr he, cutLetters_done hn he]

/-- Where the regular expression matches nothing, there is nothing to do. -/
lemma cleaned_eq (h : ∀ x, IsArgument s x → ¬ Reached x) : cleaned s = s := by
  induction s with
  | nil => rfl
  | cons c s ih =>
    have hs : cleaned s = s := by
      apply ih
      rintro x ⟨u, d, e, v, rfl, hd, he, hx⟩
      exact h x ⟨c :: u, d, e, v, rfl, hd, he, hx⟩
    rw [cleaned, hs]
    split
    next hc =>
      rcases cutLetters_cases s with heq | ⟨n, r, e, z, rfl, hn, hr, he⟩
      · rw [heq]
      · have hplain : Plain (n ++ r) := by
          intro c hc
          rcases List.mem_append.mp hc with hc | hc
          · exact hn.plain c hc
          · exact hr.plain c hc
        have hargument : IsArgument (c :: (n ++ (r ++ e :: z))) (n ++ r) :=
          (isArgument_iff hplain).mpr ⟨c, e, hc, he, [], z, by simp⟩
        exact absurd ⟨n, r, rfl, hn, hr⟩ (h _ hargument)
    next => rfl

/-- **`reformatter` takes the letters of all integers.** -/
lemma reformatter_eq (hs : ∀ c ∈ s, anyChar c) :
    ∃ fuel, reformatter fuel s suffixed [1, 2] = some (cleaned s) := by
  obtain ⟨t, hends⟩ := exists_reformatter_ends s
  obtain ⟨fuel, hfuel⟩ := hends.exists_loop
  have hinvariant : cleaned t = cleaned s ∧ ∀ c ∈ t, anyChar c := by
    apply hends.invariant (I := fun u => cleaned u = cleaned s ∧ ∀ c ∈ u, anyChar c) ⟨rfl, hs⟩
    rintro u v ⟨hu, hchars⟩ hagain
    have hchanges := (changes_of_again hagain).2
    exact ⟨(cleaned_changes hchanges).symm.trans hu, hchanges.anyChar hchars⟩
  have ht : cleaned t = t := cleaned_eq fun x hx => not_reached_of_leave hends.left hinvariant.2 hx
  refine ⟨fuel, ?_⟩
  rw [← hinvariant.1, ht]
  exact hfuel

/-- What is behind a comma. -/
lemma cleaned_comma {t : Arguments}
    (h : cutLetters (cleaned (t.write spread [] z)) = t.write long [] (cleaned z)) :
    cleaned (t.write spread (delimiter false) z) = t.write long (delimiter false) (cleaned z) := by
  cases t with
  | none => rfl
  | integer | type | template => exact congrArg (',' :: ·) h

lemma exists_end_write {t : Arguments} (hz : t.closes true false = false → ∃ e y, z = e :: y ∧ isEnd e) :
    ∃ e y, t.write long (delimiter false) (cleaned z) = e :: y ∧ isEnd e := by
  cases t with
  | none =>
    obtain ⟨e, y, rfl, he⟩ := hz rfl
    obtain ⟨y', hy'⟩ := exists_cleaned e y
    exact ⟨e, y', hy', he⟩
  | integer | type | template => exact ⟨',', _, rfl, rfl⟩

lemma not_isDelimiter_of_mem (hopening : '<' ∉ x) (hcomma : ',' ∉ x) : ∀ c ∈ x, isDelimiter c = false := by
  intro c hc
  apply eq_false_of_ne_true
  intro hdelimiter
  obtain rfl | rfl : c = '<' ∨ c = ',' := by simpa [isDelimiter] using hdelimiter
  · exact hopening hc
  · exact hcomma hc

lemma not_isDelimiter_front (const : Bool) (name : Name) :
    ∀ c ∈ spread.front const name, isDelimiter c = false := by
  intro c hc
  change c ∈ qualified.front const name at hc
  rw [qualified_front] at hc
  rcases List.mem_append.mp hc with hc | hc
  · have hlead : ∀ c ∈ lead const, isDelimiter c = false := by
      cases const <;> exact forall_mem_of_all (by decide)
    exact hlead c hc
  · exact (plain_rename name).not_delimiter hc

lemma not_isDelimiter_back (const : Bool) (declarators : List Declarator) :
    ∀ c ∈ spread.back const declarators, isDelimiter c = false :=
  not_isDelimiter_of_mem (not_mem_back (by decide)) (not_mem_back (by decide))

/-- A type does not begin with a digit. -/
lemma cutLetters_front (const : Bool) (name : Name) (z : StdString) :
    cutLetters (spread.front const name ++ z) = spread.front const name ++ z := by
  obtain ⟨c, rest, hfront, hc⟩ : ∃ c rest, spread.front const name = c :: rest ∧ isDigit c = false := by
    show ∃ c rest, qualified.front const name = c :: rest ∧ isDigit c = false
    rw [qualified_front]
    cases const with
    | true => exact ⟨'c', _, rfl, by decide⟩
    | false =>
      obtain ⟨c, rest, hname, -, hc⟩ := (isName_rename name).first
      exact ⟨c, rest, hname, hc⟩
  rw [hfront, List.cons_append, cutLetters_cons hc]

lemma not_isDelimiter_closing (b : Bool) : ∀ c ∈ closing b, isDelimiter c = false := by
  cases b <;> exact forall_mem_of_all (by decide)

/-- A template, if its arguments lose the letters. -/
lemma cleaned_template {arguments : Arguments}
    (h : ∀ {z}, (∀ c ∈ z.head?, isDigit c = false) →
      (arguments.closes true false = false → ∃ e y, z = e :: y ∧ isEnd e) →
      cutLetters (cleaned (arguments.write spread [] z)) = arguments.write long [] (cleaned z))
    (const : Bool) (name : Name) (declarators : List Declarator) (z : StdString) :
    cleaned (spread.front const name ++ '<' :: arguments.write spread []
      (closing (arguments.closes true false) ++ (spread.back const declarators ++ z))) =
    spread.front const name ++ '<' :: arguments.write long []
      (closing (arguments.closes true false) ++ (spread.back const declarators ++ cleaned z)) := by
  have hinside := h (z := closing (arguments.closes true false) ++ (spread.back const declarators ++ z))
    (fun c hc => ?_) (fun hcloses => ⟨'>', _, by rw [hcloses]; rfl, rfl⟩)
  · rw [cleaned_append (not_isDelimiter_closing _), cleaned_append (not_isDelimiter_back const declarators)]
      at hinside
    rw [cleaned_append (not_isDelimiter_front const name), cleaned, if_pos (by decide), hinside]
  · rcases closing_head _ hc with rfl | rfl
    · decide
    · decide

/-- **All integers lose their letters.** -/
theorem cleaned_write (t : Arguments) (hz : ∀ c ∈ z.head?, isDigit c = false)
    (hend : t.closes true b = false → ∃ e y, z = e :: y ∧ isEnd e) :
    cutLetters (cleaned (t.write spread [] z)) = t.write long [] (cleaned z) := by
  induction t generalizing b z with
  | none =>
    cases z with
    | nil => rfl
    | cons c z =>
      obtain ⟨y, hy⟩ := exists_cleaned c z
      show cutLetters (cleaned (c :: z)) = cleaned (c :: z)
      rw [hy, cutLetters_cons (hz c rfl)]
  | integer value letters rest ih =>
    have hrest := cleaned_comma (ih hz hend)
    obtain ⟨e, y, hy, he⟩ := exists_end_write hend
    have hvalue : ∀ c ∈ value.val, isDelimiter c = false := fun c hc =>
      value.property.plain.not_delimiter hc
    show cutLetters (cleaned (value.val ++ letters.val ++ rest.write spread (delimiter false) z)) =
      value.val ++ rest.write long (delimiter false) (cleaned z)
    rw [List.append_assoc, cleaned_append hvalue]
    rcases letters.property with hnone | hmatched
    · rw [hnone, List.nil_append, hrest, hy, cutLetters_done value.property he]
    · have hletters : ∀ c ∈ letters.val, isDelimiter c = false := fun c hc =>
        hmatched.plain.not_delimiter hc
      rw [cleaned_append hletters, hrest, hy, cutLetters_cut value.property hmatched he]
  | type name const declarators rest ih =>
    have hrest := cleaned_comma (ih hz hend)
    show cutLetters (cleaned (spread.front const name ++ spread.back const declarators ++
      rest.write spread (delimiter false) z)) = _
    rw [List.append_assoc, cleaned_append (not_isDelimiter_front const name),
      cleaned_append (not_isDelimiter_back const declarators), hrest, cutLetters_front]
    show _ = spread.front const name ++ spread.back const declarators ++
      rest.write long (delimiter false) (cleaned z)
    rw [List.append_assoc]
  | template name arguments const declarators rest ihArguments ih =>
    have hrest := cleaned_comma (ih hz hend)
    show cutLetters (cleaned (spread.front const name ++ '<' :: arguments.write spread []
      (closing (arguments.closes true false) ++ (spread.back const declarators ++
        rest.write spread (delimiter false) z)))) = _
    rw [cleaned_template (fun hz hend => ihArguments hz hend), hrest, cutLetters_front]
    rfl

/-- A type without the letters of its integers. -/
lemma cleaned_type (t : Arguments) (htype : t.IsType) :
    cleaned (t.write spread [] []) = t.write long [] [] := by
  rcases htype.eq with ⟨name, declarators, rfl⟩ | ⟨name, arguments, declarators, rfl⟩
  · show cleaned (spread.front false name ++ spread.back false declarators ++ []) = _
    rw [List.append_assoc, cleaned_append (not_isDelimiter_front false name),
      cleaned_append (not_isDelimiter_back false declarators), ← List.append_assoc]
    rfl
  · exact cleaned_template (fun hz hend => cleaned_write arguments hz hend) false name declarators []

/-! ## The characters -/

lemma anyChar_delimiter (first : Bool) : ∀ c ∈ delimiter first, anyChar c := by
  cases first <;> exact forall_mem_of_all (by decide)

lemma anyChar_closing (b : Bool) : ∀ c ∈ closing b, anyChar c := by
  cases b <;> exact forall_mem_of_all (by decide)

lemma anyChar_front (const : Bool) (name : Name) : ∀ c ∈ spread.front const name, anyChar c := by
  intro c hc
  change c ∈ qualified.front const name at hc
  rw [qualified_front] at hc
  rcases List.mem_append.mp hc with hc | hc
  · have hlead : ∀ c ∈ lead const, anyChar c := by
      cases const <;> exact forall_mem_of_all (by decide)
    exact hlead c hc
  · have hname := (isName_rename name).chars c hc
    simp only [isNameChar, decide_eq_true_eq] at hname
    exact hname.1

lemma anyChar_back (const : Bool) (declarators : List Declarator) :
    ∀ c ∈ spread.back const declarators, anyChar c := by
  intro c hc
  have hbehind : ∀ c ∈ behindNames, anyChar c := forall_mem_of_all (by decide)
  exact hbehind c (mem_back hc)

lemma anyChar_number {value letters : StdString} (hvalue : Digits value)
    (hletters : letters = [] ∨ Matched letters) : ∀ c ∈ value ++ letters, anyChar c := by
  rcases hletters with rfl | hmatched
  · rw [List.append_nil]
    exact hvalue.anyChar
  · exact List.forall_mem_append.mpr ⟨hvalue.anyChar, hmatched.anyChar⟩

/-- `.` matches every character of a type. -/
lemma anyChar_write (t : Arguments) (first : Bool) (hz : ∀ c ∈ z, anyChar c) :
    ∀ c ∈ t.write spread (delimiter first) z, anyChar c := by
  induction t generalizing first z with
  | none => exact hz
  | integer value letters rest ih =>
    have hnumber := anyChar_number value.property letters.property
    exact List.forall_mem_append.mpr ⟨anyChar_delimiter first,
      List.forall_mem_append.mpr ⟨hnumber, ih false hz⟩⟩
  | type name const declarators rest ih =>
    have htype := List.forall_mem_append.mpr ⟨anyChar_front const name, anyChar_back const declarators⟩
    exact List.forall_mem_append.mpr ⟨anyChar_delimiter first,
      List.forall_mem_append.mpr ⟨htype, ih false hz⟩⟩
  | template name arguments const declarators rest ihArguments ih =>
    have hbehind := List.forall_mem_append.mpr ⟨anyChar_back const declarators, ih false hz⟩
    have hinside := ihArguments true (List.forall_mem_append.mpr
      ⟨anyChar_closing (arguments.closes true false), hbehind⟩)
    have hopening : anyChar '<' = true := by decide
    have hbrackets : ∀ c ∈ '<' :: arguments.write spread [] (closing (arguments.closes true false) ++
        (spread.back const declarators ++ rest.write spread (delimiter false) z)), anyChar c = true :=
      List.forall_mem_cons.mpr ⟨hopening, hinside⟩
    exact List.forall_mem_append.mpr ⟨anyChar_delimiter first,
      List.forall_mem_append.mpr ⟨anyChar_front const name, hbrackets⟩⟩

/-- The letters are removed from all integers. -/
lemma reformatter_write (t : Arguments) (htype : t.IsType) :
    ∃ fuel, reformatter fuel (t.write spread [] []) suffixed [1, 2] = some (t.write long [] []) := by
  have hchars := anyChar_write t true (z := []) fun c hc => absurd hc List.not_mem_nil
  rw [← cleaned_type t htype]
  exact reformatter_eq hchars

end UnifyPrototype.TypeDemangler
