import UnifyPrototype.TypeDemangler.Spelling
import UnifyPrototype.Utils.Lines

/-!
# `removeParameter` on types

What `removeParameter` deletes is an argument of the type, whole, with the comma before it. A space in
front of the bracket goes if the argument that is the last one then does not end in a bracket.
-/

namespace UnifyPrototype.TypeDemangler

open UnifyPrototype.Utils UnifyPrototype.Cms Text Relation

variable {s t u w n a z : StdString} {b first : Bool}

/-! ## The texts of types -/

/-- What follows a list of arguments is written behind it. -/
lemma write_append (st : Style) (t : Arguments) (d z z' : StdString) :
    t.write st d (z ++ z') = t.write st d z ++ z' := by
  induction t generalizing d z with
  | none => rfl
  | integer value letters rest ih => simp only [Arguments.write, ih, List.append_assoc]
  | type name const declarators rest ih => simp only [Arguments.write, ih, List.append_assoc]
  | template name arguments const declarators rest ihArguments ih =>
    simp only [Arguments.write, ih, ← ihArguments, List.append_assoc, List.cons_append]

lemma renamed_front (const : Bool) (name : Name) : renamed.front const name = rename name.val := by
  unfold Style.front
  simp [renamed, compact, gcc]

lemma not_mem_rename (name : Name) {c : Char} (hc : isNameChar c = false) : c ∉ rename name.val :=
  not_mem_name ⟨_, isName_rename name⟩ hc

lemma not_mem_back {st : Style} {const : Bool} {declarators : List Declarator} {c : Char}
    (hc : c ∉ behindNames) : c ∉ st.back const declarators :=
  fun hmem => hc (mem_back hmem)

lemma not_mem_number {st : Style} {value letters : StdString} (hvalue : Digits value)
    (hletters : letters = [] ∨ Matched letters) {c : Char} (hdigit : isDigit c = false)
    (hc : c ∉ ['u', 'l']) : c ∉ st.number value letters := by
  intro hmem
  rcases mem_number hvalue hletters hmem with hmem | hmem
  · rw [hdigit] at hmem
    cases hmem
  · exact hc hmem

/-- A text without brackets. -/
lemma nesting_plain (hopening : '<' ∉ s) (hclosing : '>' ∉ s) (z : StdString) (k : ℕ) :
    nesting (s ++ z) k = nesting z k := by
  rw [nesting, Brackets.nesting_append, Brackets.nesting_of_not_mem hopening hclosing, Option.bind_some]

lemma nesting_closing (b : Bool) (z : StdString) (k : ℕ) : nesting (closing b ++ z) (k + 1) = nesting z k := by
  have hclose : nesting ('>' :: z) (k + 1) = nesting z k := by
    rw [nesting, Brackets.nesting_closing (by decide), if_neg (Nat.succ_ne_zero k)]
    rfl
  cases b with
  | false => exact hclose
  | true => exact (nesting_plain (s := [' ']) (by decide) (by decide) ('>' :: z) (k + 1)).trans hclose

lemma closing_eq (b : Bool) : ∃ gap, Balanced gap ∧ closing b = gap ++ ['>'] := by
  cases b with
  | false => exact ⟨[], rfl, rfl⟩
  | true => exact ⟨[' '], rfl, rfl⟩

/-- What is between the arguments of a template. -/
def delimiter (first : Bool) : StdString :=
  if first then [] else [',']

lemma nesting_delimiter (first : Bool) (z : StdString) (k : ℕ) :
    nesting (delimiter first ++ z) k = nesting z k := by
  cases first with
  | true => rfl
  | false => exact nesting_plain (by decide) (by decide) z k

/-- A style that writes brackets around arguments only. -/
structure Bracketed (st : Style) : Prop where
  comma : st.comma = delimiter false
  front : ∀ const name, '<' ∉ st.front const name ∧ '>' ∉ st.front const name

lemma bracketed_renamed : Bracketed renamed where
  comma := rfl
  front const name := by
    rw [renamed_front]
    exact ⟨not_mem_rename name (by decide), not_mem_rename name (by decide)⟩

/-- Types have the brackets of their arguments. -/
lemma nesting_write {st : Style} (hst : Bracketed st) (t : Arguments) (first : Bool) (z : StdString) (k : ℕ) :
    nesting (t.write st (delimiter first) z) k = nesting z k := by
  have hfront : ∀ const name z k, nesting (st.front const name ++ z) k = nesting z k :=
    fun const name z k => nesting_plain (hst.front const name).1 (hst.front const name).2 z k
  have hback : ∀ const declarators z k,
      nesting (st.back const declarators ++ z) k = nesting z k := fun const declarators z k =>
    nesting_plain (not_mem_back (by decide)) (not_mem_back (by decide)) z k
  induction t generalizing first z k with
  | none => rfl
  | integer value letters rest ih =>
    have hnumber : ∀ c, isDigit c = false → c ∉ ['u', 'l'] → c ∉ st.number value.val letters.val :=
      fun c hdigit hc => not_mem_number value.property letters.property hdigit hc
    rw [Arguments.write, nesting_delimiter, nesting_plain (hnumber _ (by decide) (by decide))
      (hnumber _ (by decide) (by decide)), hst.comma]
    exact ih false z k
  | type name const declarators rest ih =>
    rw [Arguments.write, nesting_delimiter, List.append_assoc, hfront, hback, hst.comma]
    exact ih false z k
  | template name arguments const declarators rest ihArguments ih =>
    rw [Arguments.write, nesting_delimiter, hfront, hst.comma]
    calc nesting ('<' :: arguments.write st [] _) k
        = nesting (arguments.write st [] _) (k + 1) := Brackets.nesting_opening _ k
      _ = nesting (st.back const declarators ++ rest.write st (delimiter false) z) k := by
          rw [show ([] : StdString) = delimiter true from rfl, ihArguments]
          exact nesting_closing _ _ k
      _ = nesting z k := (hback const declarators _ k).trans (ih false z k)

/-! ## Deletions -/

/-- Deletions in one place. -/
abbrev Stripped (w : StdString) : StdString → StdString → Prop :=
  ReflTransGen (Strips (w ++ ['<']))

/-- What comes behind a default argument is written as if the argument were not there. -/
lemma behind_write (hb : b = true ↔ a.getLast? = some '>') (rest : Arguments) (z : StdString) :
    behind a (rest.write renamed [','] (closing (rest.closes false true) ++ z)) =
      rest.write renamed [','] (closing (rest.closes false b) ++ z) := by
  cases rest with
  | none =>
    show behind a (' ' :: '>' :: z) = closing b ++ z
    cases b with
    | true => exact behind_of_closing (hb.mp rfl) _
    | false => exact behind_of_space (fun hlast => by cases hb.mpr hlast) _
  | integer | type | template => exact behind_of_head (by simp [Arguments.write]) a

/-- The text of a default argument is a segment. -/
lemma strips_default {name : Name} (arguments : Arguments) (hname : rename name.val = n)
    (hb : b = true ↔ a.getLast? = some '>') (rest : Arguments) (z : StdString) :
    Strips (',' :: n ++ ['<'])
      (a ++ (Arguments.template name arguments false [] rest).write renamed [',']
        (closing (rest.closes false true) ++ z))
      (a ++ rest.write renamed [','] (closing (rest.closes false b) ++ z)) := by
  obtain ⟨gap, hgap, hclosing⟩ := closing_eq (arguments.closes false false)
  have hargs : Balanced (arguments.write renamed [] gap) := by
    show nesting (arguments.write renamed (delimiter true) gap) 0 = some 0
    rw [nesting_write bracketed_renamed]
    exact hgap
  have hstrips : Strips (',' :: n ++ ['<']) _ _ :=
    .mk a (rest.write renamed [','] (closing (rest.closes false true) ++ z)) hargs
  rw [behind_write hb] at hstrips
  have htext : (Arguments.template name arguments false [] rest).write renamed [',']
      (closing (rest.closes false true) ++ z) =
      segment (',' :: n ++ ['<']) (arguments.write renamed [] gap) ++
        rest.write renamed [','] (closing (rest.closes false true) ++ z) := by
    have hsplaced : renamed.spaced = false := rfl
    have hback : renamed.back false [] = [] := rfl
    have hcomma : renamed.comma = [','] := rfl
    rw [Arguments.write, renamed_front, hname, hsplaced, hclosing, hback, hcomma, List.append_assoc gap,
      write_append]
    simp [segment]
  rw [htext, ← List.append_assoc]
  exact hstrips

lemma renamed_comma : renamed.comma = delimiter false :=
  rfl

/-- A text without a closing bracket does not end in one. -/
lemma ends_iff (hs : s ≠ []) (hlast : '>' ∉ s) (a : StdString) :
    false = true ↔ (a ++ s).getLast? = some '>' := by
  constructor
  · intro h
    cases h
  · intro h
    rw [List.getLast?_append_of_ne_nil _ hs] at h
    exact absurd (List.mem_of_getLast? h) hlast

lemma not_mem_delimiter (first : Bool) : '>' ∉ delimiter first := by
  cases first <;> decide

lemma number_ne_nil (st : Style) {value letters : StdString} (hvalue : Digits value) :
    st.number value letters ≠ [] := by
  unfold Style.number
  split
  · exact List.append_ne_nil_of_left_ne_nil hvalue.1 letters
  · exact hvalue.1

lemma rename_ne_nil (name : Name) : rename name.val ≠ [] := by
  obtain ⟨c, rest, hname, -⟩ := (isName_rename name).first
  rw [hname]
  exact List.cons_ne_nil c rest

/-- A template ends in its bracket if nothing is behind it. -/
lemma ends_back_iff (const : Bool) (declarators : List Declarator) (a : StdString) (b : Bool) :
    (declarators.isEmpty && (false || !const)) = true ↔
      (a ++ closing b ++ renamed.back const declarators).getLast? = some '>' := by
  have hbefore : renamed.before = false := rfl
  by_cases hempty : (declarators.isEmpty && (false || !const)) = true
  · have hback : renamed.back const declarators = [] := back_eq_nil hempty
    rw [hback, List.append_nil, hempty]
    cases b <;> simp [closing]
  · have hback : renamed.back const declarators ≠ [] := by
      intro hback
      apply hempty
      unfold Style.back at hback
      cases const <;> cases declarators <;> simp_all [toBeMoved]
    rw [List.getLast?_append_of_ne_nil _ hback]
    constructor
    · intro h
      exact absurd h hempty
    · intro h
      exact absurd (List.mem_of_getLast? h) (not_mem_back (by decide))

/-- **The default arguments are deleted one by one.** -/
theorem stripped_write (t : Arguments) (first : Bool) (hdefaults : t.Defaults n first)
    (hb : b = true ↔ a.getLast? = some '>') (z : StdString) :
    Stripped (',' :: n) (a ++ t.write renamed (delimiter first) (closing (t.closes false b) ++ z))
      (a ++ (t.without n first).write renamed (delimiter first)
        (closing ((t.without n first).closes false b) ++ z)) := by
  induction t generalizing a b first z with
  | none => exact .refl
  | integer value letters rest ih =>
    have hnumber : '>' ∉ renamed.number value.val letters.val :=
      not_mem_number value.property letters.property (by decide) (by decide)
    have hb' := ends_iff (number_ne_nil renamed value.property) hnumber (a ++ delimiter first)
    have hrest := ih false hdefaults hb' z
    simpa only [Arguments.write, Arguments.without, Arguments.closes, List.append_assoc, renamed_comma]
      using hrest
  | type name const declarators rest ih =>
    have htype : '>' ∉ rename name.val ++ renamed.back const declarators := by
      rw [List.mem_append, not_or]
      exact ⟨not_mem_rename name (by decide), not_mem_back (by decide)⟩
    have hb' := ends_iff (List.append_ne_nil_of_left_ne_nil (rename_ne_nil name) _) htype
      (a ++ delimiter first)
    have hrest := ih false hdefaults hb' z
    simpa only [Arguments.write, Arguments.without, Arguments.closes, List.append_assoc, renamed_comma,
      renamed_front] using hrest
  | template name arguments const declarators rest ihArguments ih =>
    obtain ⟨hplain, harguments, hrest⟩ := hdefaults
    by_cases hdefault : (!first && decide (rename name.val = n)) = true
    · simp only [Bool.and_eq_true, Bool.not_eq_true', decide_eq_true_eq] at hdefault
      obtain ⟨rfl, hname⟩ := hdefault
      obtain ⟨rfl, rfl⟩ := hplain rfl hname
      have hstrips := strips_default arguments hname hb rest z
      have hsteps := ih false hrest hb z
      rw [Arguments.without, if_pos (by simp [hname])]
      exact .head hstrips hsteps
    · have hbracket : false = true ↔ (a ++ delimiter first ++ rename name.val ++ ['<']).getLast? = some '>' := by
        simp
      -- first the arguments of the template, then what is behind it
      have hinside := ihArguments true harguments hbracket (renamed.back const declarators ++
        rest.write renamed (delimiter false)
          (closing (rest.closes false (declarators.isEmpty && (false || !const))) ++ z))
      have hends := ends_back_iff const declarators (a ++ delimiter first ++ rename name.val ++ ['<'] ++
        (arguments.without n true).write renamed (delimiter true) [])
        ((arguments.without n true).closes false false)
      have hbehind := ih false hrest hends z
      rw [Arguments.without, if_neg hdefault]
      simp only [List.append_assoc, List.singleton_append] at hinside
      simp only [List.append_assoc, List.cons_append, ← write_append, List.nil_append] at hbehind
      rw [Arguments.write, Arguments.write, renamed_front]
      exact hinside.trans hbehind

/-! ## What is left -/

lemma not_infix_piece (hs : ',' ∉ s) (hz : ¬ ',' :: n ++ ['<'] <:+: z) : ¬ ',' :: n ++ ['<'] <:+: s ++ z :=
  not_infix_append (apart_of_head hs _ z) (not_infix_of_mem List.mem_cons_self hs) hz

lemma not_infix_delimiter (hz : ¬ ',' :: n ++ ['<'] <:+: z) (hbegins : first = false → ¬ n ++ ['<'] <+: z) :
    ¬ ',' :: n ++ ['<'] <:+: delimiter first ++ z := by
  cases first with
  | true => exact hz
  | false =>
    show ¬ ',' :: (n ++ ['<']) <:+: ',' :: z
    rw [List.infix_cons_iff, not_or, List.cons_prefix_cons]
    exact ⟨fun h => hbegins rfl h.2, hz⟩

/-- What has no bracket and is followed by something else is not the beginning of the template. -/
lemma not_prefix (hs : '<' ∉ s) (hz : ∀ c ∈ z.head?, c ∉ n ++ ['<']) : ¬ n ++ ['<'] <+: s ++ z := by
  rintro ⟨r, h⟩
  rw [List.append_assoc] at h
  rcases List.append_eq_append_iff.mp h with ⟨m, rfl, hm⟩ | ⟨m, rfl, rfl⟩
  · cases m with
    | nil => exact hz '<' (by rw [← List.nil_append z, ← hm]; rfl) (by simp)
    | cons c m =>
      obtain rfl := (List.cons.inj hm).1
      exact hs (List.mem_append_right n List.mem_cons_self)
  · cases m with
    | nil => exact hz '<' rfl (by simp)
    | cons c m => exact hz c rfl (by simp)

/-- Behind an argument comes nothing that goes on with the name of the template. -/
lemma head?_write (hcomma : ',' ∉ n) (hz : ∀ c ∈ z.head?, c ∉ n ++ ['<'])
    (t : Arguments) : ∀ c ∈ (t.write renamed (delimiter false) z).head?, c ∉ n ++ ['<'] := by
  cases t with
  | none => exact hz
  | integer | type | template =>
    intro c hc
    obtain rfl : ',' = c := Option.some.inj hc
    simpa using hcomma

lemma not_mem_closing (b : Bool) : ',' ∉ closing b := by
  cases b <;> decide

lemma closing_head (b : Bool) {c : Char} (hc : c ∈ (closing b ++ z).head?) : c = '>' ∨ c = ' ' := by
  cases b with
  | true => exact .inr (Option.some.inj hc).symm
  | false => exact .inl (Option.some.inj hc).symm

/-- After the deletions there is nothing to delete. -/
theorem not_infix_without (hn : Word (',' :: n)) (hcomma : ',' ∉ n) (t : Arguments) (first : Bool)
    (hz : ¬ ',' :: n ++ ['<'] <:+: z) (hhead : ∀ c ∈ z.head?, c ∉ n ++ ['<']) :
    ¬ ',' :: n ++ ['<'] <:+: (t.without n first).write renamed (delimiter first) z := by
  induction t generalizing first z with
  | none => exact hz
  | integer value letters rest ih =>
    have hnumber : ∀ c, isDigit c = false → c ∉ ['u', 'l'] → c ∉ renamed.number value.val letters.val :=
      fun c hdigit hc => not_mem_number value.property letters.property hdigit hc
    apply not_infix_delimiter
    · exact not_infix_piece (hnumber _ (by decide) (by decide)) (ih false hz hhead)
    · intro _
      exact not_prefix (hnumber _ (by decide) (by decide)) (head?_write hcomma hhead _)
  | type name const declarators rest ih =>
    have htype : ∀ c, isNameChar c = false → c ∉ behindNames →
        c ∉ renamed.front const name ++ renamed.back const declarators := by
      intro c hname hback
      rw [renamed_front, List.mem_append, not_or]
      exact ⟨not_mem_rename name hname, not_mem_back hback⟩
    apply not_infix_delimiter
    · exact not_infix_piece (htype _ (by decide) (by decide)) (ih false hz hhead)
    · intro _
      exact not_prefix (htype _ (by decide) (by decide)) (head?_write hcomma hhead _)
  | template name arguments const declarators rest ihArguments ih =>
    rw [Arguments.without]
    split
    next hdefault =>
      simp only [Bool.and_eq_true, Bool.not_eq_true'] at hdefault
      rw [hdefault.1]
      exact ih false hz hhead
    next hdefault =>
      rw [Arguments.write, renamed_front]
      apply not_infix_delimiter
      · -- the name with its bracket, and then the arguments
        rw [List.append_cons (rename name.val)]
        apply not_infix_piece
        · simpa using not_mem_rename name (show isNameChar ',' = false by decide)
        · apply ihArguments true
          · apply not_infix_piece (not_mem_closing _)
            exact not_infix_piece (not_mem_back (by decide)) (ih false hz hhead)
          · intro c hc
            have hmem : c ∉ ',' :: n ∧ c ∉ ['<'] := by
              rcases closing_head _ hc with rfl | rfl
              · exact ⟨hn.closing, by decide⟩
              · exact ⟨hn.space, by decide⟩
            rw [List.mem_append, not_or]
            exact ⟨fun hc => hmem.1 (List.mem_cons_of_mem _ hc), hmem.2⟩
      · rintro rfl ⟨r, hr⟩
        rw [List.append_assoc] at hr
        have hopening : '<' ∉ n := fun hmem => hn.opening (List.mem_cons_of_mem _ hmem)
        obtain ⟨hname, -⟩ := line_append_inj hopening (not_mem_rename name (by decide)) hr
        apply hdefault
        simp [hname]

/-- Deletions that leave nothing to delete are what `removeParameter` does, whatever their order. -/
lemma removeParameter_of_stripped (hw : Word w) (hs : Balanced s) (hsteps : Stripped w s t)
    (ht : ¬ w ++ ['<'] <:+: t) : ∃ fuel, removeParameter fuel s (w ++ ['<']) = some t := by
  have hstrippable : Strippable (w ++ ['<']) s := Balanced.strippable hs
  obtain ⟨u, hends⟩ := hstrippable.exists_ends hw
  obtain ⟨fuel, hfuel⟩ := hends.exists_loop
  have hstripped : Balanced u ∧ Stripped w s u := by
    apply hends.invariant (I := fun u => Balanced u ∧ Stripped w s u) ⟨hs, .refl⟩
    rintro u v ⟨hu, hsteps⟩ hagain
    have hstrippable : Strippable (w ++ ['<']) u := Balanced.strippable hu
    rcases removeRound_of_strippable w hstrippable with
      hleave | ⟨v', hagain', hstrips⟩
    · cases hagain.symm.trans hleave
    · obtain rfl := Round.again.inj (hagain.symm.trans hagain')
      exact ⟨(hstrips.nesting_eq hw 0).trans hu, hsteps.tail hstrips⟩
  -- neither can be stripped any more
  obtain ⟨v, htv, huv⟩ := church_rosser (fun _ _ _ => Strips.diamond hw) hsteps hstripped.2
  have hnormal : ∀ {x}, ¬ w ++ ['<'] <:+: x → Stripped w x v → v = x := by
    intro x hx hxv
    rcases hxv.cases_head with heq | ⟨y, hstrips, -⟩
    · exact heq.symm
    · exact absurd hstrips (not_strips hx)
  have htu : t = u := by
    rw [← hnormal ht htv, ← hnormal (not_infix_of_removeRound hends.left) huv]
  exact ⟨fuel, by rw [htu]; exact hfuel⟩

/-- With the defaults left out a type is written as `removeParameter` leaves it. -/
lemma stripped_type (t : Arguments) (htype : t.IsType) (hdefaults : t.Defaults n true) :
    Stripped (',' :: n) (t.write renamed [] []) ((t.without n true).write renamed [] []) := by
  rcases htype.eq with ⟨name, declarators, rfl⟩ | ⟨name, arguments, declarators, rfl⟩
  · exact .refl
  · have hbracket : false = true ↔ (rename name.val ++ ['<']).getLast? = some '>' := by simp
    have hinside := stripped_write arguments true hdefaults.2.1 hbracket
      (renamed.back false declarators ++ [])
    simp only [List.append_assoc, List.singleton_append] at hinside
    rw [Arguments.without, if_neg (by simp)]
    simp only [Arguments.write, Arguments.without, renamed_front, List.nil_append]
    exact hinside

/-- A type without its defaults is a type. -/
lemma isType_without (t : Arguments) (htype : t.IsType) (n : StdString) : (t.without n true).IsType := by
  rcases htype.eq with ⟨name, declarators, rfl⟩ | ⟨name, arguments, declarators, rfl⟩
  · exact htype
  · rw [Arguments.without, if_neg (by simp)]
    exact htype

/-- The defaults of another parameter stay. -/
lemma defaults_without (t : Arguments) (first : Bool) (hdefaults : t.Defaults w first) (n : StdString) :
    (t.without n first).Defaults w first := by
  induction t generalizing first with
  | none => trivial
  | integer value letters rest ih => exact ih false hdefaults
  | type name const declarators rest ih => exact ih false hdefaults
  | template name arguments const declarators rest ihArguments ih =>
    obtain ⟨hplain, harguments, hrest⟩ := hdefaults
    rw [Arguments.without]
    split
    next h =>
      simp only [Bool.and_eq_true, Bool.not_eq_true'] at h
      rw [h.1]
      exact ih false hrest
    next => exact ⟨hplain, ihArguments true harguments, ih false hrest⟩

/-- **`removeParameter` takes the default arguments of the name away.** -/
theorem removeParameter_write (hn : Word (',' :: n)) (hcomma : ',' ∉ n) (t : Arguments)
    (htype : t.IsType) (hdefaults : t.Defaults n true) :
    ∃ fuel, removeParameter fuel (t.write renamed [] []) (',' :: n ++ ['<']) =
      some ((t.without n true).write renamed [] []) := by
  apply removeParameter_of_stripped hn
  · show nesting (t.write renamed (delimiter true) []) 0 = some 0
    exact nesting_write bracketed_renamed t true [] 0
  · exact stripped_type t htype hdefaults
  · apply not_infix_without hn hcomma t true
    · exact not_infix_of_mem List.mem_cons_self List.not_mem_nil
    · intro c hc
      cases hc

end UnifyPrototype.TypeDemangler
