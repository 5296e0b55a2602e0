import UnifyPrototype.TypeDemangler.Model
import UnifyPrototype.Utils.Brackets
import Mathlib.Logic.Relation

/-!
# `removeParameter`

A round deletes the first segment: the parameter and its arguments to the matching `>`. Segments are
nested or apart, so their order does not matter for what is left.
-/

namespace UnifyPrototype.TypeDemangler

open UnifyPrototype.Utils UnifyPrototype.Cms Text Relation

/-- How deep a name is nested in template arguments. -/
abbrev nesting : StdString → ℕ → Option ℕ :=
  Brackets.nesting '<' '>'

abbrev Balanced : StdString → Prop :=
  Brackets.Balanced '<' '>'

variable {toRemove s s' t u x a a' b b' args args' rest : StdString} {d n : ℕ}

/-! ## The matching bracket -/

/-- The bracket that is found closes the parameter. -/
lemma matching_eq_some (h : matching (d + 1) rest = some n) :
    ∃ args b, rest = args ++ '>' :: b ∧ args.length = n ∧ nesting args d = some 0 := by
  induction rest generalizing d n with
  | nil => cases h
  | cons c rest ih =>
    simp only [matching, Nat.add_sub_cancel] at h
    split_ifs at h with hopening hclosing hzero
    · obtain ⟨n, hn, rfl⟩ := Option.map_eq_some_iff.mp h
      obtain ⟨args, b, rfl, rfl, hargs⟩ := ih hn
      refine ⟨c :: args, b, rfl, rfl, ?_⟩
      rw [hopening, nesting, Brackets.nesting_opening]
      exact hargs
    · -- the bracket that closes the last open one is the match
      subst hclosing hzero
      obtain rfl := Option.some.inj h
      exact ⟨[], rest, rfl, rfl, rfl⟩
    · obtain ⟨d, rfl⟩ := Nat.exists_eq_succ_of_ne_zero hzero
      obtain ⟨n, hn, rfl⟩ := Option.map_eq_some_iff.mp h
      obtain ⟨args, b, rfl, rfl, hargs⟩ := ih hn
      refine ⟨c :: args, b, rfl, rfl, ?_⟩
      rw [hclosing, nesting, Brackets.nesting_closing (by decide), if_neg hzero]
      exact hargs
    · obtain ⟨n, hn, rfl⟩ := Option.map_eq_some_iff.mp h
      obtain ⟨args, b, rfl, rfl, hargs⟩ := ih hn
      refine ⟨c :: args, b, rfl, rfl, ?_⟩
      rw [nesting, Brackets.nesting, if_neg hopening, if_neg hclosing]
      exact hargs

/-- If none is found, the text closes less than it opens. -/
lemma matching_eq_none (h : matching (d + 1) rest = none) : (nesting rest d).isSome := by
  induction rest generalizing d with
  | nil => rfl
  | cons c rest ih =>
    simp only [matching, Nat.add_sub_cancel] at h
    simp only [nesting, Brackets.nesting]
    split_ifs at h ⊢ with hopening hclosing hzero
    · exact ih (Option.map_eq_none_iff.mp h)
    · obtain ⟨d, rfl⟩ := Nat.exists_eq_succ_of_ne_zero hzero
      exact ih (Option.map_eq_none_iff.mp h)
    · exact ih (Option.map_eq_none_iff.mp h)

/-! ## Segments -/

/-- The parameter, its arguments and the matching bracket. -/
def segment (toRemove args : StdString) : StdString :=
  toRemove ++ args ++ ['>']

/-- What is left of the text behind a segment: a space goes unless a `>` is before the segment. -/
def behind (a b : StdString) : StdString :=
  if b.head? = some ' ' ∧ a.getLast? ≠ some '>' then b.tail else b

/-- A segment and the space behind it are deleted in the way of the code. -/
inductive Strips (toRemove : StdString) : StdString → StdString → Prop
  | mk (a b : StdString) {args : StdString} : Balanced args →
      Strips toRemove (a ++ segment toRemove args ++ b) (a ++ behind a b)

/-- A segment and at most one space behind it are deleted. -/
inductive Deletes (toRemove : StdString) : StdString → StdString → Prop
  | segment (a b : StdString) {args : StdString} : Balanced args →
      Deletes toRemove (a ++ segment toRemove args ++ b) (a ++ b)
  | space (a b : StdString) {args : StdString} : Balanced args →
      Deletes toRemove (a ++ segment toRemove args ++ ' ' :: b) (a ++ b)

lemma behind_cases (a b : StdString) : behind a b = b ∨ b = ' ' :: behind a b := by
  unfold behind
  split
  next h =>
    obtain ⟨b, rfl⟩ : ∃ b', b = ' ' :: b' := List.head?_eq_some_iff.mp h.1
    exact .inr rfl
  next => exact .inl rfl

/-- A round deletes the parameter with its arguments. -/
lemma Strips.deletes (h : Strips toRemove s t) : Deletes toRemove s t := by
  obtain ⟨a, b, hargs⟩ := h
  rcases behind_cases a b with heq | heq
  · rw [heq]
    exact .segment a b hargs
  · generalize behind a b = b' at heq
    rw [heq]
    exact .space a b' hargs

/-- From the parameter to the matching bracket it is the segment. -/
lemma erase_segment (toRemove a args b : StdString) :
    erase (a ++ toRemove ++ (args ++ '>' :: b)) a.length
      (a.length + toRemove.length + args.length + 1 - a.length) = a ++ b := by
  have hlength : a.length + toRemove.length + args.length + 1 - a.length =
      (segment toRemove args).length := by
    simp only [segment, List.length_append, List.length_singleton]
    omega
  have hsegment : a ++ toRemove ++ (args ++ '>' :: b) = a ++ segment toRemove args ++ b := by
    simp [segment]
  rw [hlength, hsegment, erase_append]

/-- The character before the segment is no `>`. -/
lemma getElem?_before (a b : StdString) :
    a.length = 0 ∨ (a ++ b)[a.length - 1]? ≠ some '>' ↔ a.getLast? ≠ some '>' := by
  rcases List.eq_nil_or_concat a with rfl | ⟨a, c, rfl⟩
  · simp
  · simp

/-- What a round does: there is no segment left, it deletes one, or the first one has no end. -/
lemma removeRound_cases (toRemove s : StdString) :
    (removeRound toRemove s = .leave ∧ ¬ toRemove <:+: s) ∨
      (∃ a args b, s = a ++ segment toRemove args ++ b ∧ Balanced args ∧
        removeRound toRemove s = .again (a ++ behind a b)) ∨
      ∃ a rest, s = a ++ toRemove ++ rest ∧ (nesting rest 0).isSome ∧
        removeRound toRemove s = .again s := by
  unfold removeRound
  cases hfind : find s toRemove 0 with
  | none => exact .inl ⟨rfl, find_zero_eq_none_iff.mp hfind⟩
  | some index =>
    obtain ⟨a, rest, rfl, rfl, -⟩ := find_eq_some hfind
    have hdrop : (a ++ toRemove ++ rest).drop (a.length + toRemove.length) = rest := by
      rw [← List.length_append, List.drop_left]
    simp only [hdrop]
    cases hmatching : matching 1 rest with
    | none => exact .inr (.inr ⟨a, rest, rfl, matching_eq_none hmatching, rfl⟩)
    | some n =>
      obtain ⟨args, b, rfl, rfl, hargs⟩ := matching_eq_some hmatching
      refine .inr (.inl ⟨a, args, b, by simp [segment], hargs, ?_⟩)
      have hhead : (a ++ b)[a.length]? = b.head? := by
        rw [List.getElem?_append_right le_rfl, Nat.sub_self, List.head?_eq_getElem?]
      simp only [erase_segment, hhead, getElem?_before, behind]
      split
      next h =>
        obtain ⟨b, rfl⟩ : ∃ b', b = ' ' :: b' := List.head?_eq_some_iff.mp h.1
        have hspace := erase_append a [' '] b
        rw [List.append_assoc] at hspace
        exact congrArg Round.again hspace
      next => rfl

lemma not_infix_of_removeRound (h : removeRound toRemove s = .leave) : ¬ toRemove <:+: s := by
  rcases removeRound_cases toRemove s with ⟨-, hnot⟩ | ⟨a, args, b, -, -, hagain⟩ | ⟨a, rest, -, -, hagain⟩
  · exact hnot
  · cases h.symm.trans hagain
  · cases h.symm.trans hagain

/-! ## The parameters -/

/-- The parameters that `typeDemangle` removes. -/
def parameters : List StdString :=
  [allocator, comparator]

/-- The text of a parameter before its bracket. -/
structure Word (w : StdString) : Prop where
  opening : '<' ∉ w
  closing : '>' ∉ w
  space : ' ' ∉ w

lemma exists_word (h : toRemove ∈ parameters) : ∃ w, Word w ∧ toRemove = w ++ ['<'] := by
  simp only [parameters, List.mem_cons, List.not_mem_nil, or_false] at h
  rcases h with rfl | rfl
  · exact ⟨",std::allocator".toList, ⟨by decide, by decide, by decide⟩, by decide⟩
  · exact ⟨",std::less".toList, ⟨by decide, by decide, by decide⟩, by decide⟩

section
variable {w : StdString}

lemma Word.balanced_segment (hw : Word w) (hargs : Balanced args) :
    Balanced (segment (w ++ ['<']) args) := by
  have hplain : Balanced w := Brackets.balanced_of_not_mem hw.opening hw.closing
  have hgroup : Balanced ('<' :: args ++ ['>']) := hargs.enclosed (by decide)
  have happend := hplain.append hgroup
  rwa [show w ++ ('<' :: args ++ ['>']) = segment (w ++ ['<']) args by simp [segment]] at happend

/-- The space behind a segment is no bracket. -/
lemma nesting_behind (a b : StdString) : nesting (behind a b) = nesting b := by
  rcases behind_cases a b with heq | heq
  · rw [heq]
  · generalize behind a b = b' at heq
    subst heq
    rfl

/-- Where a segment is deleted, what is around it is nested as before. -/
lemma Word.nesting_segment (hw : Word w) (hargs : Balanced args) (z a b : StdString) (n : ℕ) :
    nesting (z ++ segment (w ++ ['<']) args ++ b) n = nesting (z ++ behind a b) n := by
  have hmiddle : nesting (z ++ segment (w ++ ['<']) args ++ b) n = nesting (z ++ b) n :=
    (hw.balanced_segment hargs).nesting_middle z b n
  have hbehind : Brackets.nesting '<' '>' (behind a b) = nesting b := nesting_behind a b
  rw [hmiddle, nesting, Brackets.nesting_append, Brackets.nesting_append, hbehind]

/-- A round leaves the depth behind the name as it is. -/
lemma Strips.nesting_eq (hw : Word w) (h : Strips (w ++ ['<']) s t) (n : ℕ) :
    nesting t n = nesting s n := by
  obtain ⟨a, b, hargs⟩ := h
  exact (hw.nesting_segment hargs a a b n).symm

lemma Strips.length_lt (h : Strips toRemove s t) : t.length < s.length := by
  obtain ⟨a, b, hargs⟩ := h
  have hle : (behind a b).length ≤ b.length := by
    rcases behind_cases a b with heq | heq
    · rw [heq]
    · rw [congrArg List.length heq, List.length_cons]
      omega
  simp only [segment, List.length_append, List.length_singleton]
  omega

/-- No `<` without a match comes to stand behind the beginning of the parameter when segments are
deleted from the text before it. -/
def Strippable (toRemove s : StdString) : Prop :=
  ∀ a b, s = a ++ '<' :: b → (nesting b 0).isSome →
    ∀ a', ReflTransGen (Strips toRemove) a a' → ¬ toRemove <:+ a' ++ ['<']

/-- In a strippable name the first occurrence has its match. -/
lemma removeRound_of_strippable (w : StdString) (hs : Strippable (w ++ ['<']) s) :
    removeRound (w ++ ['<']) s = .leave ∨
      ∃ t, removeRound (w ++ ['<']) s = .again t ∧ Strips (w ++ ['<']) s t := by
  rcases removeRound_cases (w ++ ['<']) s with
    ⟨hleave, -⟩ | ⟨a, args, b, rfl, hargs, hagain⟩ | ⟨a, rest, rfl, hunmatched, -⟩
  · exact .inl hleave
  · exact .inr ⟨_, hagain, .mk a b hargs⟩
  · have hnot := hs (a ++ w) rest (by simp) hunmatched (a ++ w) .refl
    rw [List.append_assoc] at hnot
    exact absurd (List.suffix_append a _) hnot

/-! ## Balanced names -/

/-- In a balanced name every parameter has its closing bracket. -/
lemma Balanced.strippable (hs : Balanced s) : Strippable toRemove s := by
  rintro a b rfl hunmatched
  have hmatched := hs.nesting_eq_none []
  rw [List.append_nil] at hmatched
  rw [nesting, hmatched] at hunmatched
  cases hunmatched

/-- **`removeParameter` strips the segments of a balanced name.** It ends with a balanced name that has
no occurrence of the parameter, and all that it has done is to delete segments, each with at most one
space behind it. -/
theorem removeParameter_balanced (h : toRemove ∈ parameters) (hs : Balanced s) :
    ∃ t, removeParameter s.length s toRemove = some t ∧ Balanced t ∧ ¬ toRemove <:+: t ∧
      ReflTransGen (Deletes toRemove) s t := by
  obtain ⟨w, hw, rfl⟩ := exists_word h
  have hround : ∀ u, Balanced u → removeRound (w ++ ['<']) u = .leave ∨
      ∃ v, removeRound (w ++ ['<']) u = .again v ∧ Strips (w ++ ['<']) u v :=
    fun u hu => removeRound_of_strippable w (Balanced.strippable hu)
  have hstart : s.length = s.length ∧ Balanced s := ⟨rfl, hs⟩
  -- every round shortens the name, so its length bounds the rounds
  obtain ⟨t, ht⟩ : ∃ t, loop (removeRound (w ++ ['<'])) s.length s = some t := by
    refine exists_loop (I := fun n u => u.length = n ∧ Balanced u) hstart ?_
    rintro _ u ⟨rfl, hu⟩
    rcases hround u hu with hleave | ⟨v, hagain, hstrips⟩
    · exact .inl hleave
    · exact .inr ⟨v, _, hagain, hstrips.length_lt, rfl, (hstrips.nesting_eq hw 0).trans hu⟩
  have hends := Ends.of_loop ht
  -- every round deletes a segment and leaves the name balanced
  have hinvariant : Balanced t ∧ ReflTransGen (Deletes (w ++ ['<'])) s t := by
    apply hends.invariant (I := fun u => Balanced u ∧ ReflTransGen (Deletes (w ++ ['<'])) s u)
      ⟨hs, .refl⟩
    rintro u v ⟨hu, hsteps⟩ hagain
    rcases hround u hu with hleave | ⟨v', hagain', hstrips⟩
    · cases hagain.symm.trans hleave
    · obtain rfl := Round.again.inj (hagain.symm.trans hagain')
      exact ⟨(hstrips.nesting_eq hw 0).trans hu, hsteps.tail hstrips.deletes⟩
  exact ⟨t, ht, hinvariant.1, not_infix_of_removeRound hends.left, hinvariant.2⟩

/-- Segments one in the other and one after the other. -/
def vectors : StdString :=
  "map<A,V<V<A,std::allocator<A> >,std::allocator<V<A,std::allocator<A> > > > >".toList

theorem removeParameter_balanced_vectors :
    ∃ t, removeParameter vectors.length vectors allocator = some t ∧ Balanced t ∧
      ¬ allocator <:+: t ∧ ReflTransGen (Deletes allocator) vectors t :=
  removeParameter_balanced (by decide) (by decide)

example : removeParameter vectors.length vectors allocator = some "map<A,V<V<A> > >".toList := by
  decide

/-! ## The order of the deletions -/

/-- A segment that begins in the arguments of another one ends there: the bracket at the end of the
other one is no match for a bracket in its arguments. -/
lemma segment_inside (hw : Word w) (hargs : Balanced args) (hargs' : Balanced args')
    (h : args ++ '>' :: b = x ++ (segment (w ++ ['<']) args' ++ b')) (hle : x.length ≤ args.length) :
    ∃ y, args = x ++ segment (w ++ ['<']) args' ++ y ∧ b' = y ++ '>' :: b := by
  obtain ⟨z, rfl, -⟩ := append_split h.symm hle
  obtain ⟨k, hk, -⟩ : ∃ k, Brackets.nesting '<' '>' x 0 = some k ∧ nesting z k = some 0 := by
    rw [Balanced, Brackets.Balanced, Brackets.nesting_append] at hargs
    exact Option.bind_eq_some_iff.mp hargs
  have hsegment : nesting (x ++ segment (w ++ ['<']) args') 0 = some k := by
    rw [nesting, Brackets.nesting_append, hk, Option.bind_some]
    exact (hw.balanced_segment hargs').nesting_eq k
  rw [← List.append_assoc x (segment _ _)] at h
  obtain ⟨y, hy⟩ := Brackets.prefix_of_nesting (by decide) hargs h hsegment
  refine ⟨y, hy.symm, ?_⟩
  rw [← hy, List.append_assoc] at h
  exact (List.append_cancel_left h).symm

/-- No segment begins in the word of another one: the bracket behind the word of the other one would be
in its word. -/
lemma not_segment_in_word (hw : Word w) (h : w ++ '<' :: t = x ++ (segment (w ++ ['<']) args ++ b))
    (hx : x ≠ []) : w.length < x.length := by
  by_contra hle
  push Not at hle
  obtain ⟨z, hz, hrest⟩ := append_split h.symm hle
  have hlength := congrArg List.length hz
  rw [List.length_append] at hlength
  have hpos := List.length_pos_iff.mpr hx
  simp only [segment, List.append_assoc] at hrest
  obtain ⟨y, hends, hy⟩ := append_split hrest.symm (by omega)
  cases y with
  | nil =>
    rw [hends, List.append_nil] at hlength
    omega
  | cons d y =>
    obtain rfl := (List.cons.inj hy).1
    exact absurd (hends ▸ List.mem_append_right z List.mem_cons_self) hw.opening

/-- Two segments of a name are the same, one after the other, or one in the arguments of the other. -/
lemma segment_cases (hw : Word w) (hargs : Balanced args) (hargs' : Balanced args')
    (h : a ++ segment (w ++ ['<']) args ++ b = a' ++ segment (w ++ ['<']) args' ++ b')
    (hle : a.length ≤ a'.length) :
    (a = a' ∧ args = args' ∧ b = b') ∨
      (∃ m, a' = a ++ segment (w ++ ['<']) args ++ m ∧ b = m ++ segment (w ++ ['<']) args' ++ b') ∨
      ∃ x y, a' = a ++ w ++ '<' :: x ∧ args = x ++ segment (w ++ ['<']) args' ++ y ∧
        b' = y ++ '>' :: b := by
  rw [List.append_assoc, List.append_assoc] at h
  obtain ⟨m, rfl, hm⟩ := append_split h hle
  have htail : w ++ '<' :: (args ++ '>' :: b) = m ++ (segment (w ++ ['<']) args' ++ b') := by
    rw [← hm]
    simp [segment]
  by_cases hnil : m = []
  · have hsame : args ++ '>' :: b = args' ++ '>' :: b' := by simpa [hnil, segment] using htail
    obtain ⟨rfl, rfl⟩ := Brackets.eq_of_closing (by decide) hargs hargs' hsame
    exact .inl ⟨by simp [hnil], rfl, rfl⟩
  · obtain ⟨x, rfl, hx⟩ := append_cons_split htail (not_segment_in_word hw htail hnil)
    rcases Nat.lt_or_ge args.length x.length with hafter | hinside
    · obtain ⟨m, rfl, rfl⟩ := append_cons_split hx hafter
      exact .inr (.inl ⟨m, by simp [segment], by simp [segment]⟩)
    · obtain ⟨y, hy, rfl⟩ := segment_inside hw hargs hargs' hx hinside
      exact .inr (.inr ⟨x, y, by simp, hy, rfl⟩)

lemma behind_of_space (h : a.getLast? ≠ some '>') (b : StdString) : behind a (' ' :: b) = b :=
  if_pos ⟨rfl, h⟩

lemma behind_of_closing (h : a.getLast? = some '>') (b : StdString) : behind a b = b :=
  if_neg fun hspace => hspace.2 h

lemma behind_of_head (h : b.head? ≠ some ' ') (a : StdString) : behind a b = b :=
  if_neg fun hspace => h hspace.1

/-- The character before the segment is all that matters. -/
lemma behind_congr (h : a.getLast? = some '>' ↔ a'.getLast? = some '>') (b : StdString) :
    behind a b = behind a' b := by
  simp only [behind, ne_eq, h]

lemma behind_append_of_ne_nil (a : StdString) {x : StdString} (hx : x ≠ []) (y : StdString) :
    behind a (x ++ y) = behind a x ++ y := by
  obtain ⟨c, x, rfl⟩ := List.exists_cons_of_ne_nil hx
  by_cases hlast : a.getLast? = some '>'
  · rw [behind_of_closing hlast, behind_of_closing hlast]
  · by_cases hspace : c = ' '
    · rw [hspace, List.cons_append, behind_of_space hlast, behind_of_space hlast]
    · rw [behind_of_head (by simpa using hspace), behind_of_head (by simpa using hspace)]

lemma behind_eq_nil (h : behind a b = []) : b = [] ∨ b = [' '] ∧ a.getLast? ≠ some '>' := by
  unfold behind at h
  split at h
  next hspace =>
    obtain ⟨b, rfl⟩ : ∃ b', b = ' ' :: b' := List.head?_eq_some_iff.mp hspace.1
    exact .inr ⟨congrArg _ h, hspace.2⟩
  next => exact .inl h

lemma getLast?_behind (h : behind a b ≠ []) : (behind a b).getLast? = b.getLast? := by
  rcases behind_cases a b with heq | heq
  · rw [heq]
  · generalize behind a b = b' at h heq
    subst heq
    obtain ⟨c, b', rfl⟩ := List.exists_cons_of_ne_nil h
    exact List.getLast?_cons_cons.symm

lemma getLast?_segment (toRemove a args : StdString) :
    (a ++ segment toRemove args).getLast? = some '>' := by
  simp [segment]

/-- What is left behind two segments, one after the other, does not depend on which one goes first. -/
lemma behind_behind (toRemove a m b args : StdString) :
    a ++ behind a m ++ behind (a ++ behind a m) b =
      a ++ behind a (m ++ behind (a ++ segment toRemove args ++ m) b) := by
  by_cases hnil : behind a m = []
  · rw [hnil, List.append_nil]
    rcases behind_eq_nil hnil with rfl | ⟨rfl, hlast⟩
    · rw [List.append_nil, behind_of_closing (getLast?_segment toRemove a args), List.nil_append]
    · -- the space between them goes with the first one in either order
      have hsame : behind (a ++ segment toRemove args ++ [' ']) b = behind a b := by
        apply behind_congr
        simp [hlast]
      rw [hsame, List.singleton_append, behind_of_space hlast]
  · have hm : m ≠ [] := by
      rintro rfl
      exact hnil (behind_of_head (by simp) a)
    have hsame : behind (a ++ behind a m) b = behind (a ++ segment toRemove args ++ m) b := by
      apply behind_congr
      rw [List.getLast?_append_of_ne_nil _ hnil, List.getLast?_append_of_ne_nil _ hm,
        getLast?_behind hnil]
    rw [behind_append_of_ne_nil a hm, hsame, List.append_assoc]

lemma behind_append (h : b.head? ≠ some ' ') (a m : StdString) :
    behind a (m ++ b) = behind a m ++ b := by
  cases m with
  | nil => rw [List.nil_append, behind_of_head h, behind_of_head (by simp), List.nil_append]
  | cons c m => exact behind_append_of_ne_nil a (List.cons_ne_nil c m) b

lemma Word.head? (hw : Word w) : w.head? ≠ some ' ' := by
  intro h
  exact hw.space (List.mem_of_mem_head? h)

lemma Word.head?_segment (hw : Word w) (args b : StdString) :
    (segment (w ++ ['<']) args ++ b).head? ≠ some ' ' := by
  have hhead := hw.head?
  cases w with
  | nil => simp [segment]
  | cons c w => simpa [segment] using hhead

/-- Two deletions from the same name come together again. -/
lemma strips_diamond (hw : Word w) (hargs : Balanced args) (hargs' : Balanced args')
    (hs : a ++ segment (w ++ ['<']) args ++ b = a' ++ segment (w ++ ['<']) args' ++ b')
    (hle : a.length ≤ a'.length) :
    ∃ v, ReflGen (Strips (w ++ ['<'])) (a ++ behind a b) v ∧
      ReflGen (Strips (w ++ ['<'])) (a' ++ behind a' b') v := by
  rcases segment_cases hw hargs hargs' hs hle with
    ⟨rfl, rfl, rfl⟩ | ⟨m, rfl, rfl⟩ | ⟨x, y, rfl, rfl, rfl⟩
  · exact ⟨_, .refl, .refl⟩
  · -- one after the other: the other one goes as well
    refine ⟨a ++ behind a m ++ behind (a ++ behind a m) b', .single ?_, .single ?_⟩
    · rw [List.append_assoc m, behind_append (hw.head?_segment args' b'), ← List.append_assoc,
        ← List.append_assoc]
      exact .mk _ _ hargs'
    · rw [behind_behind (w ++ ['<']) a m b' args, List.append_assoc (a ++ _)]
      exact .mk _ _ hargs
  · -- one in the arguments of the other: they are balanced without it, too
    refine ⟨a ++ behind a b, .refl, .single ?_⟩
    generalize hx : a ++ w ++ '<' :: x = a'
    have hbalanced : Balanced (x ++ behind a' y) := by
      have hwithout : Balanced (x ++ y) := ((hw.balanced_segment hargs').middle_iff x y).mp hargs
      have hbehind : Brackets.nesting '<' '>' (behind a' y) = nesting y := nesting_behind a' y
      rw [Balanced, Brackets.Balanced, Brackets.nesting_append] at hwithout ⊢
      rwa [hbehind]
    have hsegment : Strips (w ++ ['<']) (a ++ segment (w ++ ['<']) (x ++ behind a' y) ++ b)
        (a ++ behind a b) := .mk a b hbalanced
    rw [show a' ++ behind a' (y ++ '>' :: b) =
        a ++ segment (w ++ ['<']) (x ++ behind a' y) ++ b by
      rw [behind_append (by simp)]
      nth_rewrite 1 [← hx]
      simp [segment]]
    exact hsegment

/-- Two parameters can be removed in either order. -/
lemma Strips.diamond (hw : Word w) (h : Strips (w ++ ['<']) s t) (h' : Strips (w ++ ['<']) s u) :
    ∃ v, ReflGen (Strips (w ++ ['<'])) t v ∧ ReflTransGen (Strips (w ++ ['<'])) u v := by
  obtain ⟨a, b, hargs⟩ := h
  generalize hs : a ++ segment (w ++ ['<']) _ ++ b = s at h'
  obtain ⟨a', b', hargs'⟩ := h'
  rcases Nat.le_total a.length a'.length with hle | hle
  · obtain ⟨v, hv, hv'⟩ := strips_diamond hw hargs hargs' hs hle
    exact ⟨v, hv, hv'.to_reflTransGen⟩
  · obtain ⟨v, hv', hv⟩ := strips_diamond hw hargs' hargs hs.symm hle
    exact ⟨v, hv, hv'.to_reflTransGen⟩

/-! ## Names that are not balanced -/

/-- The beginning of the parameter at the end of a name stays there. -/
lemma Strips.suffix (hw : Word w) (h : Strips (w ++ ['<']) s t) (hsuffix : w <:+ s) : w <:+ t := by
  obtain ⟨a, b, hargs⟩ := h
  obtain ⟨z, hz⟩ := hsuffix
  rename_i args
  rcases Nat.lt_or_ge z.length (a ++ segment (w ++ ['<']) args).length with hlt | hle
  · -- the bracket at the end of the segment would be in the word
    have hclosing : z ++ w = a ++ (w ++ ['<'] ++ args) ++ '>' :: b := by
      rw [hz]
      simp [segment]
    obtain ⟨m, -, hm⟩ := append_split hclosing (by
      simp only [segment, List.length_append, List.length_singleton] at hlt ⊢
      omega)
    exact absurd (hm ▸ List.mem_append_right m List.mem_cons_self) hw.closing
  · obtain ⟨m, -, rfl⟩ := append_split hz.symm hle
    rw [behind_append hw.head?, ← List.append_assoc]
    exact List.suffix_append _ _

/-- The word of a parameter at the end of the name stays there. -/
lemma suffix_of_strips (hw : Word w) (h : ReflTransGen (Strips (w ++ ['<'])) s t)
    (hsuffix : w <:+ s) : w <:+ t := by
  induction h with
  | refl => exact hsuffix
  | tail _ hstrips ih => exact hstrips.suffix hw ih

lemma not_strips (h : ¬ toRemove <:+: s) : ¬ Strips toRemove s t := by
  rintro ⟨a, b, -⟩
  exact h ⟨a, _, by simp only [segment, List.append_assoc]; rfl⟩

/-- Without an occurrence there is nothing to strip. -/
lemma strippable_of_not_infix (h : ¬ toRemove <:+: s) : Strippable toRemove s := by
  rintro a b rfl - a' hsteps hsuffix
  rw [List.append_cons] at h
  have ha : ¬ toRemove <:+: a := fun ha =>
    h ((ha.trans (List.prefix_append a ['<']).isInfix).trans (List.prefix_append _ b).isInfix)
  rcases hsteps.cases_head with rfl | ⟨c, hstrips, -⟩
  · exact h (hsuffix.isInfix.trans (List.prefix_append _ b).isInfix)
  · exact not_strips ha hstrips

lemma behind_eq_append_cons (h : behind a b = u ++ '<' :: t) :
    ∃ m, b = m ++ '<' :: t ∧ behind a m = u := by
  have hm : ∀ m, b = m ++ '<' :: t → behind a m = u := by
    intro m hb
    rw [hb, behind_append (by simp)] at h
    exact List.append_cancel_right h
  rcases behind_cases a b with heq | heq
  · rw [h] at heq
    exact ⟨u, heq.symm, hm u heq.symm⟩
  · rw [h] at heq
    exact ⟨' ' :: u, heq, hm _ heq⟩

/-- Whether a name is strippable does not change when a segment is deleted. -/
lemma Strips.strippable_iff (hw : Word w) (h : Strips (w ++ ['<']) s t) :
    Strippable (w ++ ['<']) s ↔ Strippable (w ++ ['<']) t := by
  obtain ⟨a₀, b₀, hargs⟩ := h
  rename_i args
  constructor
  · intro hs a b hab hunmatched a' hsteps
    rcases Nat.lt_or_ge a.length a₀.length with hlt | hle
    · -- the segment was behind the bracket
      obtain ⟨z, hz, rfl⟩ := append_cons_split hab.symm hlt
      rw [← hw.nesting_segment hargs] at hunmatched
      exact hs a (z ++ segment (w ++ ['<']) args ++ b₀) (by simp [hz]) hunmatched a' hsteps
    · obtain ⟨m, rfl, hm⟩ := append_split hab hle
      obtain ⟨m', rfl, rfl⟩ := behind_eq_append_cons hm
      exact hs (a₀ ++ segment (w ++ ['<']) args ++ m') b (by simp) hunmatched a'
        (hsteps.head (.mk a₀ m' hargs))
  · intro ht a b hab hunmatched a' hsteps
    rcases Nat.lt_or_ge a.length a₀.length with hlt | hle
    · rw [List.append_assoc] at hab
      obtain ⟨z, hz, rfl⟩ := append_cons_split hab.symm hlt
      rw [← List.append_assoc, hw.nesting_segment hargs z a₀ b₀] at hunmatched
      exact ht a (z ++ behind a₀ b₀) (by rw [hz]; simp) hunmatched a' hsteps
    · rcases Nat.lt_or_ge a.length (a₀ ++ segment (w ++ ['<']) args).length with hinside | hafter
      · -- a bracket of the segment has its match there
        exfalso
        obtain ⟨z, hz, rfl⟩ := append_cons_split hab.symm hinside
        obtain ⟨m, rfl, hm⟩ := append_split hz hle
        have hsegment : Balanced (segment (w ++ ['<']) args) := hw.balanced_segment hargs
        rw [hm] at hsegment
        rw [nesting, hsegment.nesting_eq_none] at hunmatched
        cases hunmatched
      · -- deleting the segment as well leaves the end as it is
        obtain ⟨m, rfl, rfl⟩ := append_split hab hafter
        obtain ⟨v, hv, hv'⟩ := church_rosser (fun _ _ _ => Strips.diamond hw) hsteps
          (.single (.mk a₀ m hargs))
        intro hsuffix
        rw [List.suffix_append_self_iff] at hsuffix
        have hword := suffix_of_strips hw hv hsuffix
        refine ht (a₀ ++ behind a₀ m) b ?_ hunmatched v hv' (List.suffix_append_self_iff.mpr hword)
        rw [behind_append (by simp), List.append_assoc]

/-- What is left at the end is strippable, and no round changes whether it is. -/
lemma Strippable.of_ends (hw : Word w) (h : Ends (removeRound (w ++ ['<'])) s t) :
    Strippable (w ++ ['<']) s := by
  induction h with
  | leave hleave => exact strippable_of_not_infix (not_infix_of_removeRound hleave)
  | @again s s' t hagain _ ih =>
    rcases removeRound_cases (w ++ ['<']) s with
      ⟨hleave, -⟩ | ⟨a, args, b, rfl, hargs, hstrips⟩ | ⟨a, rest, -, -, hsame⟩
    · cases hagain.symm.trans hleave
    · obtain rfl := Round.again.inj (hagain.symm.trans hstrips)
      exact (Strips.mk a b hargs).strippable_iff hw |>.mpr ih
    · obtain rfl := Round.again.inj (hagain.symm.trans hsame)
      exact ih

/-- Every round shortens a strippable name. -/
lemma Strippable.exists_ends (hw : Word w) (hs : Strippable (w ++ ['<']) s) :
    ∃ t, Ends (removeRound (w ++ ['<'])) s t := by
  refine Utils.exists_ends List.length hs fun s hs => ?_
  rcases removeRound_of_strippable w hs with hleave | ⟨t, hagain, hstrips⟩
  · exact .inl hleave
  · exact .inr ⟨t, hagain, hstrips.length_lt, (hstrips.strippable_iff hw).mp hs⟩

/-- **`removeParameter` ends if and only if no `<` without a match comes behind the beginning of the
parameter.** Such a bracket is never deleted, and the round that finds it there leaves everything as it
is; while there is none every round shortens the name. -/
theorem removeParameter_ends_iff (h : toRemove ∈ parameters) (s : StdString) :
    (∃ fuel t, removeParameter fuel s toRemove = some t) ↔ Strippable toRemove s := by
  obtain ⟨w, hw, rfl⟩ := exists_word h
  constructor
  · rintro ⟨fuel, t, ht⟩
    exact .of_ends hw (.of_loop ht)
  · intro hs
    obtain ⟨t, hends⟩ := hs.exists_ends hw
    obtain ⟨fuel, hfuel⟩ := hends.exists_loop
    exact ⟨fuel, t, hfuel⟩

/-- The bracket of an operator has no match, but it does not come behind the parameter. -/
theorem removeParameter_ends_iff_operator :
    Strippable allocator "operator<(A<B,std::allocator<B> >)".toList :=
  (removeParameter_ends_iff (by decide) _).mp ⟨1, "operator<(A<B>)".toList, by decide⟩

/-- A class that is local to `operator<<`: its two brackets take the two matches, so the bracket of the
parameter has none. -/
def localClasses : StdString :=
  "std::vector<operator<<(A,A)::Local,std::allocator<operator<<(A,A)::Local> >".toList

theorem localClasses_again : ¬ ∃ fuel t, removeParameter fuel localClasses allocator = some t := by
  rintro ⟨fuel, t, ht⟩
  have hsame : removeRound allocator localClasses = .again localClasses := rfl
  exact not_ends_of_again hsame (.of_loop ht)

end

end UnifyPrototype.TypeDemangler
