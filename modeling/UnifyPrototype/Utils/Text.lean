import Mathlib.Data.List.Infix
import Mathlib.Tactic.Common

/-!
# Text

The members of `std::string` that look for a text and that change one in place, for lists of any
characters. A position is the number of characters before it.
-/

namespace UnifyPrototype.Utils.Text

variable {A : Type*} {s p t a b : List A} {d : A} {i pos : ℕ}

/-- A property of all characters of a text can be computed. -/
lemma forall_mem_of_all {P : A → Prop} [DecidablePred P] (h : s.all (fun c => decide (P c)) = true) :
    ∀ c ∈ s, P c := by
  intro c hc
  exact of_decide_eq_true (List.all_eq_true.mp h c hc)

/-! ## Search -/

/-- Where the text stands it splits the string. -/
lemma prefix_drop_iff (hi : i ≤ s.length) :
    p <+: s.drop i ↔ ∃ a b, s = a ++ p ++ b ∧ a.length = i := by
  constructor
  · rintro ⟨b, hb⟩
    refine ⟨s.take i, b, ?_, List.length_take_of_le hi⟩
    rw [List.append_assoc, hb, List.take_append_drop]
  · rintro ⟨a, b, rfl, rfl⟩
    rw [List.append_assoc, List.drop_left]
    exact List.prefix_append _ _

section
variable [DecidableEq A]

/-- `find`: the first position from `pos` on at which `p` stands. -/
def find (s p : List A) (pos : ℕ) : Option ℕ :=
  (List.range' pos (s.length + 1 - pos)).find? fun i => p.isPrefixOf (s.drop i)

/-- What `find` gives is where the first of them stands. -/
lemma find_eq_some (h : find s p pos = some i) :
    ∃ a b, s = a ++ p ++ b ∧ a.length = i ∧ pos ≤ i ∧
      ∀ a' b', s = a' ++ p ++ b' → pos ≤ a'.length → i ≤ a'.length := by
  obtain ⟨hp, earlier, later, hrange, hearlier⟩ := List.find?_eq_some_iff_append.mp h
  have hi : i ∈ List.range' pos (s.length + 1 - pos) := by simp [hrange]
  obtain ⟨hpos, hlt⟩ := List.mem_range'_1.mp hi
  obtain ⟨a, b, hs, ha⟩ := (prefix_drop_iff (by omega)).mp (List.isPrefixOf_iff_prefix.mp hp)
  refine ⟨a, b, hs, ha, hpos, fun a' b' hs' hpos' => ?_⟩
  by_contra hlt'
  -- an earlier position comes before it in the range
  have hle : a'.length ≤ s.length := by simp [hs']
  have hmem : a'.length ∈ earlier := by
    have hmem' : a'.length ∈ List.range' pos (s.length + 1 - pos) :=
      List.mem_range'_1.mpr ⟨hpos', by omega⟩
    have hsorted : (List.range' pos (s.length + 1 - pos)).Pairwise (· < ·) :=
      List.pairwise_lt_range'
    rw [hrange] at hmem' hsorted
    rcases List.mem_append.mp hmem' with hmem' | hmem'
    · exact hmem'
    · have hafter := (List.pairwise_append.mp hsorted).2.1
      rcases List.mem_cons.mp hmem' with heq | hmem'
      · omega
      · have hgt := (List.pairwise_cons.mp hafter).1 _ hmem'
        omega
  have hnot := hearlier _ hmem
  rw [List.isPrefixOf_iff_prefix.mpr ((prefix_drop_iff hle).mpr ⟨a', b', hs', rfl⟩)] at hnot
  cases hnot

/-- If `find` gives nothing, none of them stands from `pos` on. -/
lemma find_eq_none (h : find s p pos = none) (hs : s = a ++ p ++ b) : a.length < pos := by
  by_contra hle
  have hlen : a.length ≤ s.length := by simp [hs]
  have hmem : a.length ∈ List.range' pos (s.length + 1 - pos) :=
    List.mem_range'_1.mpr ⟨by omega, by omega⟩
  have hnot := List.find?_eq_none.mp h _ hmem
  exact hnot (List.isPrefixOf_iff_prefix.mpr ((prefix_drop_iff hlen).mpr ⟨a, b, hs, rfl⟩))

lemma find_zero_eq_none_iff : find s p 0 = none ↔ ¬ p <:+: s := by
  constructor
  · rintro h ⟨a, b, hs⟩
    exact absurd (find_eq_none h hs.symm) (Nat.not_lt_zero _)
  · intro h
    by_contra hne
    obtain ⟨i, hi⟩ := Option.ne_none_iff_exists'.mp hne
    obtain ⟨a, b, hs, -⟩ := find_eq_some hi
    exact h ⟨a, b, hs.symm⟩

end

/-! ## Changes -/

/-- `erase`: without the `n` characters from `i` on. -/
def erase (s : List A) (i n : ℕ) : List A :=
  s.take i ++ s.drop (i + n)

/-- `insert`: with `t` before the position `i`. -/
def insert (s : List A) (i : ℕ) (t : List A) : List A :=
  s.take i ++ t ++ s.drop i

/-- `replace`: with `t` in place of the `n` characters from `i` on. -/
def replace (s : List A) (i n : ℕ) (t : List A) : List A :=
  s.take i ++ t ++ s.drop (i + n)

lemma erase_append (a p b : List A) : erase (a ++ p ++ b) a.length p.length = a ++ b := by
  unfold erase
  rw [← List.length_append, List.drop_left, List.append_assoc, List.take_left]

lemma insert_append (a b t : List A) : insert (a ++ b) a.length t = a ++ t ++ b := by
  unfold insert
  rw [List.take_left, List.drop_left]

lemma replace_append (a p b t : List A) :
    replace (a ++ p ++ b) a.length p.length t = a ++ t ++ b := by
  unfold replace
  rw [← List.length_append, List.drop_left, List.append_assoc a p b, List.take_left]

/-! ## Where a text may stand -/

/-- A text without the character `d` stands before a `d` or behind it. -/
lemma infix_append_cons (hp : p ≠ []) (hd : d ∉ p) :
    p <:+: a ++ d :: b ↔ p <:+: a ∨ p <:+: b := by
  rw [List.infix_append_iff, List.infix_cons_iff]
  have hbegins : ∀ l, l <+: d :: b → d ∉ l → l = [] := by
    intro l hl hnot
    cases l with
    | nil => rfl
    | cons c l => exact absurd (List.mem_cons.mpr (.inl (List.cons_prefix_cons.mp hl).1.symm)) hnot
  constructor
  · rintro (ha | (hb | hb) | ⟨l, l', rfl, hl, hl'⟩)
    · exact .inl ha
    · exact absurd (hbegins p hb hd) hp
    · exact .inr hb
    · obtain rfl := hbegins l' hl' fun hmem => hd (List.mem_append_right _ hmem)
      rw [List.append_nil]
      exact .inl hl.isInfix
  · rintro (ha | hb)
    · exact .inl ha
    · exact .inr (.inl (.inr hb))

/-- A string that is put together in two ways: the shorter beginning begins the longer one. -/
lemma append_split (h : a ++ b = s ++ t) (hle : a.length ≤ s.length) :
    ∃ m, s = a ++ m ∧ b = m ++ t := by
  obtain ⟨m, rfl⟩ := List.prefix_of_prefix_length_le ⟨b, h⟩ (List.prefix_append s t) hle
  rw [List.append_assoc] at h
  exact ⟨m, rfl, List.append_cancel_left h⟩

lemma append_cons_split (h : a ++ d :: b = s ++ t) (hlt : a.length < s.length) :
    ∃ m, s = a ++ d :: m ∧ b = m ++ t := by
  rw [List.append_cons] at h
  obtain ⟨m, rfl, hb⟩ := append_split h (by rwa [List.length_append])
  exact ⟨m, (List.append_cons a d m).symm, hb⟩

/-- A text without the character `d` ends before any `d`. -/
lemma append_split_of_not_mem (h : a ++ b = s ++ d :: t) (hd : d ∉ a) :
    ∃ m, s = a ++ m ∧ b = m ++ d :: t := by
  rcases Nat.lt_or_ge s.length a.length with hlt | hle
  · obtain ⟨m, rfl, -⟩ := append_cons_split h.symm hlt
    exact absurd (List.mem_append_right s List.mem_cons_self) hd
  · exact append_split h hle

/-- A text that reaches over the end of `a` and another one that begins there agree on what they have
in common. -/
lemma append_eq_of_overlap {a' b' : List A} (h : a' ++ p ++ b' = a ++ t)
    (hlt : a'.length < a.length) (hover : a.length < a'.length + p.length) :
    ∃ x y, x ≠ [] ∧ y ≠ [] ∧ p = x ++ y ∧ a = a' ++ x ∧ t = y ++ b' := by
  rw [List.append_assoc] at h
  rcases List.append_eq_append_iff.mp h with ⟨x, rfl, hx⟩ | ⟨x, rfl, -⟩
  · rcases List.append_eq_append_iff.mp hx with ⟨y, rfl, -⟩ | ⟨y, rfl, hy⟩
    · simp only [List.length_append] at hover
      omega
    · refine ⟨x, y, ?_, ?_, rfl, rfl, hy⟩
      · rintro rfl
        simp at hlt
      · rintro rfl
        simp at hover
  · rw [List.length_append] at hlt
    omega

section
variable {q r x y : List A} {e : A}

/-- A word without `d` does not reach over `d`. -/
lemma prefix_append_cons_iff (hmem : d ∉ y) : y <+: x ++ d :: r ↔ y <+: x := by
  constructor
  · intro h
    rcases Nat.lt_or_ge x.length y.length with hlt | hle
    · obtain ⟨t, ht⟩ := h
      obtain ⟨m, rfl, -⟩ := append_cons_split ht.symm hlt
      exact absurd (List.mem_append_right x List.mem_cons_self) hmem
    · obtain ⟨t, ht⟩ := h
      obtain ⟨m, rfl, -⟩ := append_split ht hle
      exact List.prefix_append _ m
  · exact fun h => h.trans (List.prefix_append x _)

/-- A word whose first character comes only once in it does not reach over the rest of itself. -/
lemma prefix_append_word (he : e ∉ q) (hx : x ≠ []) (h : (e :: q).reverse <+: x ++ (q.reverse ++ y)) :
    (e :: q).reverse <+: x := by
  obtain ⟨t, ht⟩ := h
  rcases Nat.lt_or_ge q.length x.length with hlt | hle
  · obtain ⟨m, rfl, -⟩ := append_split ht (by rw [List.length_reverse]; exact hlt)
    exact List.prefix_append _ m
  · rw [List.reverse_cons, List.append_assoc] at ht
    obtain ⟨m, hm, ht'⟩ := append_split ht.symm (by simpa using hle)
    have hlength := congrArg List.length hm
    have hpos := List.length_pos_iff.mpr hx
    rw [List.length_append] at hlength
    obtain ⟨m', hm', -⟩ := append_cons_split ht'.symm (by omega)
    have hmem : e ∈ q.reverse := hm' ▸ List.mem_append_right m List.mem_cons_self
    exact absurd (List.mem_reverse.mp hmem) he

/-- Over its own first character and the rest of itself it stands only if it is put together there. -/
lemma prefix_append_cons_word (he : e ∉ q) (h : (e :: q).reverse <+: x ++ e :: y) :
    (e :: q).reverse <+: x ∨ x = q.reverse := by
  obtain ⟨t, ht⟩ := h
  rcases Nat.lt_or_ge q.length x.length with hlt | hle
  · obtain ⟨m, rfl, -⟩ := append_split ht (by rw [List.length_reverse]; exact hlt)
    exact .inl (List.prefix_append _ m)
  · rw [List.reverse_cons, List.append_assoc] at ht
    obtain ⟨m, hm, ht'⟩ := append_split ht.symm (by simpa using hle)
    cases m with
    | nil => exact .inr (by rw [hm, List.append_nil])
    | cons c m =>
      obtain rfl := (List.cons.inj ht').1
      have hmem : e ∈ q.reverse := hm ▸ List.mem_append_right x List.mem_cons_self
      exact absurd (List.mem_reverse.mp hmem) he

end

end UnifyPrototype.Utils.Text
