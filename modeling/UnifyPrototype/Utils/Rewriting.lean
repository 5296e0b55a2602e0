import UnifyPrototype.Utils.Text

/-!
# Replacing one text by another

A loop that replaces the first occurrence of `p` by `q` and goes on where the replacement begins. What
it makes of a text is what it makes of the parts of the text, if no occurrence reaches over the place
where the parts meet.
-/

namespace UnifyPrototype.Utils.Text

variable {A : Type*} {p q s t u a a' b b' x y : List A} {c : A}

/-! ## Where parts of a text meet -/

/-- No occurrence of `p` begins in `a` and ends in `b`. -/
def Apart (p a b : List A) : Prop :=
  ∀ z w, p = z ++ w → z ≠ [] → w ≠ [] → z <:+ a → ¬ w <+: b

/-- `b` begins with nothing that comes after the first character of `p`. -/
def Fresh (p b : List A) : Prop :=
  ∀ c ∈ b.head?, c ∉ p.tail

lemma Fresh.apart (h : Fresh p b) (a : List A) : Apart p a b := by
  rintro z w rfl hz hw - ⟨r, rfl⟩
  obtain ⟨d, z, rfl⟩ := List.exists_cons_of_ne_nil hz
  obtain ⟨c, w, rfl⟩ := List.exists_cons_of_ne_nil hw
  exact h c rfl (List.mem_append_right z List.mem_cons_self)

lemma fresh_nil (p : List A) : Fresh p [] := by
  intro c hc
  cases hc

lemma fresh_cons (hc : c ∉ p.tail) (b : List A) : Fresh p (c :: b) := by
  intro d hd
  obtain rfl := Option.some.inj hd
  exact hc

lemma Fresh.append (ha : Fresh p a) (hb : Fresh p b) : Fresh p (a ++ b) := by
  cases a with
  | nil => exact hb
  | cons c a => exact fresh_cons (ha c rfl) _

/-- Nothing of `p` ends `a`. -/
lemma apart_of_suffix (h : ∀ n < p.length, 0 < n → ¬ p.take n <:+ a) (b : List A) : Apart p a b := by
  rintro z w rfl hz hw hsuffix -
  have hlength : z.length < (z ++ w).length := by
    rw [List.length_append]
    have hpos := List.length_pos_iff.mpr hw
    omega
  have hnot := h z.length hlength (List.length_pos_iff.mpr hz)
  rw [List.take_left] at hnot
  exact hnot hsuffix

/-- What `p` begins with is not in `a`. -/
lemma apart_of_head (hc : c ∉ a) (p b : List A) : Apart (c :: p) a b := by
  intro z w hp hz _ hsuffix _
  obtain ⟨d, z, rfl⟩ := List.exists_cons_of_ne_nil hz
  obtain ⟨rfl, -⟩ := List.cons.inj hp
  exact hc (hsuffix.subset List.mem_cons_self)

/-- An occurrence is in one of the two parts. -/
lemma occurrence_cases (happ : Apart p a b) (h : a ++ b = x ++ p ++ y) :
    (∃ z, a = x ++ p ++ z ∧ y = z ++ b) ∨ ∃ z, x = a ++ z ∧ b = z ++ p ++ y := by
  rw [List.append_assoc] at h
  rcases List.append_eq_append_iff.mp h with ⟨z, rfl, hb⟩ | ⟨z, rfl, hp⟩
  · exact .inr ⟨z, rfl, by rw [hb, List.append_assoc]⟩
  · rcases List.append_eq_append_iff.mp hp with ⟨w, rfl, rfl⟩ | ⟨w, rfl, rfl⟩
    · exact .inl ⟨w, by rw [List.append_assoc], rfl⟩
    · by_cases hz : z = []
      · subst hz
        exact .inr ⟨[], by simp, by simp⟩
      · by_cases hw : w = []
        · subst hw
          exact .inl ⟨[], by simp, by simp⟩
        · exact absurd (List.prefix_append w y) (happ z w rfl hz hw (List.suffix_append x z))

lemma not_infix_append (happ : Apart p a b) (ha : ¬ p <:+: a) (hb : ¬ p <:+: b) : ¬ p <:+: a ++ b := by
  rintro ⟨x, y, h⟩
  rcases occurrence_cases happ h.symm with ⟨z, rfl, -⟩ | ⟨z, -, rfl⟩
  · exact ha ⟨x, z, rfl⟩
  · exact hb ⟨z, y, rfl⟩

/-! ## Replacements -/

/-- No occurrence of `p` in `x ++ p ++ y` is before the one behind `x`. -/
def First (p x y : List A) : Prop :=
  ∀ x' y', x ++ p ++ y = x' ++ p ++ y' → x.length ≤ x'.length

/-- The loop makes `t` of `s`. -/
inductive Rewrites (p q : List A) : List A → List A → Prop
  | leave {s : List A} : ¬ p <:+: s → Rewrites p q s s
  | again {x y t : List A} : First p x y → Rewrites p q (q ++ y) t → Rewrites p q (x ++ p ++ y) (x ++ t)

/-- There is one text that it makes. -/
lemma Rewrites.unique (h : Rewrites p q s t) (h' : Rewrites p q s u) : t = u := by
  induction h generalizing u with
  | leave hs =>
    cases h' with
    | leave => rfl
    | @again x y => exact absurd ⟨x, y, rfl⟩ hs
  | @again x y t hfirst _ ih =>
    generalize hs : x ++ p ++ y = s at h'
    cases h' with
    | leave hs' => exact absurd ⟨x, y, hs⟩ hs'
    | @again x' y' t' hfirst' ht' =>
      have hlength : x.length = x'.length := le_antisymm (hfirst x' y' hs) (hfirst' x y hs.symm)
      rw [List.append_assoc, List.append_assoc] at hs
      obtain ⟨rfl, hrest⟩ := List.append_inj hs hlength
      obtain rfl := List.append_cancel_left hrest
      rw [ih ht']

/-- A part without an occurrence stays. -/
lemma Rewrites.prepend (happ : Apart p a b) (ha : ¬ p <:+: a) (h : Rewrites p q b b') :
    Rewrites p q (a ++ b) (a ++ b') := by
  cases h with
  | leave hb => exact .leave (not_infix_append happ ha hb)
  | @again x y t hfirst ht =>
    rw [show a ++ (x ++ p ++ y) = a ++ x ++ p ++ y by simp, ← List.append_assoc a x t]
    apply Rewrites.again _ ht
    intro x' y' h
    have h' : a ++ (x ++ p ++ y) = x' ++ p ++ y' := by simpa using h
    rcases occurrence_cases happ h' with ⟨z, rfl, -⟩ | ⟨z, rfl, hz⟩
    · exact absurd ⟨x', z, rfl⟩ ha
    · have hle := hfirst z y' hz
      simp only [List.length_append]
      omega

lemma Rewrites.cons (hc : c ∉ p) (hp : p ≠ []) (h : Rewrites p q b b') :
    Rewrites p q (c :: b) (c :: b') := by
  obtain ⟨d, p, rfl⟩ := List.exists_cons_of_ne_nil hp
  have hd : d ∉ [c] := by
    intro hmem
    obtain rfl := List.mem_singleton.mp hmem
    exact hc List.mem_cons_self
  exact h.prepend (a := [c]) (apart_of_head hd p b) fun hin => hd (hin.subset List.mem_cons_self)

/-- The parts one after the other. -/
theorem Rewrites.append (h : Rewrites p q a a') (hb : Rewrites p q b b') (hfresh : Fresh p b) :
    Rewrites p q (a ++ b) (a' ++ b') := by
  induction h with
  | leave ha => exact hb.prepend (hfresh.apart _) ha
  | @again x y t hfirst _ ih =>
    rw [List.append_assoc q y b] at ih
    rw [List.append_assoc (x ++ p) y b, List.append_assoc x t b']
    refine .again (fun x' y' h => ?_) ih
    have h' : (x ++ p ++ y) ++ b = x' ++ p ++ y' := by simpa using h
    rcases occurrence_cases (hfresh.apart _) h' with ⟨z, hz, -⟩ | ⟨z, rfl, -⟩
    · exact hfirst x' z hz
    · simp only [List.length_append]
      omega

/-- What the replacement has in common with `p` at its beginning does not change. -/
lemma Rewrites.take_eq (hq : q <+: p) (h : Rewrites p q s t) {n : ℕ} (hn : n ≤ q.length) :
    t.take n = s.take n := by
  induction h with
  | leave => rfl
  | @again x y t _ _ ih =>
    obtain ⟨r, rfl⟩ := hq
    have hle : n - x.length ≤ q.length := by omega
    have hq : ((q ++ y).take n).take (n - x.length) = q.take (n - x.length) := by
      rw [List.take_take, Nat.min_eq_left (Nat.sub_le n x.length), List.take_append_of_le_length hle]
    have ht : t.take (n - x.length) = q.take (n - x.length) := by
      rw [← hq, ← ih, List.take_take, Nat.min_eq_left (Nat.sub_le n x.length)]
    rw [List.append_assoc, List.take_append, List.take_append, ht, List.append_assoc,
      List.take_append_of_le_length hle]

lemma Rewrites.forall_mem {P : A → Prop} (hq : ∀ c ∈ q, P c) (h : Rewrites p q s t) (hs : ∀ c ∈ s, P c) :
    ∀ c ∈ t, P c := by
  induction h with
  | leave => exact hs
  | @again x y t _ _ ih =>
    simp only [List.mem_append, or_imp, forall_and] at hs ih ⊢
    exact ⟨hs.1.1, ih ⟨hq, hs.2⟩⟩

/-- The first character is that of the text, or that of a replacement. -/
lemma Rewrites.exists_cons {P : A → Prop} (hq : ∃ c r, q = c :: r ∧ P c) (h : Rewrites p q s t)
    (hs : ∃ c r, s = c :: r ∧ P c) : ∃ c r, t = c :: r ∧ P c := by
  induction h with
  | leave => exact hs
  | @again x y t _ _ ih =>
    cases x with
    | nil =>
      obtain ⟨c, r, rfl, hc⟩ := hq
      exact ih ⟨c, r ++ y, rfl, hc⟩
    | cons d x =>
      obtain ⟨c, r, hs, hc⟩ := hs
      obtain rfl := (List.cons.inj hs).1
      exact ⟨d, x ++ t, rfl, hc⟩

/-- A replacement that begins with none of its characters does not make the word begin the text. -/
lemma Rewrites.prefix_of_prefix {w : List A} (hq : ∃ c r, q = c :: r ∧ c ∉ w) (h : Rewrites p q s t)
    (ht : w <+: t) : w <+: s := by
  cases h with
  | leave => exact ht
  | @again x y t _ hrest =>
    obtain ⟨d, r, rfl, hd⟩ : ∃ c r, t = c :: r ∧ c ∉ w := by
      apply hrest.exists_cons hq
      obtain ⟨c, r, rfl, hc⟩ := hq
      exact ⟨c, r ++ y, rfl, hc⟩
    have hx : w <+: x := (prefix_append_cons_iff hd).mp ht
    rw [List.append_assoc]
    exact hx.trans (List.prefix_append x _)

/-- A replacement that leaves the beginning of `p` does not bring a word back. -/
lemma Rewrites.not_infix {w : List A} (hq : q <+: p) (hlength : w.length ≤ q.length + 1)
    (hw : ∀ n < w.length, 0 < n → ¬ w.take n <:+ q) (h : Rewrites p q s t) (hs : ¬ w <:+: s) :
    ¬ w <:+: t := by
  induction h with
  | leave => exact hs
  | @again x y t _ hrest ih =>
    have hbefore : x ++ p <:+: x ++ p ++ y := (List.prefix_append _ y).isInfix
    apply not_infix_append
    · -- over the place where it begins, the word would be in `x ++ p`
      rintro z v rfl hz - ⟨x', rfl⟩ hv
      have htake := hrest.take_eq hq (le_refl q.length)
      rw [List.take_left] at htake
      have hle : v.length ≤ q.length := by
        have hpos := List.length_pos_iff.mpr hz
        rw [List.length_append] at hlength
        omega
      have hvq : v <+: q := by
        rw [← htake]
        exact List.prefix_take_iff.mpr ⟨hv, hle⟩
      obtain ⟨r, rfl⟩ := hvq.trans hq
      apply hs
      exact List.IsInfix.trans ⟨x', r, by simp⟩ hbefore
    · exact fun hx => hs ((hx.trans (List.prefix_append x p).isInfix).trans hbefore)
    · apply ih
      apply not_infix_append (apart_of_suffix hw y)
      · intro hin
        have hmiddle : p <:+: x ++ p ++ y := ⟨x, y, rfl⟩
        exact hs ((hin.trans hq.isInfix).trans hmiddle)
      · exact fun hy => hs (hy.trans (List.suffix_append _ y).isInfix)

end UnifyPrototype.Utils.Text
