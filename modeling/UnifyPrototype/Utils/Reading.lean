import UnifyPrototype.Utils.Text

/-!
# Reading

A text is read from left to right, and a word is taken out of what has been read as soon as it stands at
the end of it, so that what is around it comes together. What has been read has its last character
first.
-/

namespace UnifyPrototype.Utils.Reading

open Text

variable {A : Type*} [DecidableEq A] {p q s out x y z a b r : List A} {c d e : A}

/-- What had been read before each word that is taken out, and what is left at the end. -/
def read (p : List A) : List A → List A → List (List A) × List A
  | out, [] => ([], out)
  | out, c :: rest =>
    if p.reverse <+: c :: out then
      let out := (c :: out).drop p.length
      (out :: (read p out rest).1, (read p out rest).2)
    else read p (c :: out) rest

lemma read_taken (h : c :: out = p.reverse ++ x) (z : List A) :
    read p out (c :: z) = (x :: (read p x z).1, (read p x z).2) := by
  have hdrop : (c :: out).drop p.length = x := by
    rw [h, ← List.length_reverse, List.drop_left]
  rw [read, if_pos ⟨x, h.symm⟩]
  simp only [hdrop]

omit [DecidableEq A] in
lemma cons_append_of_taken (h : p.reverse ++ x = c :: out) (y : List A) :
    c :: (out ++ y) = p.reverse ++ (x ++ y) := by
  rw [← List.append_assoc, h, List.cons_append]

lemma read_kept (h : ¬ p.reverse <+: c :: out) (z : List A) :
    read p out (c :: z) = read p (c :: out) z := by
  rw [read, if_neg h]

/-- Where the word does not stand nothing is taken out. -/
lemma read_append (h : ¬ p <:+: out.reverse ++ x) (z : List A) :
    read p out (x ++ z) = read p (x.reverse ++ out) z := by
  induction x generalizing out with
  | nil => rfl
  | cons c x ih =>
    rw [List.append_cons] at h
    have hkept : ¬ p.reverse <+: c :: out := by
      intro hbegins
      have hsuffix : p <:+ out.reverse ++ [c] := by simpa using List.reverse_suffix.mpr hbegins
      exact h (hsuffix.isInfix.trans (List.prefix_append _ x).isInfix)
    rw [List.cons_append, read_kept hkept, ih (by simpa using h)]
    simp

lemma read_start (h : ¬ p <:+: x) (z : List A) : read p [] (x ++ z) = read p x.reverse z := by
  have hread : read p [] (x ++ z) = read p (x.reverse ++ []) z := read_append h z
  rwa [List.append_nil] at hread

lemma read_of_not_infix (h : ¬ p <:+: s) : read p [] s = ([], s.reverse) := by
  have hread := read_start h []
  rwa [List.append_nil] at hread

/-- The first word that stands in the text is the first one that is taken out. -/
lemma read_first (hp : p ≠ [])
    (hfirst : ∀ a' b', a ++ p ++ b = a' ++ p ++ b' → a.length ≤ a'.length) :
    read p [] (a ++ p ++ b) =
      (a.reverse :: (read p a.reverse b).1, (read p a.reverse b).2) := by
  obtain ⟨w, c, rfl⟩ := (List.eq_nil_or_concat p).resolve_left hp
  rw [List.concat_eq_append] at hfirst ⊢
  -- without its last character it is not there yet
  have hnone : ¬ w ++ [c] <:+: a ++ w := by
    rintro ⟨a', b', h⟩
    have hle := hfirst a' (b' ++ c :: b) (by
      calc a ++ (w ++ [c]) ++ b = a ++ w ++ c :: b := by simp
        _ = a' ++ (w ++ [c]) ++ (b' ++ c :: b) := by rw [← h]; simp)
    have hlength := congrArg List.length h
    simp only [List.length_append, List.length_singleton] at hlength
    omega
  have hsplit : a ++ (w ++ [c]) ++ b = a ++ w ++ c :: b := by simp
  rw [hsplit, read_start hnone]
  exact read_taken (by simp) b

/-! ## A word that is put somewhere else -/

/-- What stands behind the word without its first character is not touched. -/
lemma read_behind (he : e ∉ q) (x y z : List A) :
    ∃ f, (read (e :: q) (x ++ (q.reverse ++ y)) z).2 = f ++ (q.reverse ++ y) := by
  induction z generalizing x with
  | nil => exact ⟨x, rfl⟩
  | cons c z ih =>
    by_cases htaken : (e :: q).reverse <+: c :: x
    · obtain ⟨x', hx'⟩ := htaken
      rw [read_taken (cons_append_of_taken hx' _)]
      exact ih x'
    · have hkept : ¬ (e :: q).reverse <+: c :: (x ++ (q.reverse ++ y)) := fun h =>
        htaken (prefix_append_word he (List.cons_ne_nil c x) h)
      rw [read_kept hkept]
      exact ih (c :: x)

/-- **A word that is put somewhere else.** Behind a `d`, the characters of the word in the other order
change what is read there in one of two ways. If the rest of the word does not come to stand behind
them, they are left there and all else is as before. If it does, the word is put together there and is
taken out once more, and what is left is as before. -/
theorem read_inserted (he : e ∉ q) (hd : d ∉ e :: q) (r : List A) {x : List A}
    (hx : ¬ q.reverse <:+ x) (z : List A) :
    (∃ (places : List (List A)) (f : List A), ¬ q.reverse <:+ f ∧
      read (e :: q) (x ++ d :: r) z = (places.map (· ++ d :: r), f ++ d :: r) ∧
      read (e :: q) (x ++ e :: (q.reverse ++ d :: r)) z =
        (places.map (· ++ e :: (q.reverse ++ d :: r)), f ++ e :: (q.reverse ++ d :: r))) ∨
    ∃ (places later : List (List A)) (f : List A),
      read (e :: q) (x ++ d :: r) z =
        (places.map (· ++ d :: r) ++ later, f ++ (q.reverse ++ d :: r)) ∧
      read (e :: q) (x ++ e :: (q.reverse ++ d :: r)) z =
        (places.map (· ++ e :: (q.reverse ++ d :: r)) ++ (q.reverse ++ d :: r) :: later,
          f ++ (q.reverse ++ d :: r)) := by
  have hd' : d ∉ (e :: q).reverse := fun hmem => hd (List.mem_reverse.mp hmem)
  induction z generalizing x with
  | nil => exact .inl ⟨[], x, hx, rfl, rfl⟩
  | cons c z ih =>
    by_cases htaken : (e :: q).reverse <+: c :: x
    · -- the word stands in what is the same
      obtain ⟨x', hx'⟩ := htaken
      have hkept : ¬ q.reverse <:+ x' := by
        intro hsuffix
        have hlonger : x' <:+ x := by
          have hsuffix' : x' <:+ c :: x := hx' ▸ List.suffix_append _ x'
          rcases List.suffix_cons_iff.mp hsuffix' with heq | hsuffix'
          · have hlength := congrArg List.length hx'
            rw [heq, List.length_append, List.length_reverse] at hlength
            simp at hlength
          · exact hsuffix'
        exact hx (hsuffix.trans hlonger)
      rw [read_taken (cons_append_of_taken hx' _), read_taken (cons_append_of_taken hx' _)]
      rcases ih hkept with ⟨places, f, hf, h, h'⟩ | ⟨places, later, f, h, h'⟩
      · exact .inl ⟨x' :: places, f, hf, by rw [h]; rfl, by rw [h']; rfl⟩
      · exact .inr ⟨x' :: places, later, f, by rw [h]; rfl, by rw [h']; rfl⟩
    · have hkept : ¬ (e :: q).reverse <+: c :: (x ++ d :: r) := fun h =>
        htaken ((prefix_append_cons_iff (x := c :: x) hd').mp h)
      rw [read_kept hkept]
      by_cases hword : c :: x = q.reverse
      · -- the word has been put together
        have hout : c :: (x ++ e :: (q.reverse ++ d :: r)) =
            (e :: q).reverse ++ (q.reverse ++ d :: r) := by
          rw [← List.cons_append, hword, List.reverse_cons, List.append_assoc]
          rfl
        obtain ⟨f, hf⟩ := read_behind he [] (d :: r) z
        rw [read_taken hout, ← List.cons_append, hword]
        exact .inr ⟨[], _, f, by rw [← hf]; rfl, by rw [← hf]; rfl⟩
      · have hkept' : ¬ (e :: q).reverse <+: c :: (x ++ e :: (q.reverse ++ d :: r)) := by
          intro h
          exact (prefix_append_cons_word he (x := c :: x) h).elim htaken hword
        rw [read_kept hkept']
        refine ih (x := c :: x) fun hsuffix => ?_
        rcases List.suffix_cons_iff.mp hsuffix with heq | hsuffix
        · exact hword heq.symm
        · exact hx hsuffix

end UnifyPrototype.Utils.Reading
