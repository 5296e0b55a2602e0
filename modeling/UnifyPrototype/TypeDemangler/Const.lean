import UnifyPrototype.TypeDemangler.Remove
import UnifyPrototype.Utils.Reading

/-!
# `constBeforeIdentifier`

What a round does not change is what one finds when one reads the name and takes each ` const` out: what
is left then, and to which `<` or `,` each of them belongs. A round puts one of them behind its `<` or
`,`. If there is a `const` already, the two make a ` const` again.
-/

namespace UnifyPrototype.TypeDemangler

open UnifyPrototype.Utils UnifyPrototype.Cms Text Reading

variable {s s' t a b x y z out upTo : StdString} {c : Char} {depth k : ℕ}

/-! ## Where a qualifier belongs -/

/-- The characters behind which a qualifier may go. -/
def isDelimiter (c : Char) : Bool :=
  c = '<' ∨ c = ','

/-- What the inner loop does on the characters before the qualifier, the last one first: those that are
left when it stops at a delimiter. It does not look at the first character of the name. -/
def scan : StdString → ℕ → Option StdString
  | [], _ => none
  | c :: out, depth =>
    if out = [] then none
    else if c = '>' then scan out (depth + 1)
    else if depth > 0 then
      if c = '<' then scan out (depth - 1)
      else scan out depth
    else if c = '<' ∨ c = ',' then some (c :: out)
    else scan out depth

/-- The inner loop reads the text before it backwards. -/
lemma enclosing_eq (out b : StdString) (depth : ℕ) :
    enclosing (out.reverse ++ b) (out.length - 1) depth =
      (scan out depth).map fun upTo => upTo.length - 1 := by
  induction out generalizing b depth with
  | nil => rfl
  | cons c out ih =>
    cases out with
    | nil => rfl
    | cons c' out =>
      -- the position of the loop is that of the last character before the qualifier
      have hget : ((c :: c' :: out).reverse ++ b)[out.length + 1]? = some c := by
        rw [List.reverse_cons, List.append_assoc, List.getElem?_append_right (by simp)]
        simp
      have hrest : ∀ depth, enclosing ((c :: c' :: out).reverse ++ b) out.length depth =
          (scan (c' :: out) depth).map fun upTo => upTo.length - 1 := by
        intro depth
        rw [← ih (c :: b), List.reverse_cons, List.append_assoc]
        rfl
      rw [show (c :: c' :: out).length - 1 = out.length + 1 from rfl, enclosing, scan]
      simp only [hget, Option.some.injEq, hrest, if_neg (List.cons_ne_nil c' out)]
      split_ifs <;> rfl

lemma scan_eq_some (h : scan out depth = some upTo) :
    ∃ x c y, out = x ++ c :: y ∧ upTo = c :: y ∧ isDelimiter c ∧ y ≠ [] := by
  induction out generalizing depth with
  | nil => cases h
  | cons c out ih =>
    simp only [scan] at h
    split_ifs at h with hnil _ _ _ hdelimiter
    · obtain ⟨x, d, y, rfl, hupTo, hd, hy⟩ := ih h
      exact ⟨c :: x, d, y, rfl, hupTo, hd, hy⟩
    · obtain ⟨x, d, y, rfl, hupTo, hd, hy⟩ := ih h
      exact ⟨c :: x, d, y, rfl, hupTo, hd, hy⟩
    · obtain ⟨x, d, y, rfl, hupTo, hd, hy⟩ := ih h
      exact ⟨c :: x, d, y, rfl, hupTo, hd, hy⟩
    · exact ⟨[], c, out, rfl, (Option.some.inj h).symm, by simpa [isDelimiter] using hdelimiter, hnil⟩
    · obtain ⟨x, d, y, rfl, hupTo, hd, hy⟩ := ih h
      exact ⟨c :: x, d, y, rfl, hupTo, hd, hy⟩

/-- Where a qualifier goes: at the beginning of the name the loop has no first position, outside all
template arguments the qualifier goes nowhere, else it goes behind a delimiter. -/
inductive Home
  | undefined
  | nowhere
  /-- Behind the `k`-th delimiter. -/
  | behind (k : ℕ)
  deriving DecidableEq

/-- Where a qualifier goes, by the characters before it. -/
def home (out : StdString) : Home :=
  if out = [] then .undefined
  else
    match scan out 0 with
    | some upTo => .behind (upTo.countP isDelimiter)
    | none => .nowhere

/-- Where the qualifiers of a name go. -/
def homes (s : StdString) : List Home :=
  (read toBeMoved [] s).1.map home

/-- The name without them. -/
def remainder (s : StdString) : StdString :=
  (read toBeMoved [] s).2.reverse

def word : StdString :=
  "const".toList

lemma toBeMoved_eq : toBeMoved = ' ' :: word :=
  rfl

/-- Characters other than brackets and commas do not count. -/
def Plain (s : StdString) : Prop :=
  ∀ c ∈ s, c ≠ '<' ∧ c ≠ '>' ∧ c ≠ ','

instance (s : StdString) : Decidable (Plain s) :=
  List.decidableBAll _ s

lemma Plain.not_delimiter (hs : Plain s) (hc : c ∈ s) : isDelimiter c = false := by
  obtain ⟨hopening, -, hcomma⟩ := hs c hc
  simp [isDelimiter, hopening, hcomma]

lemma Plain.tail (hs : Plain (c :: s)) : Plain s := fun d hd =>
  hs d (List.mem_cons_of_mem c hd)

lemma scan_append (hs : Plain s) (ht : t ≠ []) (depth : ℕ) : scan (s ++ t) depth = scan t depth := by
  induction s with
  | nil => rfl
  | cons c s ih =>
    obtain ⟨hopening, hclosing, hcomma⟩ := hs c List.mem_cons_self
    have hne : s ++ t ≠ [] := by simp [ht]
    rw [List.cons_append, scan, if_neg hne, if_neg hclosing, if_neg hopening,
      if_neg (not_or.mpr ⟨hopening, hcomma⟩), ite_self]
    exact ih hs.tail

lemma countP_append_plain (hs : Plain s) (x t : StdString) :
    (x ++ (s ++ t)).countP isDelimiter = (x ++ t).countP isDelimiter := by
  have hzero : s.countP isDelimiter = 0 := by
    rw [List.countP_eq_zero]
    intro c hc
    simp [hs.not_delimiter hc]
  simp only [List.countP_append, hzero, Nat.zero_add]

/-- A plain text that is inserted does not change where the qualifier goes. -/
lemma scan_insert (hs : Plain s) (ht : t ≠ []) (x : StdString) (depth : ℕ) :
    (scan (x ++ (s ++ t)) depth).map (List.countP isDelimiter) =
      (scan (x ++ t) depth).map (List.countP isDelimiter) := by
  induction x generalizing depth with
  | nil => rw [List.nil_append, List.nil_append, scan_append hs ht]
  | cons c x ih =>
    have hne : x ++ t ≠ [] := by simp [ht]
    have hne' : x ++ (s ++ t) ≠ [] := by simp [ht]
    simp only [List.cons_append, scan, if_neg hne, if_neg hne']
    split_ifs
    · exact ih _
    · exact ih _
    · exact ih _
    · simp only [Option.map_some, ← List.cons_append, countP_append_plain hs]
    · exact ih _

lemma home_eq (ht : out ≠ []) : home out =
    (((scan out 0).map (List.countP isDelimiter)).map Home.behind).getD .nowhere := by
  rw [home, if_neg ht]
  cases scan out 0 <;> rfl

/-- A qualifier that goes behind a delimiter changes nothing for the others. -/
lemma home_insert (hs : Plain s) (ht : t ≠ []) (x : StdString) : home (x ++ (s ++ t)) = home (x ++ t) := by
  rw [home_eq (by simp [ht]), home_eq (by simp [ht]), scan_insert hs ht]

lemma home_of_scan (h : scan out 0 = some (c :: y)) (hc : isDelimiter c) :
    home out = .behind (y.reverse.countP isDelimiter + 1) := by
  have hne : out ≠ [] := by
    rintro rfl
    cases h
  rw [home, if_neg hne, h, List.countP_reverse]
  simp [hc]

lemma scan_delimiter (hc : isDelimiter c) (hy : y ≠ []) : scan (c :: y) 0 = some (c :: y) := by
  have hclosing : c ≠ '>' := by
    rintro rfl
    cases hc
  have hdelimiter : c = '<' ∨ c = ',' := by simpa [isDelimiter] using hc
  rw [scan, if_neg hy, if_neg hclosing, if_neg (lt_irrefl 0), if_pos hdelimiter]

lemma not_mem_toBeMoved (hc : isDelimiter c) : c ∉ toBeMoved := by
  intro hmem
  have hnot : ∀ d ∈ toBeMoved, isDelimiter d = false := forall_mem_of_all (by decide)
  rw [hnot c hmem] at hc
  cases hc

/-! ## Rounds -/

/-- What a round does: there is no qualifier left, or it takes the first one and puts it behind the
delimiter that the inner loop finds, if it finds one. -/
lemma constRound_cases (s : StdString) :
    (constRound s = .leave ∧ ¬ toBeMoved <:+: s) ∨
      ∃ a b, s = a ++ toBeMoved ++ b ∧
        (∀ a' b', a ++ toBeMoved ++ b = a' ++ toBeMoved ++ b' → a.length ≤ a'.length) ∧
        ((a = [] ∧ constRound s = .undefined) ∨
          (a ≠ [] ∧ scan a.reverse 0 = none ∧ constRound s = .again (a ++ b)) ∨
          ∃ upTo x, a ≠ [] ∧ scan a.reverse 0 = some upTo ∧ a = upTo.reverse ++ x ∧
            constRound s = .again (upTo.reverse ++ "const ".toList ++ (x ++ b))) := by
  unfold constRound
  cases hfind : find s toBeMoved 0 with
  | none => exact .inl ⟨rfl, find_zero_eq_none_iff.mp hfind⟩
  | some index =>
    obtain ⟨a, b, rfl, rfl, -, hfirst⟩ := find_eq_some hfind
    refine .inr ⟨a, b, rfl, fun a' b' h => hfirst a' b' h (Nat.zero_le _), ?_⟩
    simp only [erase_append]
    -- without the qualifier, the loop looks for the delimiter from the place where it was
    have henclosing := enclosing_eq a.reverse b 0
    rw [List.reverse_reverse, List.length_reverse] at henclosing
    by_cases ha : a = []
    · exact .inl ⟨ha, by rw [if_pos (List.length_eq_zero_iff.mpr ha)]⟩
    rw [if_neg (mt List.length_eq_zero_iff.mp ha), henclosing]
    cases hscan : scan a.reverse 0 with
    | none => exact .inr (.inl ⟨ha, rfl, rfl⟩)
    | some upTo =>
      obtain ⟨x, c, y, hout, rfl, -, -⟩ := scan_eq_some hscan
      have ha' : a = (c :: y).reverse ++ x.reverse := by
        rw [← List.reverse_append, ← hout, List.reverse_reverse]
      refine .inr (.inr ⟨c :: y, x.reverse, ha, rfl, ha', ?_⟩)
      have hinsert := insert_append (c :: y).reverse (x.reverse ++ b) "const ".toList
      rw [← List.append_assoc, ← ha', List.length_reverse] at hinsert
      simpa using hinsert

/-- How a round changes what does not depend on the order of the qualifiers. -/
inductive Moves (s s' : StdString) : Prop
  /-- The qualifier has nowhere to go. -/
  | dropped : homes s = .nowhere :: homes s' → remainder s' = remainder s → Moves s s'
  /-- It goes behind a delimiter that has none. -/
  | moved (u : StdString) (c : Char) (v : StdString) : isDelimiter c →
      (homes s).Perm (.behind (u.countP isDelimiter + 1) :: homes s') → remainder s = u ++ c :: v →
      remainder s' = u ++ c :: (word ++ ' ' :: v) → ¬ word <+: v → Moves s s'
  /-- It goes behind a delimiter that has a `const`, which is then a qualifier in its place. -/
  | kept (u : StdString) (c : Char) (v : StdString) : isDelimiter c →
      .behind (u.countP isDelimiter + 1) ∈ homes s → (homes s).Perm (homes s') →
      remainder s = u ++ c :: v → word <+: v → remainder s' = remainder s → Moves s s'

lemma homes_first (hfirst : ∀ a' b', a ++ toBeMoved ++ b = a' ++ toBeMoved ++ b' → a.length ≤ a'.length) :
    homes (a ++ toBeMoved ++ b) = home a.reverse :: (read toBeMoved a.reverse b).1.map home ∧
      remainder (a ++ toBeMoved ++ b) = (read toBeMoved a.reverse b).2.reverse := by
  have hread := read_first (by decide) hfirst
  simp only [homes, remainder, hread, List.map_cons, and_self]

/-- Before the first qualifier there is none. -/
lemma not_infix_of_first
    (hfirst : ∀ a' b', a ++ toBeMoved ++ b = a' ++ toBeMoved ++ b' → a.length ≤ a'.length) :
    ¬ toBeMoved <:+: a := by
  rintro ⟨a', b', rfl⟩
  have hle := hfirst a' (b' ++ toBeMoved ++ b) (by simp only [List.append_assoc])
  have hpos : 0 < toBeMoved.length := by decide
  simp only [List.length_append] at hle
  omega

/-- Without the qualifier in front of it, the name is read as before. -/
lemma read_behind (hnone : ¬ toBeMoved <:+: (c :: y).reverse ++ x) (b : StdString) :
    read toBeMoved ((c :: y).reverse ++ x).reverse b = read toBeMoved (c :: y) (x ++ b) := by
  rw [read_append hnone, List.reverse_append, List.reverse_reverse]

/-- The qualifier behind the delimiter is read before what comes behind it. -/
lemma read_moved (hc : isDelimiter c) (hnone : ¬ toBeMoved <:+: (c :: y).reverse ++ x) (b : StdString) :
    read toBeMoved [] ((c :: y).reverse ++ "const ".toList ++ (x ++ b)) =
      read toBeMoved (' ' :: (word.reverse ++ c :: y)) (x ++ b) := by
  have hnone' : ¬ toBeMoved <:+: y.reverse ++ c :: "const ".toList := by
    rw [infix_append_cons (by decide) (not_mem_toBeMoved hc), not_or]
    refine ⟨fun hinfix => hnone ?_, by decide⟩
    rw [List.reverse_cons, List.append_assoc]
    exact hinfix.trans (List.prefix_append _ _).isInfix
  have hread := read_start hnone' (x ++ b)
  simpa [word] using hread

/-- The qualifier behind the delimiter changes nothing for those that come later. -/
lemma home_moved (c : Char) (y : StdString) (places : List StdString) :
    (places.map (· ++ ' ' :: (word.reverse ++ c :: y))).map home =
      (places.map (· ++ c :: y)).map home := by
  have hplain : Plain (' ' :: word.reverse) := by decide
  rw [List.map_map, List.map_map]
  exact List.map_congr_left fun p _ => home_insert hplain (List.cons_ne_nil c y) p

/-- The qualifier goes behind the delimiter `c`. -/
lemma moves_of_insert (hc : isDelimiter c) (hy : y ≠ []) (ha : a = (c :: y).reverse ++ x)
    (hfirst : ∀ a' b', a ++ toBeMoved ++ b = a' ++ toBeMoved ++ b' → a.length ≤ a'.length)
    (hscan : scan a.reverse 0 = some (c :: y)) :
    Moves (a ++ toBeMoved ++ b) ((c :: y).reverse ++ "const ".toList ++ (x ++ b)) := by
  subst ha
  obtain ⟨hhomes, hremainder⟩ := homes_first hfirst
  have hnone := not_infix_of_first hfirst
  have hbefore := read_behind hnone b
  have hafter := read_moved hc hnone b
  rw [home_of_scan hscan hc, hbefore] at hhomes
  rw [hbefore] at hremainder
  -- what comes behind the delimiter is either no `const`, or a qualifier in its place
  rcases read_inserted (show ' ' ∉ word by decide) (not_mem_toBeMoved hc) y
      (show ¬ word.reverse <:+ [] by decide) (x ++ b) with
    ⟨places, f, hf, h, h'⟩ | ⟨places, later, f, h, h'⟩
  · rw [List.nil_append] at h h'
    refine .moved y.reverse c f.reverse hc (.of_eq ?_) ?_ ?_ ?_
    · rw [hhomes, homes, hafter, toBeMoved_eq, h, h', home_moved]
    · rw [hremainder, toBeMoved_eq, h]
      simp
    · rw [remainder, hafter, toBeMoved_eq, h']
      simp
    · rwa [← List.reverse_suffix, List.reverse_reverse]
  · rw [List.nil_append] at h h'
    refine .kept y.reverse c (word ++ f.reverse) hc ?_ ?_ ?_ (List.prefix_append _ _) ?_
    · rw [hhomes]
      exact List.mem_cons_self
    · have hword := home_insert (s := word.reverse) (by decide) (List.cons_ne_nil c y) []
      rw [List.nil_append, List.nil_append, home_of_scan (scan_delimiter hc hy) hc] at hword
      rw [hhomes, homes, hafter, toBeMoved_eq, h, h', List.map_append, List.map_append, home_moved,
        List.map_cons, hword]
      exact List.perm_middle.symm
    · rw [hremainder, toBeMoved_eq, h]
      simp
    · rw [hremainder, remainder, hafter, toBeMoved_eq, h, h']

/-- A round moves the first qualifier. -/
theorem constRound_moves (h : constRound s = .again s') : Moves s s' := by
  rcases constRound_cases s with ⟨hleave, -⟩ | ⟨a, b, rfl, hfirst, hround⟩
  · cases h.symm.trans hleave
  obtain ⟨hhomes, hremainder⟩ := homes_first hfirst
  have hnone := not_infix_of_first hfirst
  rcases hround with ⟨-, hundefined⟩ | ⟨ha, hscan, hagain⟩ | ⟨upTo, x, ha, hscan, hsplit, hagain⟩
  · cases h.symm.trans hundefined
  · obtain rfl := Round.again.inj (h.symm.trans hagain)
    have hread := read_start hnone b
    have hhome : home a.reverse = .nowhere := by
      rw [home, if_neg (by simpa using ha), hscan]
    refine .dropped ?_ ?_
    · rw [hhomes, hhome, homes, hread]
    · rw [hremainder, remainder, hread]
  · obtain rfl := Round.again.inj (h.symm.trans hagain)
    obtain ⟨x', c, y, -, rfl, hc, hy⟩ := scan_eq_some hscan
    exact moves_of_insert hc hy hsplit hfirst hscan

/-! ## How many come behind a delimiter -/

/-- The text behind the `k`-th delimiter. -/
def after : ℕ → StdString → StdString
  | 0, s => s
  | _ + 1, [] => []
  | k + 1, c :: s => if isDelimiter c then after k s else after (k + 1) s

/-- How many times `const` comes behind the `k`-th delimiter: the qualifiers that go there, and a
`const` that is there. -/
def load (k : ℕ) (s : StdString) : ℕ :=
  (homes s).count (.behind k) + if word <+: after k (remainder s) then 1 else 0

/-- All qualifiers can be moved: none is at the beginning of the name, and no two come behind the same
delimiter. -/
structure Movable (s : StdString) : Prop where
  defined : .undefined ∉ homes s
  once : ∀ k, load k s ≤ 1

lemma after_eq (hc : isDelimiter c) (x y : StdString) :
    after (x.countP isDelimiter + 1) (x ++ c :: y) = y := by
  induction x with
  | nil => simp [after, hc]
  | cons d x ih =>
    by_cases hd : isDelimiter d
    · simpa [after, hd] using ih
    · simpa [after, hd] using ih

lemma after_append_plain (hs : Plain s) (k : ℕ) (t : StdString) :
    after (k + 1) (s ++ t) = after (k + 1) t := by
  induction s with
  | nil => rfl
  | cons c s ih =>
    rw [List.cons_append, after, hs.not_delimiter List.mem_cons_self]
    exact ih hs.tail

/-- What is put behind a delimiter does not matter behind another one. -/
lemma prefix_after_insert (hc : isDelimiter c) (hs : Plain s) (x y : StdString)
    (hk : k ≠ x.countP isDelimiter + 1) :
    word <+: after k (x ++ c :: (s ++ y)) ↔ word <+: after k (x ++ c :: y) := by
  have hmem : c ∉ word := fun hmem => not_mem_toBeMoved hc (List.mem_cons_of_mem _ hmem)
  -- at the beginning of the name: the word does not reach over the delimiter
  have hbefore : ∀ x t, word <+: after 0 (x ++ c :: t) ↔ word <+: x := by
    intro x t
    rw [after]
    exact prefix_append_cons_iff hmem
  induction x generalizing k with
  | nil =>
    rcases k with _ | _ | k
    · rw [hbefore, hbefore]
    · exact absurd rfl hk
    · simp only [List.nil_append, after, hc, if_true, after_append_plain hs]
  | cons d x ih =>
    cases k with
    | zero => rw [hbefore, hbefore]
    | succ k =>
      by_cases hd : isDelimiter d
      · simp only [List.cons_append, after, hd, if_true]
        apply ih
        rintro rfl
        simp [hd] at hk
      · simp only [List.cons_append, after, hd]
        apply ih
        simpa [hd] using hk

/-- A move leaves the load of every place as it is. -/
lemma Moves.load_eq (h : Moves s s') (k : ℕ) : load k s' = load k s := by
  unfold load
  cases h with
  | dropped hhomes hremainder => simp [hhomes, hremainder]
  | moved u c v hc hhomes hremainder hremainder' hv =>
    rw [hhomes.count_eq, List.count_cons, hremainder, hremainder']
    have hplain : Plain (word ++ [' ']) := by decide
    -- behind its delimiter the qualifier counts as a `const` now, elsewhere nothing changes
    by_cases hk : k = u.countP isDelimiter + 1
    · subst hk
      rw [after_eq hc, after_eq hc, if_pos (List.prefix_append _ _), if_neg hv]
      simp
    · have hother := prefix_after_insert hc hplain u v hk
      rw [List.append_assoc, List.singleton_append] at hother
      have hne : ¬ Home.behind (u.countP isDelimiter + 1) = .behind k := fun h =>
        hk (Home.behind.inj h).symm
      simp only [hother, beq_iff_eq, hne, if_false, Nat.add_zero]
  | kept u c v hc _ hhomes hremainder hv hremainder' => rw [hhomes.count_eq, hremainder']

lemma Moves.undefined_iff (h : Moves s s') : .undefined ∈ homes s' ↔ .undefined ∈ homes s := by
  cases h with
  | dropped hhomes _ => simp [hhomes]
  | moved u c v _ hhomes _ _ _ => simp [hhomes.mem_iff]
  | kept u c v _ _ hhomes _ _ _ => exact hhomes.mem_iff.symm

/-- A move leaves the other qualifiers movable or not. -/
lemma Moves.movable_iff (h : Moves s s') : Movable s' ↔ Movable s := by
  constructor
  · rintro ⟨hdefined, honce⟩
    exact ⟨mt h.undefined_iff.mpr hdefined, fun k => (h.load_eq k).symm.trans_le (honce k)⟩
  · rintro ⟨hdefined, honce⟩
    exact ⟨mt h.undefined_iff.mp hdefined, fun k => (h.load_eq k).trans_le (honce k)⟩

/-! ## Termination -/

lemma not_infix_of_leave (h : constRound s = .leave) : ¬ toBeMoved <:+: s := by
  rcases constRound_cases s with ⟨-, hnot⟩ | ⟨a, b, -, -, ⟨-, h'⟩ | ⟨-, -, h'⟩ | ⟨_, _, -, -, -, h'⟩⟩
  · exact hnot
  · cases h.symm.trans h'
  · cases h.symm.trans h'
  · cases h.symm.trans h'

/-- When the loop is left no qualifier is left to be moved. -/
lemma homes_of_leave (h : constRound s = .leave) : homes s = [] ∧ remainder s = s := by
  have hread := read_of_not_infix (not_infix_of_leave h)
  simp only [homes, remainder, hread, List.map_nil, List.reverse_reverse, and_self]

/-- If all can be moved, a round leaves one less to be moved. -/
lemma Movable.round (hs : Movable s) : constRound s = .leave ∨
    ∃ s', constRound s = .again s' ∧ (homes s').length < (homes s).length ∧ Movable s' := by
  have hstep : ∀ s', constRound s = .again s' →
      (homes s').length < (homes s).length ∧ Movable s' := by
    intro s' hagain
    have hmoves := constRound_moves hagain
    refine ⟨?_, hmoves.movable_iff.mpr hs⟩
    cases hmoves with
    | dropped hhomes _ => simp [hhomes]
    | moved u c v _ hhomes _ _ _ => simp [hhomes.length_eq]
    | kept u c v hc hmem _ hremainder hv _ =>
      -- the qualifier that goes behind the delimiter and the `const` that is there are two
      have honce := hs.once (u.countP isDelimiter + 1)
      have hpos := List.count_pos_iff.mpr hmem
      rw [load, hremainder, after_eq hc, if_pos hv] at honce
      omega
  rcases constRound_cases s with
    ⟨hleave, -⟩ | ⟨a, b, hab, hfirst, ⟨rfl, -⟩ | ⟨-, -, hagain⟩ | ⟨_, _, -, -, -, hagain⟩⟩
  · exact .inl hleave
  · have hhomes := (homes_first hfirst).1
    rw [← hab] at hhomes
    exact absurd (hhomes ▸ List.mem_cons_self) hs.defined
  · exact .inr ⟨_, hagain, hstep _ hagain⟩
  · exact .inr ⟨_, hagain, hstep _ hagain⟩

/-- If the loop ends, every qualifier could be moved. -/
lemma Movable.of_ends (h : Ends constRound s t) : Movable s := by
  induction h with
  | leave hleave =>
    obtain ⟨hhomes, -⟩ := homes_of_leave hleave
    refine ⟨by simp [hhomes], fun k => ?_⟩
    rw [load, hhomes, List.count_nil, Nat.zero_add]
    split <;> omega
  | again hagain _ ih => exact (constRound_moves hagain).movable_iff.mp ih

/-- If every qualifier can be moved, the loop ends. -/
lemma Movable.exists_ends (hs : Movable s) : ∃ t, Ends constRound s t :=
  Utils.exists_ends (fun s => (homes s).length) hs fun _ hs => hs.round

/-- `constBeforeIdentifier` ends if and only if all qualifiers can be moved. -/
theorem exists_constBeforeIdentifier_iff (s : StdString) :
    (∃ fuel t, constBeforeIdentifier fuel s = some t ∧ ¬ toBeMoved <:+: t) ↔ Movable s := by
  constructor
  · rintro ⟨fuel, t, ht, -⟩
    exact .of_ends (.of_loop ht)
  · intro hs
    obtain ⟨t, hends⟩ := hs.exists_ends
    obtain ⟨fuel, hfuel⟩ := hends.exists_loop
    exact ⟨fuel, t, hfuel, not_infix_of_leave hends.left⟩

/-! ## What is moved -/

/-- How many template arguments begin with `const `. -/
def leading : StdString → ℕ
  | [] => 0
  | c :: s => (if isDelimiter c ∧ "const ".toList <+: s then 1 else 0) + leading s

/-- The name without `const ` at the beginning of the template arguments. -/
def bare : StdString → StdString
  | [] => []
  | c :: s => if isDelimiter c ∧ "const ".toList <+: s then c :: (bare s).drop 6 else c :: bare s

/-- How many const qualifiers there are, behind and before identifiers. -/
def qualifiers (s : StdString) : ℕ :=
  (homes s).length + leading (remainder s)

/-- The name without its const qualifiers. -/
def unqualified (s : StdString) : StdString :=
  bare (remainder s)

lemma leading_append_plain (hs : Plain s) (t : StdString) : leading (s ++ t) = leading t := by
  induction s with
  | nil => rfl
  | cons c s ih =>
    have hc : ¬ isDelimiter c := by simp [hs.not_delimiter List.mem_cons_self]
    rw [List.cons_append, leading, if_neg fun h => hc h.1, Nat.zero_add]
    exact ih hs.tail

lemma bare_append_plain (hs : Plain s) (t : StdString) : bare (s ++ t) = s ++ bare t := by
  induction s with
  | nil => rfl
  | cons c s ih =>
    have hc : ¬ isDelimiter c := by simp [hs.not_delimiter List.mem_cons_self]
    rw [List.cons_append, bare, if_neg fun h => hc h.1]
    exact congrArg _ (ih hs.tail)

/-- What is put behind a delimiter does not matter before it. -/
lemma prefix_const_append (hc : isDelimiter c) (x y : StdString) :
    "const ".toList <+: x ++ c :: y ↔ "const ".toList <+: x := by
  have hsame : ∀ d ∈ "const ".toList, d ∈ toBeMoved := forall_mem_of_all (by decide)
  exact prefix_append_cons_iff fun hmem => not_mem_toBeMoved hc (hsame c hmem)

lemma not_prefix_const (hy : ¬ word <+: y) : ¬ "const ".toList <+: y := fun h =>
  hy ((List.prefix_append word [' ']).trans h)

/-- A qualifier that is put behind a bracket leads there. -/
lemma leading_insert (hc : isDelimiter c) (hy : ¬ word <+: y) (x : StdString) :
    leading (x ++ c :: ("const ".toList ++ y)) = leading (x ++ c :: y) + 1 := by
  have hnot := not_prefix_const hy
  induction x with
  | nil =>
    rw [List.nil_append, leading, if_pos ⟨hc, List.prefix_append _ _⟩, List.nil_append, leading,
      if_neg fun h => hnot h.2, leading_append_plain (by decide)]
    omega
  | cons d x ih =>
    simp only [List.cons_append, leading, prefix_const_append hc, ih]
    omega

/-- Without its qualifiers the name is the same. -/
lemma bare_insert (hc : isDelimiter c) (hy : ¬ word <+: y) (x : StdString) :
    bare (x ++ c :: ("const ".toList ++ y)) = bare (x ++ c :: y) := by
  have hnot := not_prefix_const hy
  induction x with
  | nil =>
    rw [List.nil_append, bare, if_pos ⟨hc, List.prefix_append _ _⟩, List.nil_append, bare,
      if_neg fun h => hnot h.2, bare_append_plain (by decide)]
    rfl
  | cons d x ih => simp only [List.cons_append, bare, prefix_const_append hc, ih]

/-- A round that finds no delimiter loses a qualifier, and no other one does. -/
lemma Moves.qualifiers_eq (h : Moves s s') :
    qualifiers s' + (homes s).count .nowhere = qualifiers s + (homes s').count .nowhere ∧
      unqualified s' = unqualified s := by
  unfold qualifiers unqualified
  cases h with
  | dropped hhomes hremainder =>
    rw [hhomes, hremainder, List.count_cons_self, List.length_cons]
    exact ⟨by omega, rfl⟩
  | moved u c v hc hhomes hremainder hremainder' hv =>
    rw [show word ++ ' ' :: v = "const ".toList ++ v from rfl] at hremainder'
    rw [hhomes.count_eq, hhomes.length_eq, hremainder, hremainder', leading_insert hc hv,
      bare_insert hc hv, List.count_cons_of_ne (by simp), List.length_cons]
    exact ⟨by omega, rfl⟩
  | kept u c v _ _ hhomes _ _ hremainder' =>
    rw [hhomes.count_eq, hhomes.length_eq, hremainder']
    exact ⟨rfl, rfl⟩

/-- What is lost are the qualifiers that go nowhere. -/
lemma qualifiers_of_ends (h : Ends constRound s t) :
    qualifiers t + (homes s).count .nowhere = qualifiers s ∧ unqualified t = unqualified s := by
  induction h with
  | @leave s hleave =>
    rw [(homes_of_leave hleave).1]
    exact ⟨rfl, rfl⟩
  | again hagain _ ih =>
    obtain ⟨hround, hunqualified⟩ := (constRound_moves hagain).qualifiers_eq
    exact ⟨by omega, ih.2.trans hunqualified⟩

/-- If no qualifier is lost, each one has somewhere to go. -/
lemma nowhere_not_mem (h : Ends constRound s t) (hkept : qualifiers t = qualifiers s) :
    .nowhere ∉ homes s := by
  obtain ⟨hlost, -⟩ := qualifiers_of_ends h
  exact List.count_eq_zero.mp (by omega)

/-- **The qualifiers are kept if and only if each finds a delimiter of its own.** -/
theorem constBeforeIdentifier_qualifiers_iff (s : StdString) :
    (∃ fuel t, constBeforeIdentifier fuel s = some t ∧ qualifiers t = qualifiers s ∧
      unqualified t = unqualified s) ↔ Movable s ∧ .nowhere ∉ homes s := by
  constructor
  · rintro ⟨fuel, t, ht, hkept, -⟩
    have hends : Ends constRound s t := .of_loop ht
    exact ⟨.of_ends hends, nowhere_not_mem hends hkept⟩
  · rintro ⟨hs, hnowhere⟩
    obtain ⟨t, hends⟩ := hs.exists_ends
    obtain ⟨hlost, hunqualified⟩ := qualifiers_of_ends hends
    obtain ⟨fuel, hfuel⟩ := hends.exists_loop
    rw [List.count_eq_zero.mpr hnowhere, Nat.add_zero] at hlost
    exact ⟨fuel, t, hfuel, hlost, hunqualified⟩

example : constBeforeIdentifier 2 "A<B const,C<D const> >".toList =
    some "A<const B,C<const D> >".toList := by decide

/-- The template argument at the end of a text, by the number of its delimiter; none outside all of them.
`outer` are the arguments that are open, the innermost first. -/
def argument (outer : List ℕ) (n : ℕ) : StdString → Option ℕ
  | [] => outer.head?
  | c :: s =>
    if c = '<' then argument ((n + 1) :: outer) (n + 1) s
    else if c = '>' then argument outer.tail n s
    else if c = ',' ∧ outer ≠ [] then argument ((n + 1) :: outer.tail) (n + 1) s
    else argument outer n s

/-- The arguments in which a ` const` is. -/
def carriers (s : StdString) : List (Option ℕ) :=
  ((List.range s.length).filter fun i => toBeMoved.isPrefixOf (s.drop i)).map fun i =>
    argument [] 0 (s.take i)

/-- A name whose arguments, and the part of it outside all of them, have at most one ` const` each. -/
structure WellFormed (s : StdString) : Prop where
  balanced : Balanced s
  single : (carriers s).Nodup

/-- A pointer outside all template arguments loses its qualifier. -/
theorem pointer_lost : WellFormed "int const*".toList ∧
    constBeforeIdentifier 1 "int const*".toList = some "int*".toList ∧
    ¬ ∃ fuel t, constBeforeIdentifier fuel "int const*".toList = some t ∧
      qualifiers t = qualifiers "int const*".toList ∧
      unqualified t = unqualified "int const*".toList := by
  refine ⟨⟨by decide, by decide⟩, by decide, ?_⟩
  rintro ⟨fuel, t, ht, hkept, -⟩
  exact absurd (by decide) (nowhere_not_mem (.of_loop ht) hkept)

end UnifyPrototype.TypeDemangler
