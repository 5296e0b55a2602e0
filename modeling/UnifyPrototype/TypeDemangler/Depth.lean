import UnifyPrototype.TypeDemangler.Model
import UnifyPrototype.Utils.Counters

/-!
# The depth of the brackets is an `int`

The inner loops of `removeParameter` and `constBeforeIdentifier` count brackets in an `int`. In a name
with fewer than `2 ^ 31` characters the count does not overflow, and the loops with the words come to
the same positions.
-/

namespace UnifyPrototype.TypeDemangler

open UnifyPrototype.Utils UnifyPrototype.Cms Text

variable {s demangledName : StdString} {c : BitVec 32} {depth inx index : ℕ}

/-! ## `removeParameter` -/

/-- The inner loop of `removeParameter`, with an `int` for the depth. -/
def matchingInt : BitVec 32 → StdString → Option ℕ
  | _, [] => none
  | depth, c :: rest =>
    if c = '<' then (matchingInt (depth + 1#32) rest).map (· + 1)
    else if c = '>' then
      if depth - 1#32 = 0#32 then some 0 else (matchingInt (depth - 1#32) rest).map (· + 1)
    else (matchingInt depth rest).map (· + 1)

/-- By induction on the text: while it has characters left, the depth is positive and has room for
them. -/
lemma matchingInt_eq (hc : Shows c depth) (hpos : 0 < depth) (hfew : depth + s.length < 2 ^ 31) :
    matchingInt c s = matching depth s := by
  induction s generalizing c depth with
  | nil => rfl
  | cons x rest ih =>
    rw [List.length_cons] at hfew
    unfold matchingInt matching
    split
    next => rw [ih (hc.increment (by omega)) (by omega) (by omega)]
    next =>
      split
      next =>
        have hdown := hc.decrement hpos
        by_cases hzero : depth - 1 = 0
        · rw [if_pos hzero, if_pos ((hdown.eq_ofNat_iff (by decide)).mpr hzero)]
        · rw [if_neg hzero, if_neg ((hdown.eq_ofNat_iff (by decide)).not.mpr hzero),
            ih hdown (by omega) (by omega)]
      next => rw [ih hc hpos (by omega)]

/-- **The depth in `removeParameter` does not overflow** in a name with fewer than `2 ^ 31 - 1`
characters. -/
theorem matchingInt_eq_matching (hfew : demangledName.length + 1 < 2 ^ 31) (index : ℕ) :
    matchingInt 1#32 (demangledName.drop index) = matching 1 (demangledName.drop index) := by
  apply matchingInt_eq (shows_ofNat (by decide)) Nat.one_pos
  rw [List.length_drop]
  omega

/-! ## `constBeforeIdentifier` -/

/-- The inner loop of `constBeforeIdentifier`, with an `int` for the depth. -/
def enclosingInt (demangledName : StdString) : ℕ → BitVec 32 → Option ℕ
  | 0, _ => none
  | inx + 1, depth =>
    let c := demangledName[inx + 1]?
    if c = some '>' then enclosingInt demangledName inx (depth + 1#32)
    else if (0#32).slt depth then
      if c = some '<' then enclosingInt demangledName inx (depth - 1#32)
      else enclosingInt demangledName inx depth
    else if c = some '<' ∨ c = some ',' then some (inx + 1)
    else enclosingInt demangledName inx depth

/-- By induction on the position: the depth has room for the characters before it. -/
lemma enclosingInt_eq (hc : Shows c depth) (hfew : depth + inx < 2 ^ 31) :
    enclosingInt demangledName inx c = enclosing demangledName inx depth := by
  induction inx generalizing c depth with
  | zero => rfl
  | succ inx ih =>
    unfold enclosingInt enclosing
    dsimp only
    split
    next => exact ih (hc.increment (by omega)) (by omega)
    next =>
      have hpos := hc.pos_iff (by omega)
      by_cases hdepth : depth > 0
      · rw [if_pos hdepth, if_pos (hpos.mpr hdepth)]
        split
        next => exact ih (hc.decrement hdepth) (by omega)
        next => exact ih hc (by omega)
      · rw [if_neg hdepth, if_neg (hpos.not.mpr hdepth)]
        split
        next => rfl
        next => exact ih hc (by omega)

/-- **The depth in `constBeforeIdentifier` does not overflow** in a name with fewer than `2 ^ 31`
characters. -/
theorem enclosingInt_eq_enclosing (hfew : demangledName.length < 2 ^ 31)
    (hindex : index ≤ demangledName.length) :
    enclosingInt demangledName (index - 1) 0#32 = enclosing demangledName (index - 1) 0 :=
  enclosingInt_eq (shows_ofNat (by decide)) (by omega)

end UnifyPrototype.TypeDemangler
