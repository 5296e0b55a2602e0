import Mathlib.Algebra.Group.Nat.Defs
import Mathlib.Data.Nat.Notation

/-!
# Counters of a fixed width

A counter of the code has `w` bits. While the number that it counts is below `2 ^ w`, its bits show
the number, and a comparison of the bits is one of the numbers.
-/

namespace UnifyPrototype.Utils

variable {w n n' k : ℕ} {c c' : BitVec w}

/-- The bits show the number. -/
def Shows (c : BitVec w) (n : ℕ) : Prop :=
  c.toNat = n

lemma shows_ofNat (hn : n < 2 ^ w) : Shows (BitVec.ofNat w n) n := by
  unfold Shows
  rw [BitVec.toNat_ofNat, Nat.mod_eq_of_lt hn]

namespace Shows

/-- What is shown fits. -/
lemma lt (h : Shows c n) : n < 2 ^ w :=
  h ▸ c.isLt

/-- `++c`, if there is room for one more. -/
lemma increment (h : Shows c n) (hn : n + 1 < 2 ^ w) : Shows (c + 1#w) (n + 1) := by
  unfold Shows at h ⊢
  have hw : 1 < 2 ^ w := by omega
  rw [BitVec.toNat_add, h, BitVec.toNat_ofNat, Nat.mod_eq_of_lt hw, Nat.mod_eq_of_lt hn]

/-- `--c`, if there is one to take away. -/
lemma decrement (h : Shows c n) (hn : 0 < n) : Shows (c - 1#w) (n - 1) := by
  have hlt := h.lt
  unfold Shows at h ⊢
  have hw : 1 < 2 ^ w := by omega
  have hsum : 2 ^ w - 1 + n = n - 1 + 2 ^ w := by omega
  rw [BitVec.toNat_sub, h, BitVec.toNat_ofNat, Nat.mod_eq_of_lt hw, hsum, Nat.add_mod_right]
  exact Nat.mod_eq_of_lt (by omega)

lemma eq_iff (h : Shows c n) (h' : Shows c' n') : c = c' ↔ n = n' := by
  unfold Shows at h h'
  rw [← h, ← h']
  exact BitVec.toNat_eq

/-- The comparison with a constant. -/
lemma eq_ofNat_iff (h : Shows c n) (hk : k < 2 ^ w) : c = BitVec.ofNat w k ↔ n = k :=
  h.eq_iff (shows_ofNat hk)

/-- `0 == --c`. -/
lemma decrement_eq_zero_iff (h : Shows c n) (hn : 0 < n) : 0#w = c - 1#w ↔ 0 = n - 1 :=
  (shows_ofNat (Nat.two_pow_pos w)).eq_iff (h.decrement hn)

/-- The comparison of a signed counter with zero. -/
lemma pos_iff (h : Shows c n) (hn : 2 * n < 2 ^ w) : (0#w).slt c ↔ 0 < n := by
  unfold Shows at h
  rw [BitVec.slt_iff_toInt_lt, BitVec.toInt_zero, BitVec.toInt_eq_toNat_cond, h, if_pos hn]
  omega

end Shows

end UnifyPrototype.Utils
