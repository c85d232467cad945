import Mathlib.Data.Nat.Bitwise
import Mathlib.Tactic.Common

/-! Words cut into a low field of `k` bits and the rest: masking, or-ing flags into
the low field, and slicing an index out of the middle. -/

namespace Novium.Lib

variable {w : ℕ}

def low (w k : ℕ) : BitVec w := BitVec.ofNat w (2 ^ k - 1)

theorem getLsbD_low (k i : ℕ) : (low w k).getLsbD i = (decide (i < w) && decide (i < k)) := by
  rw [low, BitVec.getLsbD_ofNat, Nat.testBit_two_pow_sub_one]

theorem and_high_or_and (x m : BitVec w) : (x &&& ~~~m) ||| (x &&& m) = x := by
  apply BitVec.eq_of_getLsbD_eq
  intro i hi
  simp only [BitVec.getLsbD_or, BitVec.getLsbD_and, BitVec.getLsbD_not, hi]
  cases x.getLsbD i <;> cases m.getLsbD i <;> rfl

theorem and_high_of_and_eq_zero {x m : BitVec w} (h : x &&& m = 0#w) : x &&& ~~~m = x := by
  have := and_high_or_and x m
  rwa [h, BitVec.or_zero] at this

theorem getLsbD_of_lt {k : ℕ} {f : BitVec w} (hf : f.toNat < 2 ^ k) {i : ℕ} (hi : k ≤ i) : f.getLsbD i = false := by
  rw [BitVec.getLsbD]
  exact Nat.testBit_lt_two_pow (lt_of_lt_of_le hf (Nat.pow_le_pow_right (by decide) hi))

theorem or_and_high {k : ℕ} (p : BitVec w) {f : BitVec w} (hf : f.toNat < 2 ^ k) :
    ((p &&& ~~~low w k) ||| f) &&& ~~~low w k = p &&& ~~~low w k := by
  apply BitVec.eq_of_getLsbD_eq
  intro i hi
  simp only [BitVec.getLsbD_or, BitVec.getLsbD_and, BitVec.getLsbD_not, getLsbD_low, hi]
  by_cases hik : i < k
  · simp [hik]
  · simp [hik, getLsbD_of_lt hf (not_lt.mp hik)]

theorem getLsbD_or_low {k i : ℕ} (p f : BitVec w) (hi : i < k) :
    ((p &&& ~~~low w k) ||| f).getLsbD i = f.getLsbD i := by
  simp only [BitVec.getLsbD_or, BitVec.getLsbD_and, BitVec.getLsbD_not, getLsbD_low]
  by_cases hiw : i < w
  · simp [hi, hiw]
  · simp [hiw]

theorem and_high_ushiftRight {k n : ℕ} (x : BitVec w) (hk : k ≤ n) : (x &&& ~~~low w k) >>> n = x >>> n := by
  apply BitVec.eq_of_getLsbD_eq
  intro i hi
  simp only [BitVec.getLsbD_ushiftRight, BitVec.getLsbD_and, BitVec.getLsbD_not, getLsbD_low]
  by_cases hw : n + i < w
  · simp [hw, show ¬ n + i < k by omega]
  · simp [BitVec.getLsbD_of_ge x (n + i) (not_lt.mp hw)]

/-- Putting the field back where it was cut out, under what is above it, gives the
word without the bits below the field. -/
theorem shiftLeft_fields {k m : ℕ} (x : BitVec w) :
    ((x >>> (k + m)) <<< (k + m)) ||| ((x >>> k &&& low w m) <<< k) = x &&& ~~~low w k := by
  apply BitVec.eq_of_getLsbD_eq
  intro i hi
  simp only [BitVec.getLsbD_or, BitVec.getLsbD_shiftLeft, BitVec.getLsbD_ushiftRight, BitVec.getLsbD_and,
    BitVec.getLsbD_not, getLsbD_low, hi]
  by_cases hik : i < k
  · simp [hik, show i < k + m by omega]
  · by_cases him : i < k + m
    · simp [hik, him, show i - k < w by omega, show i - k < m by omega, show k + (i - k) = i by omega]
    · simp [hik, him, show ¬ i - k < m by omega, show k + m + (i - (k + m)) = i by omega]

theorem toNat_and_low {k : ℕ} (x : BitVec w) (hk : k ≤ w) : (x &&& low w k).toNat = x.toNat % 2 ^ k := by
  have hlt : 2 ^ k - 1 < 2 ^ w := by
    have := Nat.pow_le_pow_right (n := 2) (by decide) hk
    have := Nat.two_pow_pos k
    omega
  rw [BitVec.toNat_and, low, BitVec.toNat_ofNat, Nat.mod_eq_of_lt hlt, Nat.and_two_pow_sub_one_eq_mod]

end Novium.Lib
