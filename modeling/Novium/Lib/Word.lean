import Mathlib.Algebra.Group.Nat.Defs
import Mathlib.Tactic.Common

/-! Unsigned 32-bit arithmetic on natural numbers: every result that a machine
word would truncate is written `u32 _`, and the lemmas remove it again where the
value fits. -/

namespace Novium.Lib

def u32 (n : ℕ) : ℕ := n % 2 ^ 32

theorem u32_of_lt {n : ℕ} (h : n < 2 ^ 32) : u32 n = n := Nat.mod_eq_of_lt h

theorem u32_le (n : ℕ) : u32 n ≤ n := Nat.mod_le n _

theorem u32_add (a k : ℕ) : u32 (u32 a + k) = u32 (a + k) := Nat.mod_add_mod a (2 ^ 32) k

def u64 (n : ℕ) : ℕ := n % 2 ^ 64

theorem u64_of_lt {n : ℕ} (h : n < 2 ^ 64) : u64 n = n := Nat.mod_eq_of_lt h

def sub32 (a b : ℕ) : ℕ := u32 (a + (2 ^ 32 - b % 2 ^ 32))

theorem sub32_of_le {a b : ℕ} (h : b ≤ a) (ha : a < 2 ^ 32) : sub32 a b = a - b := by
  unfold sub32 u32
  omega

theorem sub32_one_lt {n : ℕ} (h : n ≠ 0) : sub32 n 1 < n := by
  unfold sub32 u32
  omega

def nonneg32 (a : ℕ) : Bool := decide (a < 2 ^ 31)

end Novium.Lib
