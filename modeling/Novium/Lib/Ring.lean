import Mathlib.Data.Nat.ModEq
import Mathlib.Data.List.Basic
import Mathlib.Logic.Function.Basic

/-! Ring buffers: the sequence held by `count` slots from `head` on, taken modulo
the capacity, and what putting one at the end and taking one from the front do. -/

namespace Novium.Lib

variable {α : Type*}

/-- The contents of the ring, oldest first. -/
def ringList (cap head count : ℕ) (slots : ℕ → α) : List α :=
  (List.range count).map fun i => slots ((head + i) % cap)

@[simp] theorem ringList_zero (cap head : ℕ) (slots : ℕ → α) : ringList cap head 0 slots = [] := rfl

theorem ring_slot_ne {cap head i j : ℕ} (hij : i < j) (hj : j < cap) : (head + i) % cap ≠ (head + j) % cap := by
  intro h
  have hmod : i ≡ j [MOD cap] := Nat.ModEq.add_left_cancel' head h
  have := hmod.eq_of_lt_of_lt (by omega) hj
  omega

theorem ringList_push {cap head count : ℕ} (slots : ℕ → α) (x : α) (h : count < cap) :
    ringList cap head (count + 1) (Function.update slots ((head + count) % cap) x) =
      ringList cap head count slots ++ [x] := by
  unfold ringList
  rw [List.range_succ, List.map_append]
  congr 1
  · apply List.map_congr_left
    intro i hi
    rw [List.mem_range] at hi
    exact Function.update_of_ne (ring_slot_ne hi h) _ _
  · simp

theorem ringList_pop (cap head : ℕ) {count : ℕ} (slots : ℕ → α) (h : 0 < count) :
    ringList cap head count slots =
      slots (head % cap) :: ringList cap ((head + 1) % cap) (count - 1) slots := by
  obtain ⟨n, rfl⟩ : ∃ n, count = n + 1 := ⟨count - 1, by omega⟩
  unfold ringList
  rw [List.range_succ_eq_map, List.map_cons, List.map_map]
  congr 1
  apply List.map_congr_left
  intro i _
  have hslot : (head + (i + 1)) % cap = ((head + 1) % cap + i) % cap := by
    rw [Nat.mod_add_mod]
    congr 1
    omega
  exact congrArg slots hslot

end Novium.Lib
