import Mathlib.Data.List.Count
import Mathlib.Data.List.Nodup
import Mathlib.Logic.Function.Iterate
import Mathlib.Tactic.Common

/-! Taking turns from a queue in any order. The next turn goes to the first in the
queue whose key is above the holder's, or else to the head, and the holder goes to
the end. The place of a waiting member together with the number of keys above the
holder's falls with every turn that passes the member over, whatever the order. -/

namespace Novium.Lib

structure Rotation (ι : Type*) where
  holder : ι
  queue : List ι

namespace Rotation

variable {ι : Type*} (key : ι → ℕ)

def pick (r : Rotation ι) : Option ι := (r.queue.find? fun t => key r.holder < key t).or r.queue.head?

/-- How many of the queue have a key above the holder's. -/
def above (r : Rotation ι) : ℕ := r.queue.countP fun t => key r.holder < key t

section

variable {key} {r : Rotation ι} {t x : ι}

theorem pick_cases (h : r.pick key = some x) :
    (x ∈ r.queue ∧ key r.holder < key x) ∨
      (r.queue.head? = some x ∧ ∀ u ∈ r.queue, ¬ key r.holder < key u) := by
  unfold pick at h
  cases hf : r.queue.find? fun t => key r.holder < key t with
  | some y =>
    rw [hf, Option.some_or, Option.some.injEq] at h
    subst h
    exact Or.inl ⟨List.mem_of_find?_eq_some hf, by simpa using List.find?_some hf⟩
  | none =>
    rw [hf, Option.none_or] at h
    exact Or.inr ⟨h, by simpa using hf⟩

theorem pick_mem (h : r.pick key = some x) : x ∈ r.queue := by
  rcases pick_cases h with ⟨hx, -⟩ | ⟨hx, -⟩
  · exact hx
  · exact List.mem_of_mem_head? hx

theorem exists_pick (ht : t ∈ r.queue) : ∃ x, r.pick key = some x := by
  unfold pick
  cases hq : r.queue with
  | nil => simp [hq] at ht
  | cons a l => cases hf : (a :: l).find? fun t => key r.holder < key t <;> simp

end

variable [DecidableEq ι]

def turn (r : Rotation ι) : Rotation ι :=
  ((r.pick key).map fun t => ⟨t, r.queue.erase t ++ [r.holder]⟩).getD r

/-- The place of `t` in the queue, and within one place the keys still above. -/
def rank (t : ι) (r : Rotation ι) : ℕ := r.queue.idxOf t * (r.queue.length + 1) + r.above key

variable {key} {r : Rotation ι} {t x : ι}

theorem turn_eq (h : r.pick key = some x) : r.turn key = ⟨x, r.queue.erase x ++ [r.holder]⟩ := by
  simp [turn, h]

theorem length_turn : (r.turn key).queue.length = r.queue.length := by
  cases h : r.pick key with
  | none => simp [turn, h]
  | some x =>
    have hpos : 0 < r.queue.length := List.length_pos_of_mem (pick_mem h)
    rw [turn_eq h, List.length_append, List.length_erase_of_mem (pick_mem h)]
    simp
    omega

theorem idxOf_erase_le (l : List ι) (ht : t ∈ l) (hne : x ≠ t) : (l.erase x).idxOf t ≤ l.idxOf t := by
  induction l with
  | nil => simp at ht
  | cons a l ih =>
    by_cases hax : a = x
    · subst hax
      rw [List.erase_cons_head, List.idxOf_cons_ne l hne]
      omega
    · rw [List.erase_cons_tail (by simpa using hax)]
      by_cases hat : a = t
      · subst hat
        simp
      · rw [List.idxOf_cons_ne _ hat, List.idxOf_cons_ne _ hat]
        exact Nat.succ_le_succ (ih ((List.mem_cons.mp ht).resolve_left fun e => hat e.symm))

theorem mem_turn (h : r.pick key = some x) (ht : t ∈ r.queue) (hne : x ≠ t) : t ∈ (r.turn key).queue := by
  rw [turn_eq h]
  exact List.mem_append_left _ ((List.mem_erase_of_ne hne.symm).mpr ht)

theorem idxOf_turn_le (h : r.pick key = some x) (ht : t ∈ r.queue) (hne : x ≠ t) :
    (r.turn key).queue.idxOf t ≤ r.queue.idxOf t := by
  rw [turn_eq h, List.idxOf_append_of_mem ((List.mem_erase_of_ne hne.symm).mpr ht)]
  exact idxOf_erase_le r.queue ht hne

theorem above_turn_lt (h : r.pick key = some x) (hlt : key r.holder < key x) :
    (r.turn key).above key < r.above key := by
  have hx := pick_mem h
  have hmono : (r.queue.erase x).countP (fun t => key x < key t) ≤
      (r.queue.erase x).countP fun t => key r.holder < key t :=
    List.countP_mono_left fun u _ hu => by simp at hu ⊢; omega
  have hpos : 0 < r.queue.countP fun t => key r.holder < key t :=
    List.countP_pos_iff.mpr ⟨x, hx, by simpa using hlt⟩
  have herase := List.countP_erase (fun t => decide (key r.holder < key t)) r.queue x
  rw [if_pos ⟨hx, by simpa using hlt⟩] at herase
  rw [turn_eq h]
  simp only [above, List.countP_append, List.countP_singleton, decide_eq_true_eq]
  rw [if_neg (by omega)]
  omega

theorem idxOf_turn_lt (h : r.queue.head? = some x) (hp : r.pick key = some x) (ht : t ∈ r.queue) (hne : x ≠ t) :
    (r.turn key).queue.idxOf t < r.queue.idxOf t := by
  obtain ⟨l, hq⟩ : ∃ l, r.queue = x :: l := by
    cases hq : r.queue with
    | nil => simp [hq] at h
    | cons a l => rw [hq] at h; cases h; exact ⟨l, rfl⟩
  have htl : t ∈ l := by
    rw [hq] at ht
    exact (List.mem_cons.mp ht).resolve_left hne.symm
  rw [turn_eq hp, hq, List.erase_cons_head, List.idxOf_append_of_mem htl, List.idxOf_cons_ne l hne]
  omega

theorem rank_turn_lt (h : r.pick key = some x) (ht : t ∈ r.queue) (hne : x ≠ t) :
    (r.turn key).rank key t < r.rank key t := by
  unfold rank
  rw [length_turn]
  rcases pick_cases h with ⟨-, hlt⟩ | ⟨hhead, -⟩
  · have h1 := above_turn_lt h hlt
    have h2 := Nat.mul_le_mul_right (r.queue.length + 1) (idxOf_turn_le h ht hne)
    omega
  · have h1 := idxOf_turn_lt hhead h ht hne
    have hlen : (r.turn key).queue.length = r.queue.length := length_turn
    have h2 : (r.turn key).above key ≤ r.queue.length := hlen ▸ List.countP_le_length
    have h3 := Nat.mul_le_mul_right (r.queue.length + 1) h1
    rw [Nat.succ_mul] at h3
    omega

theorem exists_turn_of_rank (n : ℕ) (ht : t ∈ r.queue) (hn : r.rank key t < n) :
    ∃ k ≤ n, ((turn key)^[k] r).holder = t := by
  induction n generalizing r with
  | zero => omega
  | succ n ih =>
    obtain ⟨x, hx⟩ : ∃ x, r.pick key = some x := exists_pick ht
    by_cases hxt : x = t
    · refine ⟨1, by omega, ?_⟩
      simp [turn_eq hx, hxt]
    · have hlt := rank_turn_lt hx ht hxt
      obtain ⟨k, hk, hh⟩ := ih (mem_turn hx ht hxt) (by omega)
      exact ⟨k + 1, by omega, by rwa [Function.iterate_succ_apply]⟩

/-- Every member of the queue has its turn within the square of the number of members. -/
theorem exists_turn (key : ι → ℕ) (ht : t ∈ r.queue) :
    ∃ k ≤ (r.queue.length + 1) * (r.queue.length + 1), ((turn key)^[k] r).holder = t := by
  refine exists_turn_of_rank _ ht ?_
  have h1 : r.queue.idxOf t + 1 ≤ r.queue.length := List.idxOf_lt_length_of_mem ht
  have h2 : r.above key ≤ r.queue.length := List.countP_le_length
  have h3 := Nat.mul_le_mul_right (r.queue.length + 1) h1
  rw [Nat.succ_mul] at h3
  rw [Nat.succ_mul]
  unfold rank
  omega

end Rotation

end Novium.Lib
