import Novium.Lib.Rotation
import Mathlib.Data.Fintype.Card

/-! A rotation that people join and leave while it turns. The holder may go without a turn, and
the next turn is then the head's; whoever waits may lose others in front of it, never gain one.
A member that stays is passed over at most as often as its place, counted in rounds of all
there are, and the keys above the holder's say; each new key may cost it one turn more. -/

namespace Novium.Lib

structure Lineup (ι : Type*) where
  holder : Option ι
  queue : List ι
  key : ι → ℕ

namespace Lineup

variable {ι : Type*}

def next (r : Lineup ι) : Option ι :=
  match r.holder with
  | none => r.queue.head?
  | some c => Rotation.pick r.key ⟨c, r.queue⟩

theorem exists_next {t : ι} {r : Lineup ι} (ht : t ∈ r.queue) : ∃ x ∈ r.queue, r.next = some x := by
  unfold next
  split
  · obtain ⟨x, hx⟩ := Option.isSome_iff_exists.mp (List.isSome_head?.mpr (List.ne_nil_of_mem ht))
    exact ⟨x, List.mem_of_head? hx, hx⟩
  next c _ =>
    obtain ⟨x, hx⟩ : ∃ x, Rotation.pick r.key ⟨c, r.queue⟩ = some x := Rotation.exists_pick ht
    exact ⟨x, Rotation.pick_mem hx, hx⟩

section

variable [Fintype ι]

theorem card_above_lt (key : ι → ℕ) (c : ι) : (Finset.univ.filter fun u => key c < key u).card < Fintype.card ι := by
  refine Finset.card_lt_card ⟨Finset.filter_subset _ _, fun hall => ?_⟩
  have hself := (Finset.mem_filter.mp (hall (Finset.mem_univ c))).2
  exact lt_irrefl _ hself

/-- A turn to a larger key leaves fewer above. -/
theorem card_above_serve {key : ι → ℕ} {c x : ι} (hlt : key c < key x) :
    (Finset.univ.filter fun u => key x < key u).card < (Finset.univ.filter fun u => key c < key u).card := by
  refine Finset.card_lt_card ⟨fun u hu => ?_, fun hall => ?_⟩
  · rw [Finset.mem_filter] at hu ⊢
    exact ⟨hu.1, hlt.trans hu.2⟩
  · have hself := (Finset.mem_filter.mp (hall (Finset.mem_filter.mpr ⟨Finset.mem_univ x, hlt⟩))).2
    exact lt_irrefl _ hself

end

variable [DecidableEq ι]

/-- The moves that leave `t` waiting, with the turns and the new keys that they count. -/
inductive Move (t : ι) (r : Lineup ι) : ℕ → ℕ → Lineup ι → Prop where
  | arrive (x : ι) : Move t r 0 0 { r with queue := r.queue ++ [x] }
  | leave {x : ι} : x ≠ t → Move t r 0 0 { r with queue := r.queue.erase x }
  | vacate : Move t r 0 0 { r with holder := none }
  | lower {x : ι} {k : ℕ} : r.holder ≠ some x → k ≤ r.key x → Move t r 0 0 { r with key := Function.update r.key x k }
  | rekey {x : ι} (k : ℕ) : r.holder ≠ some x → Move t r 0 1 { r with key := Function.update r.key x k }
  | serve {x : ι} : r.next = some x → x ≠ t → Move t r 1 0 { r with holder := some x, queue := r.queue.erase x }

inductive Moves (t : ι) : ℕ → ℕ → Lineup ι → Lineup ι → Prop where
  | nil (r : Lineup ι) : Moves t 0 0 r r
  | snoc {p b q c : ℕ} {r r' r'' : Lineup ι} : Moves t p b r r' → Move t r' q c r'' → Moves t (p + q) (b + c) r r''

section

variable {t : ι} {p b q c : ℕ} {r r' r'' : Lineup ι}

theorem Move.moves (h : Move t r p b r') : Moves t p b r r' := by
  have hone := Moves.snoc (.nil r) h
  rwa [Nat.zero_add, Nat.zero_add] at hone

theorem Moves.trans (h : Moves t p b r r') (h' : Moves t q c r' r'') : Moves t (p + q) (b + c) r r'' := by
  induction h' with
  | nil => exact h
  | snoc _ hm ih =>
    rw [← Nat.add_assoc, ← Nat.add_assoc]
    exact .snoc (ih h) hm

theorem moves_arrive (t : ι) (r : Lineup ι) (l : List ι) : Moves t 0 0 r { r with queue := r.queue ++ l } := by
  induction l generalizing r with
  | nil =>
    rw [List.append_nil]
    exact .nil r
  | cons x l ih =>
    have hrest := (Move.arrive x).moves.trans (ih { r with queue := r.queue ++ [x] })
    simpa using hrest

end

variable [Fintype ι]

/-- The keys above the holder's, among all there are. -/
def ahead (r : Lineup ι) : ℕ :=
  match r.holder with
  | none => 0
  | some c => (Finset.univ.filter fun u => r.key c < r.key u).card

/-- A full round for every place in front, and the keys above. -/
def wait (t : ι) (r : Lineup ι) : ℕ := r.queue.idxOf t * Fintype.card ι + r.ahead

theorem card_above_update (key : ι → ℕ) {c x : ι} (hx : c ≠ x) (k : ℕ) :
    (Finset.univ.filter fun u => Function.update key x k c < Function.update key x k u).card ≤
      (Finset.univ.filter fun u => key c < key u).card + if k ≤ key x then 0 else 1 := by
  rw [Function.update_of_ne hx]
  have hsub : (Finset.univ.filter fun u => key c < Function.update key x k u) ⊆
      (Finset.univ.filter fun u => key c < key u) ∪ if k ≤ key x then ∅ else {x} := by
    intro u hu
    rw [Finset.mem_union]
    have hu' := (Finset.mem_filter.mp hu).2
    by_cases hux : u = x
    · subst hux
      rw [Function.update_self] at hu'
      split_ifs with hle
      · exact .inl (Finset.mem_filter.mpr ⟨Finset.mem_univ u, lt_of_lt_of_le hu' hle⟩)
      · exact .inr (Finset.mem_singleton_self u)
    · rw [Function.update_of_ne hux] at hu'
      exact .inl (Finset.mem_filter.mpr ⟨Finset.mem_univ u, hu'⟩)
  refine (Finset.card_le_card hsub).trans ((Finset.card_union_le _ _).trans (Nat.add_le_add_left ?_ _))
  split_ifs <;> simp

theorem ahead_update {r : Lineup ι} {x : ι} (hx : r.holder ≠ some x) (k : ℕ) :
    ahead { r with key := Function.update r.key x k } ≤ r.ahead + if k ≤ r.key x then 0 else 1 := by
  unfold ahead
  cases hc : r.holder with
  | none => exact Nat.zero_le _
  | some c => exact card_above_update r.key (fun e => hx (by rw [hc, e])) k

section

variable {t : ι} {p b : ℕ} {r r' : Lineup ι}

/-- The next turn: to a larger key, with the one who waits no further back, or to the head, one place up. -/
theorem wait_serve {x : ι} (h : r.next = some x) (ht : t ∈ r.queue) (hne : x ≠ t) :
    wait t { r with holder := some x, queue := r.queue.erase x } < r.wait t := by
  have hidx := Rotation.idxOf_erase_le r.queue ht hne
  have hbound := card_above_lt r.key x
  have hhead : r.queue.head? = some x → wait t { r with holder := some x, queue := r.queue.erase x } < r.wait t := by
    intro hq
    obtain ⟨l, hl⟩ : ∃ l, r.queue = x :: l := by
      cases hl : r.queue with
      | nil => simp [hl] at hq
      | cons a l =>
        rw [hl] at hq
        cases hq
        exact ⟨l, rfl⟩
    unfold wait
    rw [hl, List.erase_cons_head, List.idxOf_cons_ne l hne, Nat.succ_mul]
    simp only [ahead]
    omega
  unfold next at h
  cases hc : r.holder with
  | none =>
    rw [hc] at h
    exact hhead h
  | some c =>
    rw [hc] at h
    obtain ⟨-, hlt⟩ | ⟨hq, -⟩ := Rotation.pick_cases h
    · have hfewer := card_above_serve hlt
      have hround := Nat.mul_le_mul_right (Fintype.card ι) hidx
      unfold wait ahead
      rw [hc]
      simp only at hfewer ⊢
      omega
    · exact hhead hq

theorem Move.wait (h : Move t r p b r') (ht : t ∈ r.queue) : t ∈ r'.queue ∧ r'.wait t + p ≤ r.wait t + b := by
  cases h with
  | arrive x =>
    refine ⟨List.mem_append_left _ ht, ?_⟩
    unfold Lineup.wait
    rw [List.idxOf_append_of_mem ht]
    exact le_rfl
  | leave hx =>
    refine ⟨(List.mem_erase_of_ne hx.symm).mpr ht, ?_⟩
    exact Nat.add_le_add_right (Nat.mul_le_mul_right _ (Rotation.idxOf_erase_le r.queue ht hx)) _
  | vacate => exact ⟨ht, Nat.add_le_add_left (Nat.zero_le _) _⟩
  | @lower x k hx hk =>
    have hahead := ahead_update hx k
    rw [if_pos hk] at hahead
    exact ⟨ht, Nat.add_le_add_left hahead _⟩
  | @rekey x k hx =>
    have hahead := ahead_update hx k
    refine ⟨ht, ?_⟩
    unfold Lineup.wait
    simp only
    split_ifs at hahead <;> omega
  | serve hx hne => exact ⟨(List.mem_erase_of_ne hne.symm).mpr ht, wait_serve hx ht hne⟩

/-- Who waits is passed over no more often than its wait and the new keys allow. -/
theorem Moves.wait (h : Moves t p b r r') (ht : t ∈ r.queue) : t ∈ r'.queue ∧ r'.wait t + p ≤ r.wait t + b := by
  induction h with
  | nil => exact ⟨ht, le_rfl⟩
  | snoc _ hm ih =>
    obtain ⟨hin, hle⟩ := ih ht
    obtain ⟨hin', hle'⟩ := hm.wait hin
    exact ⟨hin', by omega⟩

theorem wait_lt (t : ι) (r : Lineup ι) (hpos : 0 < Fintype.card ι) :
    r.wait t < (r.queue.idxOf t + 1) * Fintype.card ι := by
  unfold wait ahead
  rw [Nat.succ_mul]
  split
  · omega
  next c _ =>
    have := card_above_lt r.key c
    omega

end

end Lineup

end Novium.Lib
