import Novium.Console.Sheet
import Novium.Lib.Copy
import Mathlib.Algebra.Group.Nat.Defs

/-! `memmove` and `memcpy` of `lib/string.c` over the whole address space, and the scroll of the
console as one of their overlapping cases. -/

namespace Novium.Console

open Novium.Lib

abbrev Memory := BitVec 32 → UInt8

def forwardLoop (d s : BitVec 32) : ℕ → Memory → Memory
  | 0, m => m
  | len + 1, m => forwardLoop (d + 1) (s + 1) len (Function.update m d (m s))

def backwardLoop (d s : BitVec 32) : ℕ → Memory → Memory
  | 0, m => m
  | len + 1, m => backwardLoop (d - 1) (s - 1) len (Function.update m (d - 1) (m (s - 1)))

/-- The pointer returned and the memory. -/
def memmove (dest src len : BitVec 32) (m : Memory) : BitVec 32 × Memory :=
  if dest < src then (dest, forwardLoop dest src len.toNat m)
  else if dest > src then (dest, backwardLoop (dest + len) (src + len) len.toNat m)
  else (dest, m)

def memcpy (dest src len : BitVec 32) (m : Memory) : BitVec 32 × Memory :=
  (dest, forwardLoop dest src len.toNat m)

/-- The bytes of a range hold what the other range held, and the rest is as it was. -/
structure Moved (dest src : BitVec 32) (len : ℕ) (m m' : Memory) : Prop where
  copied : ∀ i < len, m' (dest + BitVec.ofNat 32 i) = m (src + BitVec.ofNat 32 i)
  frame : ∀ a : BitVec 32, a.toNat < dest.toNat ∨ dest.toNat + len ≤ a.toNat → m' a = m a

theorem forwardLoop_eq (d s : BitVec 32) (len : ℕ) (m : Memory) :
    forwardLoop d s len m =
      copyAll ((List.range len).map fun i => (d + BitVec.ofNat 32 i, s + BitVec.ofNat 32 i)) m := by
  induction len generalizing d s m with
  | zero => rfl
  | succ len ih =>
    have hnext : ∀ (p : BitVec 32) (i : ℕ), p + 1#32 + BitVec.ofNat 32 i = p + BitVec.ofNat 32 (i + 1) := by
      intro p i
      rw [BitVec.ofNat_add, BitVec.add_assoc, BitVec.add_comm 1#32]
    rw [forwardLoop, ih, List.range_succ_eq_map, List.map_cons, List.map_map, copyAll_cons]
    simp only [hnext, Function.comp_def, BitVec.add_zero, BitVec.ofNat_eq_ofNat, Nat.succ_eq_add_one]

theorem backwardLoop_eq (d s : BitVec 32) (len : ℕ) (m : Memory) :
    backwardLoop (d + BitVec.ofNat 32 len) (s + BitVec.ofNat 32 len) len m =
      copyAll ((List.range len).reverse.map fun i => (d + BitVec.ofNat 32 i, s + BitVec.ofNat 32 i)) m := by
  induction len generalizing m with
  | zero => rfl
  | succ len ih =>
    have hback : ∀ p : BitVec 32, p + BitVec.ofNat 32 (len + 1) - 1 = p + BitVec.ofNat 32 len := by
      intro p
      rw [BitVec.ofNat_add, ← BitVec.add_assoc]
      exact BitVec.add_sub_cancel _ _
    rw [backwardLoop, hback, hback, ih, List.range_succ, List.reverse_append, List.reverse_singleton,
      List.singleton_append, List.map_cons, copyAll_cons]

section

variable {d s : BitVec 32} {len i j : ℕ}

theorem toNat_index (hd : d.toNat + len ≤ 2 ^ 32) (hi : i < len) : (d + BitVec.ofNat 32 i).toNat = d.toNat + i := by
  rw [BitVec.toNat_add, BitVec.toNat_ofNat]
  omega

/-- A copy in any order that does not write a byte before it is read. -/
theorem copyAll_moved {is : List ℕ} (hd : d.toNat + len ≤ 2 ^ 32) (hs : s.toNat + len ≤ 2 ^ 32)
    (his : ∀ i, i ∈ is ↔ i < len) (hord : is.Pairwise fun i j => i ≠ j ∧ s.toNat + j ≠ d.toNat + i) (m : Memory) :
    Moved d s len m (copyAll (is.map fun i => (d + BitVec.ofNat 32 i, s + BitVec.ofNat 32 i)) m) where
  copied i hi := by
    have hpairs : (is.map fun i => (d + BitVec.ofNat 32 i, s + BitVec.ofNat 32 i)).Pairwise
        fun p q => q.2 ≠ p.1 ∧ q.1 ≠ p.1 := by
      rw [List.pairwise_map]
      apply hord.imp_of_mem
      intro i j hi hj hij
      have h1 := toNat_index hd ((his i).mp hi)
      have h2 := toNat_index hd ((his j).mp hj)
      have h3 := toNat_index hs ((his j).mp hj)
      constructor
      · intro e
        have hn : (s + BitVec.ofNat 32 j).toNat = (d + BitVec.ofNat 32 i).toNat := congrArg BitVec.toNat e
        omega
      · intro e
        have hn : (d + BitVec.ofNat 32 j).toNat = (d + BitVec.ofNat 32 i).toNat := congrArg BitVec.toNat e
        omega
    exact copyAll_copied hpairs m (List.mem_map.mpr ⟨i, (his i).mpr hi, rfl⟩)
  frame a ha := by
    apply copyAll_frame
    intro p hp e
    obtain ⟨i, hi, rfl⟩ := List.mem_map.mp hp
    have h1 := toNat_index hd ((his i).mp hi)
    have h2 : a.toNat = (d + BitVec.ofNat 32 i).toNat := congrArg BitVec.toNat e
    have h3 := (his i).mp hi
    omega

theorem forwardLoop_moved (hd : d.toNat + len ≤ 2 ^ 32) (hs : s.toNat + len ≤ 2 ^ 32)
    (hord : d.toNat < s.toNat ∨ s.toNat + len ≤ d.toNat) (m : Memory) : Moved d s len m (forwardLoop d s len m) := by
  rw [forwardLoop_eq]
  refine copyAll_moved hd hs (fun i => List.mem_range) ?_ m
  apply List.pairwise_lt_range.imp_of_mem
  intro i j _ hj hij
  have hlt := List.mem_range.mp hj
  omega

theorem backwardLoop_moved (hd : d.toNat + len ≤ 2 ^ 32) (hs : s.toNat + len ≤ 2 ^ 32) (hord : s.toNat < d.toNat)
    (m : Memory) :
    Moved d s len m (backwardLoop (d + BitVec.ofNat 32 len) (s + BitVec.ofNat 32 len) len m) := by
  rw [backwardLoop_eq]
  refine copyAll_moved hd hs (fun i => by simp) ?_ m
  rw [List.pairwise_reverse]
  apply List.pairwise_lt_range.imp
  intro i j hij
  omega

end

section

variable {dest src len : BitVec 32} {m m₁ m₂ : Memory}

theorem Moved.unique {n : ℕ} (hd : dest.toNat + n ≤ 2 ^ 32) (h₁ : Moved dest src n m m₁)
    (h₂ : Moved dest src n m m₂) : m₁ = m₂ := by
  funext a
  by_cases ha : a.toNat < dest.toNat ∨ dest.toNat + n ≤ a.toNat
  · rw [h₁.frame a ha, h₂.frame a ha]
  · obtain ⟨i, hi⟩ : ∃ i, a.toNat = dest.toNat + i := ⟨a.toNat - dest.toNat, by omega⟩
    have hin : i < n := by omega
    obtain rfl : a = dest + BitVec.ofNat 32 i := by
      apply BitVec.eq_of_toNat_eq
      rw [toNat_index hd hin, hi]
    rw [h₁.copied i hin, h₂.copied i hin]

theorem memmove_moved (hd : dest.toNat + len.toNat ≤ 2 ^ 32) (hs : src.toNat + len.toNat ≤ 2 ^ 32) (m : Memory) :
    Moved dest src len.toNat m (memmove dest src len m).2 := by
  unfold memmove
  split_ifs with hlt hgt
  · exact forwardLoop_moved hd hs (Or.inl hlt) m
  · have hlen : BitVec.ofNat 32 len.toNat = len := by simp
    have h := backwardLoop_moved hd hs hgt m
    rwa [hlen] at h
  · have heq : dest = src := by
      apply BitVec.eq_of_toNat_eq
      simp only [gt_iff_lt, BitVec.lt_def] at hlt hgt
      omega
    rw [heq]
    exact ⟨fun _ _ => rfl, fun _ _ => rfl⟩

end

/-- `memmove` is right for every overlap, and `memcpy` does the same when the ranges are
disjoint or the destination comes first. -/
theorem memmove_exact (m : Memory) (dest src len : BitVec 32) (hd : dest.toNat + len.toNat ≤ 2 ^ 32)
    (hs : src.toNat + len.toNat ≤ 2 ^ 32) :
    (memmove dest src len m).1 = dest ∧ Moved dest src len.toNat m (memmove dest src len m).2 ∧
      (dest.toNat + len.toNat ≤ src.toNat ∨ src.toNat + len.toNat ≤ dest.toNat ∨ dest < src →
        memcpy dest src len m = memmove dest src len m) := by
  have hret : (memmove dest src len m).1 = dest := by
    unfold memmove
    split_ifs <;> rfl
  refine ⟨hret, memmove_moved hd hs m, fun h => ?_⟩
  by_cases hlt : dest < src
  · rw [memcpy, memmove, if_pos hlt]
  · have hord : src.toNat + len.toNat ≤ dest.toNat := by
      simp only [BitVec.lt_def] at h hlt
      omega
    have hcpy := forwardLoop_moved hd hs (Or.inr hord) m
    exact Prod.ext hret.symm (hcpy.unique hd (memmove_moved hd hs m))

/-- A move by two bytes up to the end of the address space, over most of its own source. -/
theorem memmove_exact_top :
    (memmove 0xfffffff2#32 0xfffffff0#32 14#32 fun a => UInt8.ofNat a.toNat).2 0xffffffff#32 = 0xfd ∧
      (memmove 0xfffffff2#32 0xfffffff0#32 14#32 fun a => UInt8.ofNat a.toNat).2 0xfffffff1#32 = 0xf1 := by
  have h := (memmove_exact (fun a => UInt8.ofNat a.toNat) 0xfffffff2#32 0xfffffff0#32 14#32 (by decide) (by decide)).2.1
  exact ⟨h.copied 13 (by decide), h.frame _ (by decide)⟩

def videoMemory : BitVec 32 := 0xb8000

theorem scroll_memmove (p : Page) (m : Memory) (h : ∀ i < 4000, m (videoMemory + BitVec.ofNat 32 i) = p.bytes i) :
    ∀ i < 4000, (memmove videoMemory (videoMemory + 160) 3840 m).2 (videoMemory + BitVec.ofNat 32 i) =
      (p.memmove 0 (consoleWidth * 2) 3840).bytes i := by
  intro i hi
  have hmove : Moved videoMemory (videoMemory + 160) 3840 m (memmove videoMemory (videoMemory + 160) 3840 m).2 :=
    @memmove_moved videoMemory (videoMemory + 160) 3840 (by decide) (by decide) m
  have hindex : (videoMemory + BitVec.ofNat 32 i).toNat = videoMemory.toNat + i :=
    toNat_index (show videoMemory.toNat + 4000 ≤ 2 ^ 32 by decide) hi
  rw [Page.memmove, if_pos (by decide), Page.copyUp_bytes 3840 (by decide)]
  split_ifs with hlt
  · have hsrc : videoMemory + 160 + BitVec.ofNat 32 i = videoMemory + BitVec.ofNat 32 (i + 160) := by
      rw [BitVec.ofNat_add, BitVec.add_assoc, BitVec.add_comm (BitVec.ofNat 32 i)]
      rfl
    rw [hmove.copied i (by omega), hsrc, h (i + 160) (by omega)]
    rfl
  · rw [hmove.frame _ (Or.inr (by omega)), h i hi]

end Novium.Console
