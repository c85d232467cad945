import Novium.Lib.DList
import Novium.Mm.Heap
import Mathlib.Data.List.Pairwise
import Mathlib.Data.List.Perm.Subperm

/-! The free list of the heap. Its nodes lie at least a header and a node apart, so
that linking a block in or out writes the link words of the list and nothing else. -/

namespace Novium.Mm

open Novium.Lib

/-- The least distance of two blocks: `sizeof(BlockMeta) + sizeof(FreeNode)`. -/
def blockSpan : ℕ := 24

theorem fld_set (s : Heap) (b j v a k : ℕ) :
    (s.set b j v).fld a k = if a + k = b + j then v else s.fld a k := by
  unfold Heap.fld Heap.set
  simp only [Function.update_apply]

@[simp] theorem set_segments (s : Heap) (b j v : ℕ) : (s.set b j v).segments = s.segments := rfl
@[simp] theorem set_freeListHead (s : Heap) (b j v : ℕ) : (s.set b j v).freeListHead = s.freeListHead := rfl
@[simp] theorem set_pages (s : Heap) (b j v : ℕ) : (s.set b j v).pages = s.pages := rfl

theorem fld_setIf (s : Heap) (y j v a k : ℕ) :
    (if y ≠ 0 then s.set y j v else s).fld a k = if y ≠ 0 ∧ a + k = y + j then v else s.fld a k := by
  by_cases hy : y ≠ 0
  · rw [if_pos hy, fld_set]
    simp only [hy, ne_eq, not_false_eq_true, true_and]
  · rw [if_neg hy, if_neg (fun h => hy h.1)]

theorem fld_setOrHead (s : Heap) (y j v h a k : ℕ) :
    (if y ≠ 0 then s.set y j v else { s with freeListHead := h }).fld a k =
      if y ≠ 0 ∧ a + k = y + j then v else s.fld a k := by
  rw [← fld_setIf]
  split_ifs <;> rfl

/-- `s'` differs from `s` in the list head and in the link words of the nodes `l` only. -/
structure Relinked (s s' : Heap) (l : List ℕ) : Prop where
  segments : s'.segments = s.segments
  pages : s'.pages = s.pages
  frame : ∀ a k, (∀ x ∈ l, a + k ≠ x + 16 ∧ a + k ≠ x + 20) → s'.fld a k = s.fld a k

theorem Relinked.set {s s' : Heap} {l : List ℕ} (h : Relinked s s' l) {b k v : ℕ} (hb : b ∈ l)
    (hk : k = 16 ∨ k = 20) : Relinked s (s'.set b k v) l := by
  refine ⟨h.segments, h.pages, fun a j ha => ?_⟩
  have := ha b hb
  rw [fld_set, if_neg (by omega), h.frame a j ha]

theorem Relinked.head {s s' : Heap} {l : List ℕ} (h : Relinked s s' l) (b : ℕ) :
    Relinked s { s' with freeListHead := b } l := ⟨h.segments, h.pages, h.frame⟩

theorem Relinked.refl (s : Heap) (l : List ℕ) : Relinked s s l := ⟨rfl, rfl, fun _ _ _ => rfl⟩

/-- The nodes of the free list in order. -/
structure FreeList (s : Heap) (fl : List ℕ) : Prop where
  linked : DLinked s.next s.prev 0 s.freeListHead fl
  spaced : fl.Pairwise fun x y => x + blockSpan ≤ y
  lt : ∀ x ∈ fl, x < 2 ^ 32

namespace FreeList

variable {s s' : Heap} {fl : List ℕ} {b : ℕ}

theorem nodup (h : FreeList s fl) : fl.Nodup := by
  refine h.spaced.imp fun {x y} hxy => ?_
  unfold blockSpan at hxy
  omega

theorem ne_zero (h : FreeList s fl) {x : ℕ} (hx : x ∈ fl) : x ≠ 0 := by
  obtain ⟨q, hseg⟩ := h.linked
  exact hseg.ne_null hx

theorem apart (h : FreeList s fl) {x y : ℕ} (hx : x ∈ fl) (hy : y ∈ fl) :
    x = y ∨ x + blockSpan ≤ y ∨ y + blockSpan ≤ x := by
  by_cases hxy : x = y
  · exact Or.inl hxy
  · right
    have hs : fl.Pairwise fun x y => x + blockSpan ≤ y ∨ y + blockSpan ≤ x := h.spaced.imp Or.inl
    have : Std.Symm fun x y : ℕ => x + blockSpan ≤ y ∨ y + blockSpan ≤ x := ⟨fun _ _ h => h.symm⟩
    exact hs.forall hx hy hxy

theorem length_lt (h : FreeList s fl) : fl.length < 2 ^ 32 := by
  have hsub : fl ⊆ List.range' 1 (2 ^ 32 - 1) := by
    intro x hx
    have := h.ne_zero hx
    have := h.lt x hx
    rw [List.mem_range'_1]
    omega
  have := (List.subperm_of_subset h.nodup hsub).length_le
  rw [List.length_range'] at this
  omega

theorem congr (h : FreeList s fl) (hhead : s'.freeListHead = s.freeListHead)
    (hn : ∀ x ∈ fl, s'.next x = s.next x) (hp : ∀ x ∈ fl, s'.prev x = s.prev x) : FreeList s' fl := by
  obtain ⟨q, hseg⟩ := h.linked
  exact ⟨⟨q, hhead ▸ hseg.congr hn hp⟩, h.spaced, h.lt⟩

end FreeList

theorem insertLoop_stops {s : Heap} {b n p h q : ℕ} {l : List ℕ}
    (hl : DSeg s.next s.prev 0 p h l q 0) (hn : l.length < n) :
    ∃ l₁ l₂ q₁ m, l = l₁ ++ l₂ ∧ insertLoop s b n p h = some (q₁, m) ∧ DSeg s.next s.prev 0 p h l₁ q₁ m ∧
      DSeg s.next s.prev 0 q₁ m l₂ q 0 ∧ (∀ x ∈ l₁, x < b) ∧ ∀ x ∈ l₂.head?, b ≤ x := by
  induction n generalizing p h l with
  | zero => omega
  | succ n ih =>
    rw [insertLoop]
    cases l with
    | nil =>
      obtain ⟨rfl, rfl⟩ := hl
      exact ⟨[], [], q, 0, rfl, by simp, ⟨rfl, rfl⟩, ⟨rfl, rfl⟩, by simp, by simp⟩
    | cons a l =>
      obtain ⟨rfl, ha, hpa, hr⟩ := hl
      by_cases hlt : h < b
      · obtain ⟨l₁, l₂, q₁, m, rfl, hloop, h₁, h₂, hlo, hhi⟩ := ih hr (by simpa using hn)
        rw [if_pos ⟨ha, hlt⟩, hloop]
        refine ⟨h :: l₁, l₂, q₁, m, rfl, rfl, ⟨rfl, ha, hpa, h₁⟩, h₂, ?_, hhi⟩
        simpa [hlt] using hlo
      · rw [if_neg (fun hc => hlt hc.2)]
        refine ⟨[], h :: l, p, h, rfl, rfl, ⟨rfl, rfl⟩, ⟨rfl, ha, hpa, hr⟩, by simp, ?_⟩
        simpa using Nat.le_of_not_lt hlt

section LinkIn

variable {s : Heap} {b p c : ℕ}

theorem linkIn_relinked {l : List ℕ} (hb : b ∈ l) (hp : p ≠ 0 → p ∈ l) (hc : c ≠ 0 → c ∈ l) :
    Relinked s (linkIn b p c s) l := by
  have h0 : Relinked s ((s.set b 16 p).set b 20 c) l :=
    ((Relinked.refl s l).set hb (Or.inl rfl)).set hb (Or.inr rfl)
  unfold linkIn
  simp only
  split_ifs with h1 h2 h2
  · exact (h0.set (hp h2) (Or.inr rfl)).set (hc h1) (Or.inl rfl)
  · exact (h0.head b).set (hc h1) (Or.inl rfl)
  · exact h0.set (hp h2) (Or.inr rfl)
  · exact h0.head b

theorem linkIn_next (hpb : p ≠ 0 → p + blockSpan ≤ b) (x : ℕ)
    (hb : x = b ∨ x + blockSpan ≤ b ∨ b + blockSpan ≤ x) (hc : c ≠ 0 → x = c ∨ x + blockSpan ≤ c ∨ c + blockSpan ≤ x) :
    (linkIn b p c s).next x = if x = b then c else if p ≠ 0 ∧ x = p then b else s.next x := by
  unfold blockSpan at *
  rw [Heap.next, linkIn, fld_setIf, fld_setOrHead, fld_set, fld_set, if_neg (fun h => by have := hc h.1; omega),
    if_neg (show x + 20 ≠ b + 16 by omega)]
  simp only [Nat.add_right_cancel_iff]
  by_cases hxb : x = b
  · rw [if_pos hxb, if_pos hxb, if_neg (fun h => by have := hpb h.1; omega)]
  · rw [if_neg hxb, if_neg hxb]
    rfl

theorem linkIn_prev (hbc : c ≠ 0 → b + blockSpan ≤ c) (x : ℕ)
    (hb : x = b ∨ x + blockSpan ≤ b ∨ b + blockSpan ≤ x) (hp : p ≠ 0 → x = p ∨ x + blockSpan ≤ p ∨ p + blockSpan ≤ x) :
    (linkIn b p c s).prev x = if x = b then p else if c ≠ 0 ∧ x = c then b else s.prev x := by
  unfold blockSpan at *
  rw [Heap.prev, linkIn, fld_setIf, fld_setOrHead, fld_set, fld_set, if_neg (show x + 16 ≠ b + 20 by omega),
    if_neg (show ¬(p ≠ 0 ∧ x + 16 = p + 20) from fun h => by have := hp h.1; omega)]
  simp only [Nat.add_right_cancel_iff]
  by_cases hxb : x = b
  · rw [if_pos hxb, if_pos hxb, if_neg (fun h => by have := hbc h.1; omega)]
  · rw [if_neg hxb, if_neg hxb]
    rfl

theorem linkIn_head : (linkIn b p c s).freeListHead = if p ≠ 0 then s.freeListHead else b := by
  unfold linkIn
  simp only
  split_ifs <;> rfl

end LinkIn

theorem heapListInsert_spec {s : Heap} {fl : List ℕ} {b : ℕ} (h : FreeList s fl) (h0 : b ≠ 0) (hlt : b < 2 ^ 32)
    (hb : ∀ x ∈ fl, x + blockSpan ≤ b ∨ b + blockSpan ≤ x) :
    ∃ s' fl', heapListInsert b s = some s' ∧ FreeList s' fl' ∧ (∀ x, x ∈ fl' ↔ x = b ∨ x ∈ fl) ∧
      Relinked s s' (b :: fl) := by
  obtain ⟨q, hseg⟩ := h.linked
  obtain ⟨l₁, l₂, p, c, rfl, hloop, h₁, h₂, hlo, hhi⟩ := insertLoop_stops (b := b) hseg h.length_lt
  have hp : p ≠ 0 → p ∈ l₁ := fun hp => h₁.last_mem fun hl => hp (h₁.last_eq_null_iff.mpr hl)
  have hc : c ≠ 0 → c ∈ l₂ := fun hc => h₂.head_mem fun hl => hc (h₂.eq_null_iff.mpr hl)
  have hbelow : ∀ x ∈ l₁, x + blockSpan ≤ b := by
    intro x hx
    have := hlo x hx
    have := hb x (by simp [hx])
    unfold blockSpan at *
    omega
  obtain ⟨hs₁, hs₂, hs₁₂⟩ := List.pairwise_append.mp h.spaced
  have habove : ∀ x ∈ l₂, b + blockSpan ≤ x := by
    cases l₂ with
    | nil => simp
    | cons y l₂ =>
      have hy : b + blockSpan ≤ y := by
        have hle : b ≤ y := hhi y (by simp)
        have := hb y (by simp)
        unfold blockSpan at *
        omega
      intro x hx
      rcases List.mem_cons.mp hx with rfl | hx
      · exact hy
      · have hyx := (List.pairwise_cons.mp hs₂).1 x hx
        unfold blockSpan at *
        omega
  have hpb : p ≠ 0 → p + blockSpan ≤ b := fun h => hbelow p (hp h)
  have hbc : c ≠ 0 → b + blockSpan ≤ c := fun h => habove c (hc h)
  have hxb : ∀ x ∈ l₁ ++ l₂, x = b ∨ x + blockSpan ≤ b ∨ b + blockSpan ≤ x := fun x hx => Or.inr (hb x hx)
  have hnext : ∀ x ∈ l₁ ++ l₂, (linkIn b p c s).next x =
      if x = b then c else if p ≠ 0 ∧ x = p then b else s.next x := fun x hx =>
    linkIn_next hpb x (hxb x hx) fun h' => h.apart hx (List.mem_append_right _ (hc h'))
  have hprev : ∀ x ∈ l₁ ++ l₂, (linkIn b p c s).prev x =
      if x = b then p else if c ≠ 0 ∧ x = c then b else s.prev x := fun x hx =>
    linkIn_prev hbc x (hxb x hx) fun h' => h.apart hx (List.mem_append_left _ (hp h'))
  have hne : ∀ x ∈ l₁ ++ l₂, x ≠ b := by
    intro x hx
    have := hb x hx
    unfold blockSpan at this
    omega
  refine ⟨linkIn b p c s, l₁ ++ b :: l₂, by rw [heapListInsert, hloop]; rfl, ⟨?_, ?_, ?_⟩, ?_, ?_⟩
  · refine DLinked.insert h₁ h₂ h.nodup h0 ?_ ?_ (fun hp0 => ?_) (fun hc0 => ?_) (fun x hx hxp => ?_)
      (fun x hx hxc => ?_) (fun hp0 => ?_) fun hp0 => ?_
    · rw [linkIn_next hpb b (Or.inl rfl) fun h' => Or.inr (Or.inl (hbc h')), if_pos rfl]
    · rw [linkIn_prev hbc b (Or.inl rfl) fun h' => Or.inr (Or.inr (hpb h')), if_pos rfl]
    · have hmem := List.mem_append_left l₂ (hp hp0)
      rw [hnext p hmem, if_neg (hne p hmem), if_pos ⟨hp0, rfl⟩]
    · have hmem := List.mem_append_right l₁ (hc hc0)
      rw [hprev c hmem, if_neg (hne c hmem), if_pos ⟨hc0, rfl⟩]
    · rw [hnext x hx, if_neg (hne x hx), if_neg (fun h' => hxp h'.2)]
    · rw [hprev x hx, if_neg (hne x hx), if_neg (fun h' => hxc h'.2)]
    · rw [linkIn_head, if_neg (not_not.mpr hp0)]
    · rw [linkIn_head, if_pos hp0]
  · refine List.pairwise_append.mpr ⟨hs₁, List.pairwise_cons.mpr ⟨habove, hs₂⟩, fun x hx y hy => ?_⟩
    rcases List.mem_cons.mp hy with rfl | hy
    · exact hbelow x hx
    · exact hs₁₂ x hx y hy
  · intro x hx
    rcases List.mem_append.mp hx with hx | hx
    · exact h.lt x (by simp [hx])
    · rcases List.mem_cons.mp hx with rfl | hx
      · exact hlt
      · exact h.lt x (by simp [hx])
  · intro x
    simp only [List.mem_append, List.mem_cons]
    exact or_left_comm
  · exact linkIn_relinked (by simp) (fun h' => by simp [hp h']) fun h' => by simp [hc h']

def linkOut (b p c : ℕ) (s : Heap) : Heap :=
  let s := if p ≠ 0 then s.set p 20 c else { s with freeListHead := c }
  let s := if c ≠ 0 then s.set c 16 p else s
  (s.set b 16 0).set b 20 0

section LinkOut

variable {s : Heap} {b p c : ℕ}

theorem heapListRemove_eq (hp : s.prev b ≠ 0 → s.prev b + blockSpan ≤ b) :
    heapListRemove b s = linkOut b (s.prev b) (s.next b) s := by
  unfold heapListRemove linkOut blockSpan at *
  simp only
  by_cases h1 : s.prev b ≠ 0
  · have hkeep : ∀ k, k = 16 ∨ k = 20 → (s.set (s.prev b) 20 (s.next b)).fld b k = s.fld b k := by
      intro k hk
      rw [fld_set, if_neg (by omega)]
    have hprev : (s.set (s.prev b) 20 (s.next b)).prev b = s.prev b := hkeep 16 (Or.inl rfl)
    have hnext : (s.set (s.prev b) 20 (s.next b)).next b = s.next b := hkeep 20 (Or.inr rfl)
    rw [if_pos h1, hprev, hnext]
  · rw [if_neg h1]
    rfl

theorem linkOut_relinked {l : List ℕ} (hb : b ∈ l) (hp : p ≠ 0 → p ∈ l) (hc : c ≠ 0 → c ∈ l) :
    Relinked s (linkOut b p c s) l := by
  have h0 := Relinked.refl s l
  have hlast : ∀ s', Relinked s s' l → Relinked s ((s'.set b 16 0).set b 20 0) l := fun s' h =>
    (h.set hb (Or.inl rfl)).set hb (Or.inr rfl)
  unfold linkOut
  simp only
  refine hlast _ ?_
  split_ifs with h1 h2 h2
  · exact (h0.set (hp h2) (Or.inr rfl)).set (hc h1) (Or.inl rfl)
  · exact (h0.head c).set (hc h1) (Or.inl rfl)
  · exact h0.set (hp h2) (Or.inr rfl)
  · exact h0.head c

theorem linkOut_next {x : ℕ} (hb : x + blockSpan ≤ b ∨ b + blockSpan ≤ x)
    (hc : c ≠ 0 → x = c ∨ x + blockSpan ≤ c ∨ c + blockSpan ≤ x) :
    (linkOut b p c s).next x = if p ≠ 0 ∧ x = p then c else s.next x := by
  unfold blockSpan at *
  rw [Heap.next, linkOut, fld_set, fld_set, if_neg (by omega), if_neg (by omega), fld_setIf, fld_setOrHead,
    if_neg (fun h => by have := hc h.1; omega)]
  simp only [Nat.add_right_cancel_iff]
  rfl

theorem linkOut_prev {x : ℕ} (hb : x + blockSpan ≤ b ∨ b + blockSpan ≤ x)
    (hp : p ≠ 0 → x = p ∨ x + blockSpan ≤ p ∨ p + blockSpan ≤ x) :
    (linkOut b p c s).prev x = if c ≠ 0 ∧ x = c then p else s.prev x := by
  unfold blockSpan at *
  rw [Heap.prev, linkOut, fld_set, fld_set, if_neg (by omega), if_neg (by omega), fld_setIf, fld_setOrHead,
    if_neg (show ¬(p ≠ 0 ∧ x + 16 = p + 20) from fun h => by have := hp h.1; omega)]
  simp only [Nat.add_right_cancel_iff]
  rfl

theorem linkOut_head : (linkOut b p c s).freeListHead = if p ≠ 0 then s.freeListHead else c := by
  unfold linkOut
  simp only
  split_ifs <;> rfl

end LinkOut

theorem heapListRemove_spec {s : Heap} {fl : List ℕ} {b : ℕ} (h : FreeList s fl) (hb : b ∈ fl) :
    ∃ fl', FreeList (heapListRemove b s) fl' ∧ (∀ x, x ∈ fl' ↔ x ≠ b ∧ x ∈ fl) ∧
      Relinked s (heapListRemove b s) fl := by
  obtain ⟨l₁, l₂, rfl⟩ := List.append_of_mem hb
  obtain ⟨q, h₁, h₂⟩ := h.linked.around
  have hp : s.prev b ≠ 0 → s.prev b ∈ l₁ := fun hp => h₁.last_mem fun hl => hp (h₁.last_eq_null_iff.mpr hl)
  have hc : s.next b ≠ 0 → s.next b ∈ l₂ := fun hc => h₂.head_mem fun hl => hc (h₂.eq_null_iff.mpr hl)
  have hin : ∀ x ∈ l₁ ++ l₂, x ∈ l₁ ++ b :: l₂ := by
    intro x hx
    simp only [List.mem_append, List.mem_cons] at hx ⊢
    exact hx.imp_right Or.inr
  obtain ⟨hs₁, hs₂, hs₁₂⟩ := List.pairwise_append.mp h.spaced
  have hxb : ∀ x ∈ l₁ ++ l₂, x + blockSpan ≤ b ∨ b + blockSpan ≤ x := by
    intro x hx
    rcases List.mem_append.mp hx with hx | hx
    · exact Or.inl (hs₁₂ x hx b (by simp))
    · exact Or.inr ((List.pairwise_cons.mp hs₂).1 x hx)
  have hpb : s.prev b ≠ 0 → s.prev b + blockSpan ≤ b := fun h' => hs₁₂ _ (hp h') b (by simp)
  have hpm : s.prev b ≠ 0 → s.prev b ∈ l₁ ++ b :: l₂ := fun h' => hin _ (List.mem_append_left _ (hp h'))
  have hcm : s.next b ≠ 0 → s.next b ∈ l₁ ++ b :: l₂ := fun h' => hin _ (List.mem_append_right _ (hc h'))
  rw [heapListRemove_eq hpb]
  have hnext : ∀ x ∈ l₁ ++ l₂, (linkOut b (s.prev b) (s.next b) s).next x =
      if s.prev b ≠ 0 ∧ x = s.prev b then s.next b else s.next x := fun x hx =>
    linkOut_next (hxb x hx) fun h' => h.apart (hin x hx) (hcm h')
  have hprev : ∀ x ∈ l₁ ++ l₂, (linkOut b (s.prev b) (s.next b) s).prev x =
      if s.next b ≠ 0 ∧ x = s.next b then s.prev b else s.prev x := fun x hx =>
    linkOut_prev (hxb x hx) fun h' => h.apart (hin x hx) (hpm h')
  refine ⟨l₁ ++ l₂, ⟨?_, ?_, fun x hx => h.lt x (hin x hx)⟩, fun x => ?_, linkOut_relinked hb hpm hcm⟩
  · refine DLinked.unlink h₁ h₂ h.nodup (fun hp0 => ?_) (fun hc0 => ?_) (fun x hx hxp => ?_)
      (fun x hx hxc => ?_) (fun hp0 => ?_) fun hp0 => ?_
    · rw [hnext _ (List.mem_append_left _ (hp hp0)), if_pos ⟨hp0, rfl⟩]
    · rw [hprev _ (List.mem_append_right _ (hc hc0)), if_pos ⟨hc0, rfl⟩]
    · rw [hnext x hx, if_neg (fun h' => hxp h'.2)]
    · rw [hprev x hx, if_neg (fun h' => hxc h'.2)]
    · rw [linkOut_head, if_neg (not_not.mpr hp0)]
    · rw [linkOut_head, if_pos hp0]
  · exact List.pairwise_append.mpr ⟨hs₁, (List.pairwise_cons.mp hs₂).2, fun x hx y hy => hs₁₂ x hx y (by simp [hy])⟩
  · have hnb : x ∈ l₁ ++ l₂ → x ≠ b := by
      intro hx
      have := hxb x hx
      unfold blockSpan at this
      omega
    constructor
    · intro hx
      exact ⟨hnb hx, hin x hx⟩
    · rintro ⟨hne, hx⟩
      simpa [hne] using hx

theorem findLoop_stops {s : Heap} {n p h q : ℕ} {l : List ℕ} (size : ℕ)
    (hl : DSeg s.next s.prev 0 p h l q 0) (hn : l.length < n) :
    findLoop s size n h = some 0 ∧ (∀ b ∈ l, s.size b < size) ∨
      ∃ b ∈ l, findLoop s size n h = some b ∧ size ≤ s.size b := by
  induction n generalizing p h l with
  | zero => omega
  | succ n ih =>
    rw [findLoop]
    cases l with
    | nil =>
      obtain ⟨rfl, -⟩ := hl
      simp
    | cons a l =>
      obtain ⟨rfl, ha, -, hr⟩ := hl
      rw [if_neg ha]
      by_cases hfit : s.size h ≥ size
      · rw [if_pos hfit]
        exact Or.inr ⟨h, by simp, rfl, hfit⟩
      · rw [if_neg hfit]
        rcases ih hr (by simpa using hn) with ⟨hnone, hsmall⟩ | ⟨b, hb, hfound, hsize⟩
        · exact Or.inl ⟨hnone, List.forall_mem_cons.mpr ⟨Nat.lt_of_not_le hfit, hsmall⟩⟩
        · exact Or.inr ⟨b, by simp [hb], hfound, hsize⟩

theorem heapFindFree_cases {s : Heap} {fl : List ℕ} (h : FreeList s fl) (size : ℕ) :
    heapFindFree size s = some (s, 0) ∧ (∀ b ∈ fl, s.size b < size) ∨
      ∃ b ∈ fl, heapFindFree size s = some (heapListRemove b s, b) ∧ size ≤ s.size b := by
  obtain ⟨q, hseg⟩ := h.linked
  rw [heapFindFree]
  rcases findLoop_stops size hseg h.length_lt with ⟨hnone, hsmall⟩ | ⟨b, hb, hfound, hsize⟩
  · left
    rw [hnone]
    simp only [Option.map_some, ne_eq, not_true, if_false]
    exact ⟨trivial, hsmall⟩
  · right
    refine ⟨b, hb, ?_, hsize⟩
    rw [hfound]
    simp only [Option.map_some, ne_eq, h.ne_zero hb, not_false_eq_true, if_true]

end Novium.Mm
