import Novium.Mm.WellFormed

/-! What `kmalloc` writes. The calls below it are followed address by address: they write
inside the block that is cut, the `PrevSize` behind it, and the link words of the free
list. That they return at all needs no more than a sound free list beside the block. -/

namespace Novium.Mm

open Novium.Lib

/-- Addresses that a cut of the block `b` of `z` bytes leaves alone. -/
def Beyond (fl : List ℕ) (b z a : ℕ) : Prop :=
  (a < b ∨ b + z ≤ a) ∧ a ≠ u32 (b + z) + 8 ∧ ∀ x ∈ fl, a ≠ x + 16 ∧ a ≠ x + 20

section

variable {s s' : Heap} {fl : List ℕ} {b size : ℕ}

theorem FreeList.stamp {n v : ℕ} (h : FreeList s fl) (hn : ∀ x ∈ fl, x + 16 ≠ n + 8 ∧ x + 20 ≠ n + 8) :
    FreeList (stampPrevSize b n v s) fl := by
  rcases stampPrevSize_eq b n v s with he | he
  · rw [he]
    exact h
  · rw [he]
    refine h.congr rfl (fun x hx => ?_) fun x hx => ?_
    · rw [Heap.next, fld_set, if_neg (hn x hx).2]
      rfl
    · rw [Heap.prev, fld_set, if_neg (hn x hx).1]
      rfl

theorem u32_end {z : ℕ} (htop : b + z ≤ 2 ^ 32) : u32 (b + z) = b + z ∨ u32 (b + z) = 0 ∧ b + z = 2 ^ 32 := by
  unfold u32
  omega

theorem heapSplit_writes (hl : FreeList s fl) (hb : ∀ x ∈ fl, x + blockSpan ≤ b ∨ b + s.size b ≤ x) (h0 : pageSize ≤ b)
    (htop : b + s.size b ≤ 2 ^ 32) (hs : blockSpan ≤ size) (hle : size ≤ s.size b) :
    ∃ s', heapSplit b size s = some s' ∧
      (s'.size b = s.size b ∨ s'.size b = size ∧ size + blockSpan ≤ s.size b) ∧
      ∀ a, Beyond fl b (s.size b) a → s'.mem a = s.mem a := by
  have hsub : sub32 (s.size b) size = s.size b - size := sub32_of_le hle (by unfold pageSize at h0; omega)
  unfold heapSplit
  simp only [hsub]
  split_ifs with hsmall
  · exact ⟨s, rfl, .inl rfl, fun _ _ => rfl⟩
  have hfit : size + blockSpan ≤ s.size b := by
    unfold heapAlign metaSize at hsmall
    unfold blockSpan
    omega
  have hrest : u32 (b + size) = b + size := u32_of_lt (by unfold blockSpan at *; omega)
  have hend : b + size + (s.size b - size) = b + s.size b := by omega
  rw [hrest, hend]
  -- the free list survives the three writes before the insertion
  have h₁ : FreeList (s.setMeta (b + size) heapMagic (s.size b - size) size 1) fl := by
    refine hl.setMeta fun x hx => .inr ?_
    have := hb x hx
    omega
  have h₂ : FreeList (stampPrevSize b (u32 (b + s.size b)) (s.size b - size)
      (s.setMeta (b + size) heapMagic (s.size b - size) size 1)) fl := by
    refine h₁.stamp fun x hx => ?_
    have := hb x hx
    have := u32_end htop
    unfold blockSpan at *
    omega
  have h₃ := h₂.set (b := b) (k := 4) (v := size) (by decide) fun x hx => by
    have := hb x hx
    omega
  obtain ⟨s', fl', hins, -, -, hrel⟩ := heapListInsert_spec h₃ (b := b + size) (by unfold pageSize at h0; omega)
    (by unfold blockSpan at *; omega) fun x hx => by
      have := hb x hx
      omega
  refine ⟨s', hins, .inr ⟨?_, hfit⟩, fun a ha => ?_⟩
  · have hz := hrel.mem (a := b + 4) fun x hx => by
      rcases List.mem_cons.mp hx with rfl | hx
      · unfold blockSpan at *
        omega
      · have := hb x hx
        unfold blockSpan at *
        omega
    refine hz.trans ?_
    exact Function.update_self _ _ _
  · obtain ⟨hout, hstamp, hlinks⟩ := ha
    have hins : s'.mem a = _ := hrel.mem fun x hx => by
      rcases List.mem_cons.mp hx with rfl | hx
      · unfold blockSpan at *
        omega
      · exact hlinks x hx
    rw [hins, set_mem (by unfold blockSpan at *; omega), stampPrevSize_mem hstamp,
      setMeta_mem (by unfold blockSpan metaSize at *; omega)]

theorem kmallocCut_writes (hl : FreeList s fl) (hb : ∀ x ∈ fl, x + blockSpan ≤ b ∨ b + s.size b ≤ x) (h0 : pageSize ≤ b)
    (htop : b + s.size b ≤ 2 ^ 32) (hs : blockSpan ≤ size) (hle : size ≤ s.size b) :
    ∃ s', kmallocCut b size s = some (s', b + metaSize) ∧ size ≤ s'.size b ∧
      ∀ a, Beyond fl b (s.size b) a → s'.mem a = s.mem a := by
  have hcut : ∃ s₁, (if s.size b > size then heapSplit b size s else some (s.set b 4 size)) = some s₁ ∧
      (s₁.size b = s.size b ∨ s₁.size b = size ∧ size + blockSpan ≤ s.size b) ∧
      ∀ a, Beyond fl b (s.size b) a → s₁.mem a = s.mem a := by
    split_ifs with hgt
    · exact heapSplit_writes hl hb h0 htop hs hle
    · refine ⟨_, rfl, .inl ?_, fun a ha => set_mem ?_⟩
      · have hz : (s.set b 4 size).size b = size := Function.update_self _ _ _
        rw [hz]
        omega
      · have := ha.1
        unfold blockSpan at *
        omega
  obtain ⟨s₁, hs₁, hz₁, hmem⟩ := hcut
  have hz : ((s₁.set b 0 heapMagic).set b 12 0).size b = s₁.size b := by simp [Heap.size, fld_set]
  have hptr : u32 (b + metaSize) = b + metaSize := u32_of_lt (by unfold metaSize blockSpan at *; omega)
  unfold kmallocCut
  rw [hs₁]
  simp only [Option.bind_eq_bind, Option.bind_some, hz, hptr]
  -- the second stamp is behind the block, or in the remainder that was cut off
  have hstamp : u32 (b + s₁.size b) + 8 ≠ b + 4 ∧ ∀ a, Beyond fl b (s.size b) a → a ≠ u32 (b + s₁.size b) + 8 := by
    rcases hz₁ with hz₁ | ⟨hz₁, hfit⟩
    · rw [hz₁]
      refine ⟨?_, fun a ha => ha.2.1⟩
      have := u32_end htop
      unfold pageSize blockSpan at *
      omega
    · rw [hz₁, u32_of_lt (show b + size < 2 ^ 32 by unfold blockSpan at *; omega)]
      refine ⟨by unfold blockSpan at *; omega, fun a ha => ?_⟩
      have := ha.1
      unfold blockSpan at *
      omega
  refine ⟨_, rfl, ?_, fun a ha => ?_⟩
  · rw [Heap.size, Heap.fld, stampPrevSize_mem hstamp.1.symm]
    change size ≤ ((s₁.set b 0 heapMagic).set b 12 0).size b
    rw [hz]
    omega
  · have hout := ha.1
    rw [stampPrevSize_mem (hstamp.2 a ha), set_mem (by unfold blockSpan at *; omega),
      set_mem (by unfold blockSpan at *; omega), hmem a ha]

end

/-- `b` was taken off the free list, or its pages off the page allocator, and has at least `size` bytes. -/
structure Supplied (s s₁ : Heap) (fl : List ℕ) (b size : ℕ) : Prop where
  low : pageSize ≤ b
  top : b + s₁.size b ≤ 2 ^ 32
  aligned : 8 ∣ b + s₁.size b
  enough : size ≤ s₁.size b
  list : ∃ fl₁, FreeList s₁ fl₁ ∧ ∀ x ∈ fl₁, x ∈ fl ∧ (x + blockSpan ≤ b ∨ b + s₁.size b ≤ x)
  mem : ∀ a, a < b ∨ b + s₁.size b ≤ a → (∀ x ∈ fl, a ≠ x + 16 ∧ a ≠ x + 20) → s₁.mem a = s.mem a
  source : b ∈ fl ∧ s₁.size b = s.size b ∨ ∀ sg ∈ s.segments, sg.stop ≤ b ∨ b + s₁.size b ≤ sg.base

section

variable {s : Heap} {fl : List ℕ} {blocks : Segment → List ℕ} {b size pages : ℕ}

theorem heapListRemove_supplied (h : WellFormed s blocks fl) (hb : b ∈ fl) (hle : size ≤ s.size b) :
    Supplied s (heapListRemove b s) fl b size := by
  obtain ⟨sg, hsg, hlo, hhi, hspan, hdvd, hlow⟩ := h.within (h.block_of_mem hb)
  obtain ⟨fl₁, hlist, hmem, hrel⟩ := heapListRemove_spec h.freeList hb
  have hapart : ∀ x ∈ fl, x ≠ b → x + blockSpan ≤ b ∨ b + s.size b ≤ x := by
    intro x hx hne
    obtain ⟨-, -, -, -, hxspan, -⟩ := h.within (h.block_of_mem hx)
    have := h.apart (h.block_of_mem hx) (h.block_of_mem hb)
    omega
  have hz : (heapListRemove b s).size b = s.size b := by
    refine hrel.mem fun x hx => ?_
    by_cases hxb : x = b
    · omega
    · have := hapart x hx hxb
      unfold blockSpan at *
      omega
  have hlt := h.placed.lt sg hsg
  refine ⟨hlow, by omega, by omega, by omega, ⟨fl₁, hlist, fun x hx => ?_⟩, fun a _ ha => hrel.mem ha, .inl ⟨hb, hz⟩⟩
  obtain ⟨hne, hx⟩ := (hmem x).mp hx
  rw [hz]
  exact ⟨hx, hapart x hx hne⟩

/-- `HeapGrow` with the pages that it got: a new block on the free list, beside the other segments. -/
theorem heapGrow_writes (h : WellFormed s blocks fl) (hlen : s.segments.length < heapSegmentCap) {ps : Pages} {addr : ℕ}
    (ha : pageAllocPagesAt (heapGrowthHint s) pages s.pages = (ps, addr)) (h0 : addr ≠ 0)
    (ht : Took s.pages ps addr pages) :
    (∀ sg ∈ s.segments, sg.stop ≤ addr ∨ addr + pages * pageSize ≤ sg.base) ∧
      ∃ s' fl', heapGrow pages s = some (s', addr) ∧ FreeList s' fl' ∧ (∀ x, x ∈ fl' ↔ x = addr ∨ x ∈ fl) ∧
        s'.size addr = pages * pageSize ∧
        ∀ a, a < addr ∨ addr + blockSpan ≤ a → (∀ x ∈ fl, a ≠ x + 16 ∧ a ≠ x + 20) → s'.mem a = s.mem a := by
  have ho : Owned s [] := ⟨h.used, by simp, by simp⟩
  have hbeside := ho.beside h.placed ht
  have hal := ht.aligned
  have hpos := ht.pos
  have hfits := ht.fits
  have hlow : pageSize ≤ addr ∧ addr + pages * pageSize ≤ 2 ^ 32 ∧ blockSpan ≤ pages * pageSize := by
    unfold pageSize pageCount blockSpan at *
    omega
  have hz : u32 (pages * pageSize) = pages * pageSize := u32_of_lt (by unfold pageSize at *; omega)
  have hapart : ∀ x ∈ fl, x + blockSpan ≤ addr ∨ addr + blockSpan ≤ x := by
    intro x hx
    have := h.nodes_beside hbeside x hx
    omega
  refine ⟨hbeside, ?_⟩
  have hlist : FreeList (addSegment addr pages { s with pages := ps }) fl := by
    have h₁ : FreeList ({ s with pages := ps } : Heap) fl := h.freeList.congr rfl (fun _ _ => rfl) fun _ _ => rfl
    have h₂ := h₁.setMeta (b := addr) (m := heapMagic) (z := u32 (pages * pageSize)) (p := 0) (f := 1)
      fun x hx => .inr (hapart x hx)
    exact h₂.congr rfl (fun _ _ => rfl) fun _ _ => rfl
  obtain ⟨s', fl', hins, hlist', hmem, hrel⟩ := heapListInsert_spec hlist h0 (by unfold blockSpan at *; omega) hapart
  refine ⟨s', fl', ?_, hlist', hmem, ?_, fun a hout hlinks => ?_⟩
  · rw [heapGrow, if_neg (Nat.not_le.mpr hlen), ha]
    simp only [if_neg h0, hins, Option.map_some]
  · have hsize : s'.mem (addr + 4) = _ := hrel.mem fun x hx => by
      rcases List.mem_cons.mp hx with rfl | hx
      · omega
      · have := hapart x hx
        unfold blockSpan at *
        omega
    refine hsize.trans ?_
    have hhead := header_setMeta ({ s with pages := ps } : Heap) addr heapMagic (u32 (pages * pageSize)) 0 1
    exact (congrArg (fun x => x.2.1) hhead).trans hz
  · have hins : s'.mem a = _ := hrel.mem fun x hx => by
      rcases List.mem_cons.mp hx with rfl | hx
      · unfold blockSpan at hout
        omega
      · exact hlinks x hx
    refine hins.trans ?_
    exact setMeta_mem (s := { s with pages := ps }) (by unfold blockSpan metaSize at *; omega)

theorem heapGrow_supplied (h : WellFormed s blocks fl) (hlen : s.segments.length < heapSegmentCap) {ps : Pages} {addr : ℕ}
    (ha : pageAllocPagesAt (heapGrowthHint s) pages s.pages = (ps, addr)) (h0 : addr ≠ 0) (hle : size ≤ pages * pageSize)
    (ht : Took s.pages ps addr pages) :
    ∃ s', heapGrow pages s = some (s', addr) ∧ Supplied s (heapListRemove addr s') fl addr size := by
  obtain ⟨hbeside, s', fl', hgrow, hlist, hmem, hz, hframe⟩ := heapGrow_writes h hlen ha h0 ht
  obtain ⟨fl₁, hlist₁, hmem₁, hrel⟩ := heapListRemove_spec hlist ((hmem addr).mpr (.inl rfl))
  have hal := ht.aligned
  have hpos := ht.pos
  have hfits := ht.fits
  have hapart := h.nodes_beside hbeside
  have hz₁ : (heapListRemove addr s').size addr = pages * pageSize := by
    rw [← hz]
    refine hrel.mem fun x hx => ?_
    rcases (hmem x).mp hx with rfl | hx
    · omega
    · have := hapart x hx
      unfold blockSpan pageSize at *
      omega
  have hbounds : pageSize ≤ addr ∧ addr + pages * pageSize ≤ 2 ^ 32 ∧ 8 ∣ addr + pages * pageSize := by
    unfold pageSize pageCount at *
    omega
  rw [← hz₁] at hbounds
  refine ⟨s', hgrow, hbounds.1, hbounds.2.1, hbounds.2.2, by rw [hz₁]; exact hle, ⟨fl₁, hlist₁, fun x hx => ?_⟩,
    fun a hout hlinks => ?_, .inr (by rw [hz₁]; exact hbeside)⟩
  · obtain ⟨hne, hx⟩ := (hmem₁ x).mp hx
    have hx := ((hmem x).mp hx).resolve_left hne
    rw [hz₁]
    exact ⟨hx, hapart x hx⟩
  · rw [hz₁] at hout
    have hout' : a < addr ∨ addr + blockSpan ≤ a := by
      unfold blockSpan pageSize at *
      omega
    rw [hrel.mem fun x hx => ?_]
    · exact hframe a hout' hlinks
    · rcases (hmem x).mp hx with rfl | hx
      · unfold blockSpan at hout'
        omega
      · exact hlinks x hx

/-- The number of pages that `kmalloc` asks for, for blocks of `total` bytes. -/
def growPages (total : ℕ) : ℕ := u32 (total + pageSize - 1) / pageSize

theorem kmallocBlock_cases (h : WellFormed s blocks fl) (hlt : size < 2 ^ 32) :
    ((∃ b ∈ fl, size ≤ s.size b) ∧ ∃ s₁ b, kmallocBlock size s = some (s₁, b) ∧ Supplied s s₁ fl b size) ∨
    (∀ b ∈ fl, s.size b < size) ∧
      (heapSegmentCap ≤ s.segments.length ∧ kmallocBlock size s = some (s, 0) ∨
        s.segments.length < heapSegmentCap ∧
          ((pageAllocPagesAt (heapGrowthHint s) (growPages size) s.pages).2 = 0 ∧
              kmallocBlock size s =
                some ({ s with pages := (pageAllocPagesAt (heapGrowthHint s) (growPages size) s.pages).1 }, 0) ∨
            (pageAllocPagesAt (heapGrowthHint s) (growPages size) s.pages).2 ≠ 0 ∧
              ∃ s₁ b, kmallocBlock size s = some (s₁, b) ∧ Supplied s s₁ fl b size)) := by
  unfold kmallocBlock
  rcases heapFindFree_cases h.freeList size with ⟨hnone, hsmall⟩ | ⟨b, hb, hfound, hle⟩
  · refine .inr ⟨hsmall, ?_⟩
    simp only [hnone, Option.bind_eq_bind, Option.bind_some, if_true]
    by_cases hlen : heapSegmentCap ≤ s.segments.length
    · refine .inl ⟨hlen, ?_⟩
      simp only [heapGrow, if_pos hlen, Option.bind_some, if_true]
    · have hlen := Nat.lt_of_not_le hlen
      refine .inr ⟨hlen, ?_⟩
      rw [← growPages]
      by_cases h0 : (pageAllocPagesAt (heapGrowthHint s) (growPages size) s.pages).2 = 0
      · refine .inl ⟨h0, ?_⟩
        simp only [heapGrow, if_neg (Nat.not_le.mpr hlen), h0, if_true, Option.bind_some]
      · refine .inr ⟨h0, ?_⟩
        rcases pageAllocPagesAt_cases (heapGrowthHint s) (growPages size) s.pages with hfail | ⟨ps, addr, ha, ht⟩
        · rw [hfail] at h0
          exact absurd rfl h0
        · rw [ha] at h0
          have hpos := ht.pos
          have hle : size ≤ growPages size * pageSize := by
            unfold growPages u32 pageSize at *
            omega
          obtain ⟨s', hgrow, hsup⟩ := heapGrow_supplied h hlen ha h0 hle ht
          refine ⟨_, addr, ?_, hsup⟩
          simp only [hgrow, Option.bind_some, if_neg h0]
  · have hb0 := h.freeList.ne_zero hb
    refine .inl ⟨⟨b, hb, hle⟩, _, b, ?_, heapListRemove_supplied h hb hle⟩
    simp only [hfound, Option.bind_eq_bind, Option.bind_some, if_neg hb0]

theorem Supplied.cut {s₁ : Heap} (h : Supplied s s₁ fl b size) (hs : blockSpan ≤ size) :
    ∃ s', kmallocCut b size s₁ = some (s', b + metaSize) ∧ size ≤ s'.size b ∧
      ∀ a, Beyond fl b (s₁.size b) a → s'.mem a = s.mem a := by
  obtain ⟨fl₁, hlist, hfl⟩ := h.list
  obtain ⟨s', hcut, hz, hmem⟩ := kmallocCut_writes hlist (fun x hx => (hfl x hx).2) h.low h.top hs h.enough
  refine ⟨s', hcut, hz, fun a ha => ?_⟩
  rw [hmem a ⟨ha.1, ha.2.1, fun x hx => ha.2.2 x (hfl x hx).1⟩]
  exact h.mem a ha.1 ha.2.2

end

end Novium.Mm
