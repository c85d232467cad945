import Novium.Mm.KmallocWrites

/-! `kmalloc` on a well-formed heap: the block that it returns, and what becomes of the
blocks that were live before. That the heap stays well formed is `kmalloc_spec`; that the
others keep their sizes and their contents follows from what is written. -/

namespace Novium.Mm

open Novium.Lib

section

variable {s s' : Heap} {fl : List ℕ} {blocks : Segment → List ℕ} {b c size p : ℕ}

theorem kmalloc_writes (h : WellFormed s blocks fl) (hrun : kmalloc size s = some (s', p)) (hp : p ≠ 0) :
    ∃ s₁ b total, p = b + metaSize ∧ Supplied s s₁ fl b total ∧ size + metaSize ≤ total ∧ total ≤ s'.size b ∧
      ∀ a, Beyond fl b (s₁.size b) a → s'.mem a = s.mem a := by
  unfold kmalloc at hrun
  split_ifs at hrun with h0 hbig
  · cases hrun
    exact absurd rfl hp
  · cases hrun
    exact absurd rfl hp
  have htotal : size + metaSize ≤ heapAlignUp (size + metaSize) ∧ blockSpan ≤ heapAlignUp (size + metaSize) ∧
      heapAlignUp (size + metaSize) < 2 ^ 32 := by
    unfold heapAlignUp u32 heapAlign metaSize blockSpan at *
    omega
  have hfail : ∀ s₀, kmallocBlock (heapAlignUp (size + metaSize)) s ≠ some (s₀, 0) := by
    intro s₀ hblock
    simp only [hblock, Option.bind_eq_bind, Option.bind_some, if_true] at hrun
    cases hrun
    exact hp rfl
  obtain ⟨s₁, b, hblock, hsup⟩ : ∃ s₁ b, kmallocBlock (heapAlignUp (size + metaSize)) s = some (s₁, b) ∧
      Supplied s s₁ fl b (heapAlignUp (size + metaSize)) := by
    rcases kmallocBlock_cases h htotal.2.2 with ⟨-, hsup⟩ | ⟨-, ⟨-, hnone⟩ | ⟨-, ⟨-, hnone⟩ | ⟨-, hsup⟩⟩⟩
    · exact hsup
    · exact absurd hnone (hfail _)
    · exact absurd hnone (hfail _)
    · exact hsup
  obtain ⟨s₂, hcut, hz, hmem⟩ := hsup.cut htotal.2.1
  have hb0 : b ≠ 0 := by
    rintro rfl
    exact hfail _ hblock
  simp only [hblock, Option.bind_eq_bind, Option.bind_some, if_neg hb0, hcut] at hrun
  cases hrun
  exact ⟨s₁, b, _, rfl, hsup, htotal.1, hz, hmem⟩

theorem Supplied.beside {s₁ : Heap} {total : ℕ} (hs : Supplied s s₁ fl b total) (h : WellFormed s blocks fl)
    (hc : IsLive s blocks c) : c + s.size c ≤ b ∨ b + s₁.size b ≤ c := by
  rcases hs.source with ⟨hb, hz⟩ | hbeside
  · have hne := h.live_ne hc hb
    have := h.apart hc.1 (h.block_of_mem hb)
    omega
  · obtain ⟨sg, hsg, hlo, hhi, -⟩ := h.within hc.1
    have := hbeside sg hsg
    omega

/-- Neither the `Size` nor the payload of a live block is among the addresses that are written: of its header,
the `PrevSize` may be. -/
theorem Supplied.beyond {s₁ : Heap} {total a : ℕ} (hs : Supplied s s₁ fl b total) (h : WellFormed s blocks fl)
    (hc : IsLive s blocks c) (ha : a = c + 4 ∨ c + metaSize ≤ a ∧ a < c + s.size c) : Beyond fl b (s₁.size b) a := by
  have hbeside := hs.beside h hc
  obtain ⟨sg, hsg, hlo, hhi, hspan, hdvd, hlow⟩ := h.within hc.1
  have hal := hs.aligned
  have hend := u32_end hs.top
  unfold metaSize at ha
  unfold blockSpan at hspan
  unfold pageSize at hlow
  refine ⟨by omega, by omega, fun x hx => ?_⟩
  have hne := h.live_ne hc hx
  obtain ⟨-, -, -, -, hxspan, -⟩ := h.within (h.block_of_mem hx)
  have := h.apart (h.block_of_mem hx) hc.1
  unfold blockSpan at hxspan
  omega

theorem mallocsBelow_of_last (hlast : s.pages.free (pageCount - 1) = false) (size : ℕ) : MallocsBelow s size := by
  intro _ _ _ _ hend
  have hpages : kmallocPages size < pageCount := by
    unfold kmallocPages u32 pageSize pageCount
    omega
  rcases pageAllocPagesAt_cases (heapGrowthHint s) (kmallocPages size) s.pages with hfail | ⟨ps, addr, hsome, ht⟩
  · rw [hfail] at hend
    unfold pageSize pageCount at *
    omega
  · rw [hsome] at hend
    have hal := ht.aligned
    have hpos := ht.pos
    have hfree := ht.were (pageCount - 1)
    rw [hlast] at hfree
    have hlo : addr / pageSize ≤ pageCount - 1 := by
      unfold pageSize pageCount at *
      omega
    have hhi : pageCount - 1 < addr / pageSize + kmallocPages size := by
      unfold pageSize pageCount at *
      omega
    exact absurd (hfree hlo hhi) (by decide)

/-- On every well-formed heap `kmalloc` returns and leaves a well-formed heap. A pointer that is not 0 is aligned,
its block is large enough, lies in one segment and beside the blocks that were live, is the one live block more,
and the others keep their `Size` and their payload. -/
theorem kmalloc_wellFormed (size : ℕ) (h : WellFormed s blocks fl) (hlast : s.pages.free (pageCount - 1) = false) :
    ∃ s' p blocks' fl', kmalloc size s = some (s', p) ∧ WellFormed s' blocks' fl' ∧
      s'.pages.free (pageCount - 1) = false ∧
      (p ≠ 0 → 8 ∣ p ∧ metaSize ≤ p ∧ IsBlock s' blocks' (p - metaSize) ∧
        size ≤ s'.size (p - metaSize) - metaSize ∧
        (∃ sg ∈ s'.segments, sg.base ≤ p - metaSize ∧ p - metaSize + s'.size (p - metaSize) ≤ sg.stop) ∧
        (∀ c, IsLive s blocks c → c + s.size c ≤ p - metaSize ∨ p - metaSize + s'.size (p - metaSize) ≤ c) ∧
        (∀ c, IsLive s' blocks' c ↔ c = p - metaSize ∨ IsLive s blocks c) ∧
        ∀ c, IsLive s blocks c → s'.size c = s.size c ∧
          ∀ a, c + metaSize ≤ a → a < c + s.size c → s'.mem a = s.mem a) := by
  obtain ⟨s', p, hrun, ho, fl', blocks', hl⟩ := kmalloc_spec h.laid (h.owned hlast) (mallocsBelow_of_last hlast size)
  have h' := hl.wellFormed ho
  refine ⟨s', p, blocks', fl', hrun, h', ho.used _ (by simp), fun hp => ?_⟩
  obtain ⟨s₁, b, total, rfl, hsup, hsize, htotal, hmem⟩ := kmalloc_writes h hrun hp
  rw [if_neg hp] at hl
  rw [Nat.add_sub_cancel]
  have hlive : ∀ c, IsLive s' blocks' c ↔ c = b ∨ IsLive s blocks c := by
    intro c
    have hmem := hl.mem_live (c + metaSize)
    rw [List.mem_cons, pointer_mem_livePointers, Nat.add_right_cancel_iff] at hmem
    rw [hmem, ← mem_livePointers, pointer_mem_livePointers]
  have hb : IsLive s' blocks' b := (hlive b).mpr (.inl rfl)
  obtain ⟨sg, hsg, hlo, hhi, -, hdvd, -⟩ := h'.within hb.1
  have hkeep : ∀ c, IsLive s blocks c → s'.size c = s.size c ∧
      ∀ a, c + metaSize ≤ a → a < c + s.size c → s'.mem a = s.mem a := fun c hc =>
    ⟨hmem (c + 4) (hsup.beyond h hc (.inl rfl)), fun a ha ha' => hmem a (hsup.beyond h hc (.inr ⟨ha, ha'⟩))⟩
  refine ⟨?_, Nat.le_add_left _ _, hb.1, by omega, ⟨sg, hsg, hlo, hhi⟩, fun c hc => ?_, hlive, hkeep⟩
  · unfold metaSize
    omega
  · have hne : c ≠ b := by
      have := hsup.beside h hc
      have := hsup.enough
      obtain ⟨-, -, -, -, hspan, -⟩ := h.within hc.1
      unfold metaSize blockSpan at *
      omega
    have hc' : IsLive s' blocks' c := (hlive c).mpr (.inr hc)
    have := h'.apart hc'.1 hb.1
    rw [(hkeep c hc).1] at this
    omega

end

/-- A block of 120 bytes that was freed is cut for 50, before the live block behind it. -/
theorem kmalloc_wellFormed_reused :
    ∃ s blocks fl, WellFormed s blocks fl ∧ s.pages.free (pageCount - 1) = false ∧ IsLive s blocks 0x101078 ∧
      ∃ s', kmalloc 50 s = some (s', 0x101010) ∧ 50 ≤ s'.size 0x101000 - metaSize ∧
        s'.size 0x101078 = s.size 0x101078 ∧
        ∀ a, 0x101088 ≤ a → a < 0x101078 + s.size 0x101078 → s'.mem a = s.mem a := by
  obtain ⟨w, -, hw, hp⟩ := System.exists_reachableIf Sound bootWorld_init
    [.heapInit, .kmalloc 100, .kmalloc 200, .store 0x101088 7, .kfree 0x101010]
    (fun w => w.heap.pages.free (pageCount - 1) = false ∧ w.live = [0x101088] ∧
      (kmalloc 50 w.heap).map Prod.snd = some 0x101010) (by decide +kernel)
  obtain ⟨hlast, hlive, hret⟩ := of_decide_eq_true hp
  obtain ⟨blocks, fl, hwf, hheld⟩ := reachable_wellFormed hw
  have hc : IsLive w.heap blocks 0x101078 := by
    rw [← hheld, hlive]
    decide
  obtain ⟨s', p, blocks', fl', hrun, -, -, hspec⟩ := kmalloc_wellFormed 50 hwf hlast
  rw [hrun] at hret
  obtain rfl : p = 0x101010 := Option.some.inj hret
  obtain ⟨-, -, -, hsize, -, -, -, hkeep⟩ := hspec (by decide)
  obtain ⟨hz, hmem⟩ := hkeep 0x101078 hc
  exact ⟨w.heap, blocks, fl, hwf, hlast, hc, s', hrun, hsize, hz, hmem⟩

end Novium.Mm
