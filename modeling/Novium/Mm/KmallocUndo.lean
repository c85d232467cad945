import Novium.Mm.KfreeOrder
import Novium.Mm.KmallocSpec

/-! `kfree` undoes `kmalloc`. The block that a call takes off the free list is a gap between
the live blocks before the call; afterwards it is the run around the new block, so that
freeing it leads back to the live blocks that there were. -/

namespace Novium.Mm

open Novium.Lib

section

variable {s s' : Heap} {fl fl' : List ℕ} {blocks blocks' : Segment → List ℕ} {sg : Segment} {b x w : ℕ}

theorem WellFormed.run_of_gap (h : WellFormed s blocks fl) (hsg : sg ∈ s.segments) (hb : b ∈ blocks sg)
    (hg : Gap (fun d => (d ∈ blocks sg ∧ s.isFree d = false) ∧ d ≠ b) s.size sg.base sg.stop x w) (hlo : x ≤ b)
    (hhi : b < x + w) : runStart s b = x ∧ runEnd s b = x + w := by
  obtain ⟨hend, hstart, hstop⟩ := h.runEnd_eq hsg hb
  have hbpos := (h.fills hsg).within hb
  obtain ⟨hx, hw⟩ := (h.fills hsg).gap_unique (fun d hd => hd.1.1) (h.run_gap hsg hb) hg (by omega) (by omega)
  exact ⟨hx, by omega⟩

/-- The call of `kmalloc` takes the block `b` off the free list. -/
def ServedBy (s : Heap) (size b : ℕ) : Prop :=
  size ≠ 0 ∧ size ≤ 2 ^ 32 - 1 - metaSize - heapAlign ∧ b ≠ 0 ∧
    ∃ s₀, heapFindFree (heapAlignUp (size + metaSize)) s = some (s₀, b)

/-- What is known of the heap `s'` after such a call. -/
structure Carved (s s' : Heap) (blocks blocks' : Segment → List ℕ) (fl' : List ℕ) (b : ℕ) : Prop where
  wellFormed : WellFormed s' blocks' fl'
  kept : Kept s s'
  live : ∀ d, IsLive s' blocks' d ↔ IsLive s blocks d ∨ d = b
  size : ∀ d, IsLive s blocks d → s'.size d = s.size d

theorem kmalloc_carved {size : ℕ} (h : WellFormed s blocks fl) (hs : ServedBy s size b) :
    b ∈ fl ∧ ∃ s' blocks' fl', kmalloc size s = some (s', b + metaSize) ∧ Carved s s' blocks blocks' fl' b := by
  obtain ⟨h0, hbig, hb0, s₀, hfind⟩ := hs
  have htotal : 8 ∣ heapAlignUp (size + metaSize) ∧ blockSpan ≤ heapAlignUp (size + metaSize) := by
    unfold heapAlignUp u32 heapAlign metaSize blockSpan at *
    omega
  rcases heapFindFree_cases h.freeList (heapAlignUp (size + metaSize)) with ⟨hnone, -⟩ | ⟨b', hb, hfound, hle⟩
  · rw [hnone] at hfind
    cases hfind
    exact absurd rfl hb0
  rw [hfound] at hfind
  cases hfind
  refine ⟨hb, ?_⟩
  obtain ⟨seg, l, r, g, fl₁, hf, hk, hz⟩ := h.laid.take hb
  obtain ⟨s', fl', blocks', hcut, hl, hk'⟩ := kmallocCut_spec hf htotal.1 htotal.2 (by rw [hz]; exact hle) hz.symm
  have hsup := heapListRemove_supplied h hb hle
  obtain ⟨s'', hcut', -, hmem⟩ := hsup.cut htotal.2
  obtain rfl : s' = s'' := by
    rw [hcut] at hcut'
    exact congrArg Prod.fst (Option.some.inj hcut')
  refine ⟨s', blocks', fl', ?_, ⟨hl.represents, hl.placed, ?_⟩, hk.trans hk', fun d => ?_, fun d hd => ?_⟩
  · unfold kmalloc kmallocBlock
    rw [if_neg h0, if_neg (by omega)]
    simp only [hfound, Option.bind_eq_bind, Option.bind_some, if_neg hb0, hcut]
  · rw [hk'.segments, hk'.pages, hk.segments, hk.pages]
    exact h.used
  · have hiff := hl.mem_live (d + metaSize)
    rw [← mem_livePointers, pointer_mem_livePointers, List.mem_cons, pointer_mem_livePointers,
      Nat.add_right_cancel_iff] at hiff
    rw [← hiff, or_comm]
  · exact hmem (d + 4) (hsup.beyond h hd (Or.inl rfl))

theorem Carved.run (h : Carved s s' blocks blocks' fl' b) (hwf : WellFormed s blocks fl) (hb : b ∈ fl)
    (hsg : sg ∈ s.segments) (hbs : b ∈ blocks sg) :
    b ∈ blocks' sg ∧ runStart s' b = b ∧ runEnd s' b = b + s.size b := by
  have hsg' : sg ∈ s'.segments := h.kept.segments ▸ hsg
  have hfree := ((hwf.represents.mem_list b).mp hb).2
  have hbs' := h.wellFormed.mem_segment hwf hsg' hsg hbs ((h.live b).mpr (Or.inr rfl)).1
  have hne : ∀ d, IsLive s blocks d → d ≠ b := fun d hd => hwf.live_ne hd hb
  have htaken : ∀ d, (d ∈ blocks' sg ∧ s'.isFree d = false) ∧ d ≠ b ↔ d ∈ blocks sg ∧ s.isFree d = false := by
    intro d
    constructor
    · rintro ⟨⟨hd, hf⟩, hdb⟩
      obtain ⟨hd', hf'⟩ := ((h.live d).mp ⟨⟨sg, hsg', hd⟩, hf⟩).resolve_right hdb
      exact ⟨hwf.mem_segment h.wellFormed hsg hsg' hd hd', hf'⟩
    · rintro ⟨hd, hf⟩
      obtain ⟨hd', hf'⟩ := (h.live d).mpr (Or.inl ⟨⟨sg, hsg, hd⟩, hf⟩)
      exact ⟨⟨h.wellFormed.mem_segment hwf hsg' hsg hd hd', hf'⟩, hne d ⟨⟨sg, hsg, hd⟩, hf⟩⟩
  have hg := ((hwf.fills hsg).free_iff_gap (hwf.coalesced hsg)).mp ⟨hbs, hfree, rfl⟩
  have hpos := hg.pos
  refine ⟨hbs', h.wellFormed.run_of_gap hsg' hbs' (hg.congr (fun d hd _ => ?_) (fun hd => ?_) fun d hd hnot => ?_)
    (Nat.le_refl b) (by omega)⟩
  · exact ⟨(htaken d).mpr hd, h.size d ⟨⟨sg, hsg, hd.1⟩, hd.2⟩⟩
  · exact (htaken _).mpr hd
  · exact absurd ((htaken d).mp hd) hnot

/-- A `kmalloc` that takes a block of at most 64 KiB, or one that ends its segment, off the free list is undone by
`kfree` of the pointer that it returned. -/
theorem kfree_undoes_kmalloc {size : ℕ} (h : WellFormed s blocks fl) (hserved : ServedBy s size b)
    (hblock : s.size b ≤ 64 * 1024 ∨ ∃ sg ∈ s.segments, b ∈ blocks sg ∧ b + s.size b = sg.stop) :
    ∃ s₁ p s₂, kmalloc size s = some (s₁, p) ∧ kfree p s₁ = some s₂ ∧ SameLayout s s₂ blocks fl ∧
      s₂.pages = s.pages := by
  obtain ⟨hb, s₁, blocks₁, fl₁, hcall, hc⟩ := kmalloc_carved h hserved
  have hnew : IsLive s₁ blocks₁ b := (hc.live b).mpr (Or.inr rfl)
  obtain ⟨sg, hsg, hbs⟩ := h.block_of_mem hb
  obtain ⟨hbs₁, hstart, hend⟩ := hc.run h hb hsg hbs
  have hsg₁ : sg ∈ s₁.segments := hc.kept.segments ▸ hsg
  have hstays : RunStays s₁ blocks₁ b := by
    have hsum := (hc.wellFormed.runEnd_eq hsg₁ hbs₁).1
    rcases hblock with hsmall | ⟨sg', hsg', hbs', hstop⟩
    · exact Or.inl (by omega)
    · have hsame : sg' = sg := by
        have := h.heapFindSegment hsg hbs
        rw [h.heapFindSegment hsg' hbs'] at this
        exact Option.some.inj this
      exact Or.inr ⟨sg, hsg₁, hbs₁, by rw [hend, hstop, hsame]⟩
  obtain ⟨s₂, blocks₂, fl₂, hcall₂, hf⟩ := kfree_freed hc.wellFormed hnew (hc.wellFormed.not_givesBack hstays)
  have hne : ∀ d, IsLive s blocks d → d ≠ b := fun d hd => h.live_ne hd hb
  refine ⟨s₁, b + metaSize, s₂, hcall, hcall₂, h.sameLayout hf.wellFormed ?_ (fun d => ?_) fun d hd => ?_, ?_⟩
  · rw [hf.kept.segments, hc.kept.segments]
  · rw [hf.live, hc.live]
    constructor
    · rintro ⟨hd, hdb⟩
      exact hd.resolve_right hdb
    · intro hd
      exact ⟨Or.inl hd, hne d hd⟩
  · rw [hf.size_eq hc.wellFormed hnew ((hc.live d).mpr (Or.inl hd)) (hne d hd), hc.size d hd]
  · rw [hf.kept.pages, hc.kept.pages]

end

/-- A block of 120 bytes is cut for 50, and given back. -/
theorem kfree_undoes_kmalloc_cut :
    ∃ s blocks fl, WellFormed s blocks fl ∧ ServedBy s 50 0x101000 ∧ s.size 0x101000 = 120 ∧
      ∃ s₁ p s₂, kmalloc 50 s = some (s₁, p) ∧ kfree p s₁ = some s₂ ∧ SameLayout s s₂ blocks fl ∧
        s₂.pages = s.pages := by
  obtain ⟨w, -, hw, hp⟩ := System.exists_reachableIf Sound bootWorld_init
    [.heapInit, .kmalloc 100, .kmalloc 200, .kfree 0x101010]
    (fun w => w.heap.size 0x101000 = 120 ∧
      (heapFindFree (heapAlignUp (50 + metaSize)) w.heap).map Prod.snd = some 0x101000) (by decide +kernel)
  obtain ⟨hsize, hfind⟩ := of_decide_eq_true hp
  obtain ⟨blocks, fl, hwf, -⟩ := reachable_wellFormed hw
  obtain ⟨⟨s₀, b⟩, hfound, rfl⟩ := Option.map_eq_some_iff.mp hfind
  have hserved : ServedBy w.heap 50 0x101000 := ⟨by decide, by decide, by decide, s₀, hfound⟩
  refine ⟨w.heap, blocks, fl, hwf, hserved, hsize, kfree_undoes_kmalloc hwf hserved (Or.inl ?_)⟩
  rw [hsize]
  decide

end Novium.Mm
