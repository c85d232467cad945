import Novium.Mm.Steps

/-! `kmalloc` keeps the heap laid out, and takes from the page allocator only pages
that were free. -/

namespace Novium.Mm

open Novium.Lib

def Segment.covers (sg : Segment) (q : ℕ) : Prop := sg.base ≤ q * pageSize ∧ q * pageSize < sg.stop

/-- The pages of the segments, and those that other callers hold, are marked used, and
no page is both. -/
structure Owned (s : Heap) (held : List ℕ) : Prop where
  segments : ∀ sg ∈ s.segments, ∀ q, sg.covers q → s.pages.free q = false
  used : ∀ q ∈ held, s.pages.free q = false
  outside : ∀ q ∈ held, ∀ sg ∈ s.segments, ¬sg.covers q

theorem Owned.kept {s s' : Heap} {held : List ℕ} (h : Owned s held) (hk : Kept s s') : Owned s' held := by
  refine ⟨fun sg hsg q hq => ?_, fun q hq => ?_, fun q hq sg hsg => ?_⟩
  · rw [hk.pages]
    exact h.segments sg (hk.segments ▸ hsg) q hq
  · rw [hk.pages]
    exact h.used q hq
  · exact h.outside q hq sg (hk.segments ▸ hsg)

theorem Owned.took {s : Heap} {held : List ℕ} {ps : Pages} {addr count : ℕ} (h : Owned s held)
    (ht : Took s.pages ps addr count) : Owned { s with pages := ps } held := by
  refine ⟨fun sg hsg q hq => ?_, fun q hq => ?_, h.outside⟩
  · rw [ht.free, h.segments sg hsg q hq, ite_self]
  · rw [ht.free, h.used q hq, ite_self]

section Grow

variable {s : Heap} {live fl held : List ℕ} {blocks : Segment → List ℕ} {ps : Pages} {addr pages : ℕ}

theorem Owned.beside (ho : Owned s held) (hp : Placed s.segments) (ht : Took s.pages ps addr pages) :
    ∀ sg ∈ s.segments, sg.stop ≤ addr ∨ addr + pages * pageSize ≤ sg.base := by
  intro sg hsg
  by_contra hov
  have hal := ht.aligned
  have hpos := ht.pos
  have hlt := hp.lt_stop sg hsg
  have hal' := hp.aligned sg hsg
  -- a page in both
  have hwere := ht.were (max (sg.base / pageSize) (addr / pageSize))
  have hused := ho.segments sg hsg (max (sg.base / pageSize) (addr / pageSize))
  unfold Segment.covers pageSize at *
  rw [hused (by omega)] at hwere
  exact absurd (hwere (by omega) (by omega)) (by decide)

theorem Placed.took (hp : Placed s.segments) (ht : Took s.pages ps addr pages) (h0 : addr ≠ 0)
    (hlast : addr + pages * pageSize ≠ 2 ^ 32)
    (hnew : ∀ sg ∈ s.segments, sg.stop ≤ addr ∨ addr + pages * pageSize ≤ sg.base) :
    Placed (⟨addr, addr + pages * pageSize⟩ :: s.segments) := by
  have hal := ht.aligned
  have hfits := ht.fits
  have hpos := ht.pos
  refine ⟨?_, ?_, ?_, ?_, ?_⟩
  · simp only [List.mem_cons, forall_eq_or_imp]
    exact ⟨Nat.pos_of_ne_zero h0, hp.pos⟩
  · simp only [List.mem_cons, forall_eq_or_imp]
    exact ⟨by unfold pageSize; omega, hp.lt_stop⟩
  · simp only [List.mem_cons, forall_eq_or_imp]
    exact ⟨by unfold pageSize pageCount at *; omega, hp.lt⟩
  · simp only [List.mem_cons, forall_eq_or_imp]
    exact ⟨by unfold pageSize at *; omega, hp.aligned⟩
  · intro x hx y hy
    rcases List.mem_cons.mp hx with rfl | hx <;> rcases List.mem_cons.mp hy with rfl | hy
    · exact Or.inl rfl
    · exact Or.inr (hnew y hy).symm
    · exact Or.inr (hnew x hx)
    · exact hp.apart x hx y hy

theorem Laid.newSegment (h : Laid s live fl blocks) (hp : Placed (⟨addr, addr + pages * pageSize⟩ :: s.segments))
    (hnew : ∀ sg ∈ s.segments, sg.stop ≤ addr ∨ addr + pages * pageSize ≤ sg.base) :
    Focus (addSegment addr pages s) live fl blocks ⟨addr, addr + pages * pageSize⟩ [] addr [] false
      (pages * pageSize, true) false ∧
      (addSegment addr pages s).segments = ⟨addr, addr + pages * pageSize⟩ :: s.segments ∧
      (addSegment addr pages s).size addr = pages * pageSize ∧ (addSegment addr pages s).pages = s.pages := by
  have hlt := hp.lt _ List.mem_cons_self
  have hstop := hp.lt_stop _ List.mem_cons_self
  simp only at hlt hstop
  have hspan : blockSpan ≤ pages * pageSize := by
    unfold blockSpan pageSize at *
    omega
  have hz : u32 (pages * pageSize) = pages * pageSize := u32_of_lt (by omega)
  have hhead : (addSegment addr pages s).header addr = (heapMagic, pages * pageSize, 0, 1) := by
    rw [← hz]
    exact header_setMeta s addr heapMagic (u32 (pages * pageSize)) 0 1
  have hsize : (addSegment addr pages s).size addr = pages * pageSize := congrArg (fun x => x.2.1) hhead
  have hsegs : (addSegment addr pages s).segments = ⟨addr, addr + pages * pageSize⟩ :: s.segments := by
    have : (s.setMeta addr heapMagic (u32 (pages * pageSize)) 0 1).size addr = pages * pageSize := hsize
    simp only [addSegment, this, setMeta_segments, u32_of_lt hlt]
  have hbeside : ∀ c, IsBlock s blocks c → c + blockSpan ≤ addr ∨ addr + blockSpan ≤ c := by
    rintro c ⟨sg, hsg, hc⟩
    obtain ⟨q, hq⟩ := h.tiled sg hsg
    have := hq.within hc
    have := hnew sg hsg
    omega
  have hsame : ∀ c, IsBlock s blocks c → (addSegment addr pages s).header c = s.header c :=
    fun c hc => header_setMeta_apart (s := s) (hbeside c hc)
  have hO : ∀ c, Other (addSegment addr pages s) blocks ⟨addr, addr + pages * pageSize⟩ [] [] c ↔ IsBlock s blocks c := by
    intro c
    simp only [Other, hsegs, List.not_mem_nil, false_or, IsBlock, List.mem_cons]
    constructor
    · rintro ⟨sg, rfl | hsg, hne, hc⟩
      · exact absurd rfl hne
      · exact ⟨sg, hsg, hc⟩
    · rintro ⟨sg, hsg, hc⟩
      refine ⟨sg, Or.inr hsg, ?_, hc⟩
      rintro rfl
      have := hnew _ hsg
      simp only at this
      omega
  refine ⟨⟨⟨?_, ?_, ?_, ?_, ?_, ?_, ?_, ?_⟩, ?_, fun x => ?_, fun x => ?_⟩, hsegs, hsize, rfl⟩
  · rw [hsegs]
    exact hp
  · rw [hsegs]
    exact List.mem_cons_self
  · exact ⟨rfl, Prod.ext (congrArg (fun x => x.2.2.1) hhead) rfl⟩
  · exact congrArg Prod.fst hhead
  · rw [hsize]
    unfold pageSize
    omega
  · rw [hsize]
    exact hspan
  · rw [hsize]
    exact ⟨_, rfl, rfl⟩
  · rw [hsegs]
    intro sg hsg hne
    have hsg := (List.mem_cons.mp hsg).resolve_left hne
    obtain ⟨q, hq⟩ := h.tiled sg hsg
    exact ⟨q, hq.congr fun c hc => hsame c ⟨sg, hsg, hc⟩⟩
  · have hlist : FreeList (s.setMeta addr heapMagic (u32 (pages * pageSize)) 0 1) fl :=
      h.list.setMeta fun x hx => Or.inr (hbeside x ((h.mem_list x).mp hx).1)
    exact hlist.congr rfl (fun _ _ => rfl) fun _ _ => rfl
  · rw [h.mem_list, hO]
    simp only [Bool.false_eq_true, and_false, false_or]
    exact and_congr_right fun hx => by rw [isFree_of_header (hsame x hx)]
  · rw [h.mem_live]
    refine exists_congr fun c => ?_
    rw [hO]
    exact and_congr_right fun hc => by rw [isFree_of_header (hsame c hc)]

theorem Owned.newSegment (ho : Owned s held) (ht : Took s.pages ps addr pages) {s' : Heap}
    (hsegs : s'.segments = ⟨addr, addr + pages * pageSize⟩ :: s.segments) (hps : s'.pages = ps) : Owned s' held := by
  have hal := ht.aligned
  have hcov : ∀ q, Segment.covers ⟨addr, addr + pages * pageSize⟩ q ↔
      addr / pageSize ≤ q ∧ q < addr / pageSize + pages := by
    intro q
    unfold Segment.covers pageSize at *
    simp only
    omega
  refine ⟨fun sg hsg q hq => ?_, fun q hq => ?_, fun q hq sg hsg => ?_⟩
  · rw [hps, ht.free]
    rcases List.mem_cons.mp (hsegs ▸ hsg) with rfl | hsg
    · rw [if_pos ((hcov q).mp hq)]
    · rw [ho.segments sg hsg q hq, ite_self]
  · rw [hps, ht.free, ho.used q hq, ite_self]
  · rcases List.mem_cons.mp (hsegs ▸ hsg) with rfl | hsg
    · intro hc
      have hc := (hcov q).mp hc
      have := ht.were q hc.1 hc.2
      rw [ho.used q hq] at this
      cases this
    · exact ho.outside q hq sg hsg

/-- The pages that `HeapGrow` gets, if it asks for them, do not end at 4 GiB. -/
def GrowsBelow (s : Heap) (pages : ℕ) : Prop :=
  s.segments.length < heapSegmentCap →
    (pageAllocPagesAt (heapGrowthHint s) pages s.pages).2 + pages * pageSize ≠ 2 ^ 32

theorem heapGrow_cases (h : Laid s live fl blocks) (ho : Owned s held) (hlast : GrowsBelow s pages) :
    ∃ s' b, heapGrow pages s = some (s', b) ∧ Owned s' held ∧
      (b = 0 ∧ Laid s' live fl blocks ∨
        ∃ fl' seg, Focus s' live fl' blocks seg [] b [] false (pages * pageSize, true) true ∧
          s'.size b = pages * pageSize ∧ s'.isFree b = true ∧ 0 < pages) := by
  have hpages : ∀ ps', Laid { s with pages := ps' } live fl blocks := fun ps' =>
    h.congr rfl rfl (fun _ _ => rfl) (fun _ _ => rfl) fun _ _ => rfl
  unfold heapGrow
  split_ifs with hcap
  · exact ⟨s, 0, rfl, ho, Or.inl ⟨rfl, h⟩⟩
  · have hlast := hlast (Nat.lt_of_not_le hcap)
    rcases pageAllocPagesAt_cases (heapGrowthHint s) pages s.pages with hnone | ⟨ps', a, hsome, ht⟩
    · rw [hnone]
      exact ⟨s, 0, rfl, ho, Or.inl ⟨rfl, h⟩⟩
    · rw [hsome] at hlast ⊢
      simp only at hlast ⊢
      split_ifs with h0
      · exact ⟨_, 0, rfl, ho.took ht, Or.inl ⟨rfl, hpages ps'⟩⟩
      · have hnew := ho.beside h.placed ht
        obtain ⟨hf, hsegs, hsize, hps⟩ := (hpages ps').newSegment (h.placed.took ht h0 hlast hnew) hnew
        obtain ⟨s', fl', hins, hf', hk, hhead, -⟩ := hf.enlist
        rw [hins]
        refine ⟨s', a, rfl, ?_, Or.inr ⟨fl', _, hf', ?_, ?_, ht.pos⟩⟩
        · exact ho.newSegment ht (hk.segments.trans hsegs) (hk.pages.trans hps)
        · rw [size_of_header hhead, hsize]
        · rw [isFree_of_header hhead]
          exact congrArg (fun x : ℕ × ℕ × ℕ × ℕ => decide (x.2.2.2 ≠ 0))
            (header_setMeta _ a heapMagic (u32 (pages * pageSize)) 0 1)

end Grow

section Cut

variable {s : Heap} {live live' fl held : List ℕ} {blocks : Segment → List ℕ} {seg : Segment} {l r : List ℕ}
  {b size v : ℕ} {g : Bool}

theorem heapSplit_spec (h : Focus s live fl blocks seg l b r g (v, true) false) (hd : 8 ∣ size)
    (hs : blockSpan ≤ size) (hle : size ≤ s.size b) (hv : v = s.size b) :
    ∃ s' fl' r' f, heapSplit b size s = some s' ∧
      Focus s' live fl' blocks seg l b r' g (s'.size b, f) false ∧ Kept s s' := by
  have hlt := h.lt
  have hbspan := h.span
  have hsub : sub32 (s.size b) size = s.size b - size := sub32_of_le hle (by omega)
  unfold heapSplit
  simp only [hsub]
  split_ifs with hsmall
  · exact ⟨s, fl, r, true, rfl, hv ▸ h, ⟨rfl, rfl⟩⟩
  · obtain ⟨leftOver, hleft⟩ : ∃ leftOver, s.size b = size + leftOver := ⟨s.size b - size, by omega⟩
    have hl : blockSpan ≤ leftOver := by
      unfold heapAlign metaSize at hsmall
      unfold blockSpan
      omega
    have hrest : u32 (b + size) = b + size := u32_of_lt (by omega)
    have hnext : u32 (b + size + leftOver) = b + s.size b := by rw [u32_of_lt (by omega)]; omega
    rw [hleft, Nat.add_sub_cancel_left, hrest, hnext]
    obtain ⟨s₁, hs₁, h₁, hk₁, hb, hrest'⟩ := h.inner hs (by omega) heapMagic leftOver size 1 leftOver
    obtain ⟨s', fl', hins, h₂, hk₂, hz⟩ := h₁.cut (by rw [size_of_header hb, hleft]) hd hs hl hrest'
    rw [hs₁]
    refine ⟨s', fl', (b + size) :: r, false, hins, ?_, hk₁.trans hk₂⟩
    rw [hz]
    exact h₂

theorem kmallocCut_spec (h : Focus s live fl blocks seg l b r g (v, true) false) (hd : 8 ∣ size)
    (hs : blockSpan ≤ size) (hle : size ≤ s.size b) (hv : v = s.size b) :
    ∃ s' fl' blocks', kmallocCut b size s = some (s', b + metaSize) ∧
      Laid s' ((b + metaSize) :: live) fl' blocks' ∧ Kept s s' := by
  have hcut : ∃ s₁ fl₁ r₁ f, (if s.size b > size then heapSplit b size s else some (s.set b 4 size)) = some s₁ ∧
      Focus s₁ live fl₁ blocks seg l b r₁ g (s₁.size b, f) false ∧ Kept s s₁ := by
    split_ifs with hgt
    · exact heapSplit_spec h hd hs hle hv
    · have heq : s.set b 4 size = s := by
        have : s.mem (b + 4) = size := Nat.le_antisymm (Nat.le_of_not_lt hgt) hle
        rw [Heap.set, ← this, Function.update_eq_self]
      rw [heq]
      exact ⟨s, fl, r, true, rfl, hv ▸ h, ⟨rfl, rfl⟩⟩
  obtain ⟨s₁, fl₁, r₁, f, hs₁, h₁, hk₁⟩ := hcut
  have h₂ := (h₁.set (k := 0) (v := heapMagic) (Or.inl ⟨rfl, rfl⟩)).set (k := 12) (v := 0) (Or.inr rfl)
  have hz : ((s₁.set b 0 heapMagic).set b 12 0).size b = s₁.size b := by simp [Heap.size, fld_set]
  obtain ⟨h₃, hk₃, hframe⟩ := h₂.stamp (s₁.size b)
  rw [hz] at h₃ hk₃ hframe
  have hlt := h₁.lt
  have hspan := h₁.span
  have hb : u32 (b + metaSize) = b + metaSize := u32_of_lt (by unfold metaSize blockSpan at *; omega)
  unfold kmallocCut
  rw [hs₁]
  simp only [Option.bind_eq_bind, Option.bind_some, hz, hb, u32_of_lt hlt]
  have hbelow : ∀ k < blockSpan, (stampPrevSize b (b + s₁.size b) (s₁.size b)
      ((s₁.set b 0 heapMagic).set b 12 0)).fld b k = ((s₁.set b 0 heapMagic).set b 12 0).fld b k :=
    fun k hk => hframe (b + k) (by omega)
  have hfree : (stampPrevSize b (b + s₁.size b) (s₁.size b) ((s₁.set b 0 heapMagic).set b 12 0)).isFree b = false := by
    rw [Heap.isFree, hbelow 12 (by decide)]
    simp [fld_set]
  have hz₃ : (stampPrevSize b (b + s₁.size b) (s₁.size b) ((s₁.set b 0 heapMagic).set b 12 0)).size b = s₁.size b := by
    rw [Heap.size, hbelow 4 (by decide)]
    exact hz
  refine ⟨_, fl₁, _, rfl, h₃.close hfree (by simp) hz₃.symm (by simp) fun x => ?_,
    hk₁.trans ⟨hk₃.segments, hk₃.pages⟩⟩
  simp [or_comm]

end Cut

section Call

variable {s : Heap} {live fl held : List ℕ} {blocks : Segment → List ℕ} {b size : ℕ}

theorem Laid.take (h : Laid s live fl blocks) (hb : b ∈ fl) :
    ∃ seg l r g fl', Focus (heapListRemove b s) live fl' blocks seg l b r g (s.size b, true) false ∧
      Kept s (heapListRemove b s) ∧ (heapListRemove b s).size b = s.size b := by
  obtain ⟨⟨seg, hseg, hmem⟩, hfree⟩ := (h.mem_list b).mp hb
  obtain ⟨l, r, hlr⟩ := List.append_of_mem hmem
  have hlive : ∀ x, x ∈ live ↔ x ∈ live ∧ x ≠ b + metaSize := by
    intro x
    refine ⟨fun hx => ⟨hx, ?_⟩, And.left⟩
    rintro rfl
    obtain ⟨c, -, hc, he⟩ := (h.mem_live _).mp hx
    rw [← Nat.add_right_cancel he, hfree] at hc
    cases hc
  obtain ⟨g, hf, -⟩ := h.focus hseg hlr hlive
  rw [hfree] at hf
  obtain ⟨fl', hf', hk, hhead⟩ := hf.unlist
  exact ⟨seg, l, r, g, fl', hf', hk, size_of_header hhead⟩

/-- The number of pages that `kmalloc` asks for when no free block is large enough. -/
def kmallocPages (size : ℕ) : ℕ := u32 (heapAlignUp (size + metaSize) + pageSize - 1) / pageSize

/-- The page that ends at 4 GiB does not go to this call of `kmalloc`: the call is refused,
a free block is large enough, or the pages that `HeapGrow` gets end before it. -/
def MallocsBelow (s : Heap) (size : ℕ) : Prop :=
  size ≠ 0 → size ≤ 2 ^ 32 - 1 - metaSize - heapAlign →
    findLoop s (heapAlignUp (size + metaSize)) (2 ^ 32) s.freeListHead = some 0 → GrowsBelow s (kmallocPages size)

theorem kmallocBlock_spec (h : Laid s live fl blocks) (ho : Owned s held)
    (hok : findLoop s (heapAlignUp (size + metaSize)) (2 ^ 32) s.freeListHead = some 0 →
      GrowsBelow s (kmallocPages size))
    (hlt : heapAlignUp (size + metaSize) < 2 ^ 32) :
    ∃ s' b, kmallocBlock (heapAlignUp (size + metaSize)) s = some (s', b) ∧ Owned s' held ∧
      (b = 0 ∧ Laid s' live fl blocks ∨ b ≠ 0 ∧ ∃ fl' seg l r g,
        Focus s' live fl' blocks seg l b r g (s'.size b, true) false ∧ heapAlignUp (size + metaSize) ≤ s'.size b) := by
  unfold kmallocBlock
  rcases heapFindFree_cases h.list (heapAlignUp (size + metaSize)) with ⟨hnone, -⟩ | ⟨b, hb, hfound, hle⟩
  · have hbelow : GrowsBelow s (kmallocPages size) := by
      refine hok ?_
      rw [heapFindFree] at hnone
      obtain ⟨b, hb, heq⟩ := Option.map_eq_some_iff.mp hnone
      rw [hb, (Prod.mk.inj heq).2]
    obtain ⟨s', b, hgrow, ho', hres⟩ := heapGrow_cases h ho hbelow
    unfold kmallocPages at hgrow
    simp only [hnone, Option.bind_eq_bind, Option.bind_some, if_true, hgrow]
    rcases hres with ⟨rfl, hl⟩ | ⟨fl', seg, hf, hz, hfree, hpos⟩
    · exact ⟨s', 0, by simp, ho', Or.inl ⟨rfl, hl⟩⟩
    · have hb0 := Nat.ne_of_gt hf.pos
      obtain ⟨fl'', hf', hk, hhead⟩ := hf.unlist
      refine ⟨_, b, by rw [if_neg hb0], ho'.kept hk, Or.inr ⟨hb0, fl'', seg, [], [], false, ?_, ?_⟩⟩
      · rw [size_of_header hhead, hz]
        exact hf'
      · rw [size_of_header hhead, hz]
        unfold kmallocPages u32 pageSize at *
        omega
  · have hb0 := h.list.ne_zero hb
    obtain ⟨seg, l, r, g, fl', hf, hk, hz⟩ := h.take hb
    simp only [hfound, Option.bind_eq_bind, Option.bind_some, if_neg hb0]
    refine ⟨_, b, rfl, ho.kept hk, Or.inr ⟨hb0, fl', seg, l, r, g, ?_, ?_⟩⟩
    · rw [hz]
      exact hf
    · rw [hz]
      exact hle

/-- `kmalloc` returns, keeps the heap laid out, and adds the pointer that it returns to
the live ones. -/
theorem kmalloc_spec (h : Laid s live fl blocks) (ho : Owned s held) (hok : MallocsBelow s size) :
    ∃ s' p, kmalloc size s = some (s', p) ∧ Owned s' held ∧
      ∃ fl' blocks', Laid s' (if p = 0 then live else p :: live) fl' blocks' := by
  unfold kmalloc
  split_ifs with h0 hbig
  · exact ⟨s, 0, rfl, ho, fl, blocks, h⟩
  · exact ⟨s, 0, rfl, ho, fl, blocks, h⟩
  · have htotal : 8 ∣ heapAlignUp (size + metaSize) ∧ blockSpan ≤ heapAlignUp (size + metaSize) ∧
        heapAlignUp (size + metaSize) < 2 ^ 32 := by
      unfold heapAlignUp u32 heapAlign metaSize blockSpan at *
      omega
    obtain ⟨s₁, b, hblock, ho₁, hres⟩ := kmallocBlock_spec h ho (hok h0 (by omega)) htotal.2.2
    simp only [hblock, Option.bind_eq_bind, Option.bind_some]
    rcases hres with ⟨rfl, hl⟩ | ⟨hb0, fl', seg, l, r, g, hf, hle⟩
    · exact ⟨s₁, 0, by simp, ho₁, fl, blocks, hl⟩
    · obtain ⟨s₂, fl₂, blocks₂, hcut, hl, hk⟩ := kmallocCut_spec hf htotal.1 htotal.2.1 hle rfl
      rw [if_neg hb0, hcut]
      refine ⟨s₂, _, rfl, ho₁.kept hk, fl₂, blocks₂, ?_⟩
      rw [if_neg (by unfold metaSize; omega)]
      exact hl

end Call

end Novium.Mm
