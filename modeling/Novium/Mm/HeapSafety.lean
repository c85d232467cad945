import Mathlib.Data.List.Chain
import Novium.Mm.HeapRuns

/-! What holds of the heap over all runs: its representation, and that no page of it
belongs to anybody else. Both need that `kfree` gives no pages back. -/

namespace Novium.Mm

open Novium.Lib

/-- The blocks `l` fill the memory from `a` to `e`, each with the header that belongs to it;
`p` is the size of the block before. -/
def Row (s : Heap) : ℕ → ℕ → List ℕ → ℕ → Prop
  | a, _, [], e => a = e
  | a, p, b :: l, e => b = a ∧ s.magic b = heapMagic ∧ 8 ∣ s.size b ∧ 24 ≤ s.size b ∧ s.prevSize b = p ∧
      Row s (b + s.size b) (s.size b) l e

/-- The blocks of the segments and the nodes of the free list in order. -/
structure Represents (s : Heap) (blocks : Segment → List ℕ) (fl : List ℕ) : Prop where
  tiled : ∀ sg ∈ s.segments, Row s sg.base 0 (blocks sg) sg.stop
  coalesced : ∀ sg ∈ s.segments, (blocks sg).IsChain fun x y => ¬(s.isFree x = true ∧ s.isFree y = true)
  linked : DLinked s.next s.prev 0 s.freeListHead fl
  increasing : fl.Pairwise (· < ·)
  mem_list : ∀ x, x ∈ fl ↔ IsBlock s blocks x ∧ s.isFree x = true

theorem Tiles.row {s : Heap} {a e : ℕ} {p q : ℕ × Bool} {l : List ℕ} (h : Tiles s a p l q e) :
    Row s a p.1 l e := by
  induction l generalizing a p with
  | nil => exact h.1
  | cons b l ih =>
    obtain ⟨h1, h2, h3, -, h5, h6, hr⟩ := h
    exact ⟨h1, h2, h5, h6, h3, ih hr⟩

theorem Tiles.coalesced {s : Heap} {a e : ℕ} {p q : ℕ × Bool} {l : List ℕ} (h : Tiles s a p l q e) :
    l.IsChain fun x y => ¬(s.isFree x = true ∧ s.isFree y = true) := by
  induction l generalizing a p with
  | nil => exact .nil
  | cons b l ih =>
    obtain ⟨-, -, -, -, -, -, hr⟩ := h
    cases l with
    | nil => exact .singleton b
    | cons c l => exact .cons_cons hr.2.2.2.1 (ih hr)

theorem Laid.represents {s : Heap} {live fl : List ℕ} {blocks : Segment → List ℕ} (h : Laid s live fl blocks) :
    Represents s blocks fl := by
  refine ⟨fun sg hsg => ?_, fun sg hsg => ?_, h.list.linked, h.list.spaced.imp fun {x y} hxy => ?_, h.mem_list⟩
  · obtain ⟨q, hq⟩ := h.tiled sg hsg
    exact hq.row
  · obtain ⟨q, hq⟩ := h.tiled sg hsg
    exact hq.coalesced
  · unfold blockSpan at hxy
    omega

theorem Row.behind {s : Heap} {a b e v : ℕ} {p q : ℕ × Bool} {l bs : List ℕ} (hl : Tiles s a p l q b)
    (h : Row s a v bs e) (hlt : b < e) : ∃ c v', bs = l ++ b :: c ∧ Row s b v' (b :: c) e := by
  induction l generalizing a p v bs with
  | nil =>
    obtain ⟨rfl, -⟩ := hl
    cases bs with
    | nil =>
      have he : a = e := h
      omega
    | cons d c =>
      obtain rfl : d = a := h.1
      exact ⟨c, v, rfl, h⟩
  | cons x l ih =>
    obtain ⟨rfl, -, -, -, -, -, hr⟩ := hl
    have hle := hr.le
    cases bs with
    | nil =>
      have he : x = e := h
      omega
    | cons d bs =>
      obtain ⟨rfl, -, -, -, -, hrow⟩ := h
      obtain ⟨c, v', rfl, hc⟩ := ih hr hrow
      exact ⟨c, v', rfl, hc⟩

theorem not_represented {s : Heap} {seg : Segment} {l : List ℕ} {b : ℕ} {q : ℕ × Bool} (hseg : seg ∈ s.segments)
    (hl : Tiles s seg.base (0, false) l q b) (hlt : b + s.size b < seg.stop) (hb : s.isFree b = true)
    (hn : s.isFree (b + s.size b) = true) : ¬∃ blocks fl, Represents s blocks fl := by
  rintro ⟨blocks, fl, hr⟩
  obtain ⟨c, v, hbs, hrow⟩ := Row.behind hl (hr.tiled seg hseg) (by omega)
  obtain ⟨-, -, -, -, -, hrow⟩ := hrow
  cases c with
  | nil =>
    have he : b + s.size b = seg.stop := hrow
    omega
  | cons d c =>
    obtain rfl : d = b + s.size b := hrow.1
    have hchain := hr.coalesced seg hseg
    rw [hbs, List.isChain_append] at hchain
    exact (List.isChain_cons_cons.mp hchain.2.1).1 ⟨hb, hn⟩

theorem kfree_not_represented {s : Heap} {live fl : List ℕ} {blocks : Segment → List ℕ} {p : ℕ}
    (h : Laid s live fl blocks) (hp : p ∈ live) (hg : GivesBack s (p - metaSize)) :
    ∃ s', kfree p s = some s' ∧ ¬∃ blocks fl, Represents s' blocks fl := by
  obtain ⟨s₁, fl₁, seg, l, b, r, hcall, hf, hk, hfree, -, hgives, -⟩ := kfree_joins h hp
  obtain ⟨hsize, hend⟩ := hgives.mp hg
  obtain ⟨s', fl', hback, hs'⟩ := giveBack_halves hf hfree hsize hend
  obtain ⟨q, hl⟩ := hs'.before
  refine ⟨s', hcall.trans hback, not_represented (hs'.segments ▸ hf.mem) hl ?_ hs'.free ?_⟩
  · rw [hs'.size]
    omega
  · rw [hs'.size]
    exact hs'.restFree

/-- Over every run in which no `kfree` gives pages back, the segments are filled by
blocks with the right headers, no two free blocks are adjacent, and the free list holds
the free blocks in the order of their addresses. The next `kfree` keeps this exactly if
it does not give pages back. -/
theorem heap_represented {w : World} (h : heapSystem.ReachableIf Sound w) :
    (∃ blocks fl, Represents w.heap blocks fl) ∧
      ∀ p ∈ w.live, ∃ s, kfree p w.heap = some s ∧
        ((∃ blocks fl, Represents s blocks fl) ↔ ¬GivesBack w.heap (p - metaSize)) := by
  obtain ⟨fl, blocks, hl⟩ := (reachable_inv h).laid
  refine ⟨⟨blocks, fl, hl.represents⟩, fun p hp => ?_⟩
  by_cases hg : GivesBack w.heap (p - metaSize)
  · obtain ⟨s, hcall, hnot⟩ := kfree_not_represented hl hp hg
    exact ⟨s, hcall, fun hr => absurd hr hnot, fun hng => absurd hg hng⟩
  · obtain ⟨s, hcall, -, -, fl', blocks', hl'⟩ := kfree_spec hl hp hg
    exact ⟨s, hcall, fun _ => hg, fun _ => ⟨blocks', fl', hl'.represents⟩⟩

def bootWorld : World := ⟨⟨fun _ => 0, [], 0, bootPages.getD ⟨fun _ => 0, 0⟩⟩, [], [], false⟩

theorem bootWorld_init : heapSystem.init bootWorld := by
  obtain ⟨ps, hps⟩ : ∃ ps, bootPages = some ps := Option.isSome_iff_exists.mp (by decide +kernel)
  have hw : bootWorld.heap.pages = ps := by simp [bootWorld, hps]
  refine ⟨rfl, rfl, rfl, rfl, rfl, bootMap, 0x100000, 0x101000, some ⟨0x500, 24⟩, ?_⟩
  rw [hw]
  exact hps

/-- Three blocks, of which the first two are freed and joined. -/
theorem heap_represented_joined :
    ∃ w, heapSystem.ReachableIf Sound w ∧ w.heap.size 0x101000 = 336 ∧ w.live = [0x101160] ∧
      ∃ blocks fl, Represents w.heap blocks fl := by
  obtain ⟨w, -, hw, hp⟩ := System.exists_reachableIf Sound bootWorld_init
    [.heapInit, .kmalloc 100, .kmalloc 200, .kmalloc 300, .store 0x101010 7, .kfree 0x101010, .kfree 0x101088]
    (fun w => w.heap.size 0x101000 = 336 ∧ w.live = [0x101160]) (by decide +kernel)
  obtain ⟨hz, hl⟩ := of_decide_eq_true hp
  exact ⟨w, hw, hz, hl, (heap_represented hw).1⟩

/-- A block of 69648 bytes, with a live block after it in its segment, is freed. -/
def giveBackRun : List Event := [.heapInit, .kmalloc 65520, .kmalloc 69632, .kmalloc 100, .kfree 0x111010]

/-- It is split into two free blocks. -/
theorem heap_not_represented :
    ∃ w, heapSystem.runIf (fun _ _ => True) bootWorld giveBackRun = some w ∧ heapSystem.Reachable w ∧
      ¬∃ blocks fl, Represents w.heap blocks fl := by
  obtain ⟨w, hrun, hw, hp⟩ := System.exists_reachableIf (fun _ _ => True) bootWorld_init giveBackRun
    (fun w => ⟨0x111000, 0x123000⟩ ∈ w.heap.segments ∧ w.heap.size 0x111000 = 0x10000 ∧
      w.heap.isFree 0x111000 = true ∧ w.heap.isFree 0x121000 = true) (by decide +kernel)
  obtain ⟨hseg, hz, hf₁, hf₂⟩ := of_decide_eq_true hp
  refine ⟨w, hrun, hw, not_represented hseg (l := []) (q := (0, false)) ⟨rfl, rfl⟩ ?_ hf₁ ?_⟩
  · rw [hz]
    decide
  · rw [hz]
    exact hf₂

/-- The node `b` is reached from `FreeListHead`. -/
inductive OnFreeList (s : Heap) : ℕ → Prop where
  | head : s.freeListHead ≠ 0 → OnFreeList s s.freeListHead
  | next {b : ℕ} : OnFreeList s b → s.next b ≠ 0 → OnFreeList s (s.next b)

/-- The page `q` and the block `b` have an address in common. -/
def Meets (s : Heap) (b q : ℕ) : Prop := q * pageSize < b + s.size b ∧ b < (q + 1) * pageSize

/-- Every page that meets a block that is live or on the free list is marked used, and no
other caller holds it. -/
def PagesApart (w : World) : Prop :=
  ∀ b q, b + metaSize ∈ w.live ∨ OnFreeList w.heap b → Meets w.heap b q →
    w.heap.pages.free q = false ∧ q ∉ w.held

theorem FreeList.mem_of_onFreeList {s : Heap} {fl : List ℕ} (h : FreeList s fl) {b : ℕ} (hb : OnFreeList s b) :
    b ∈ fl := by
  obtain ⟨q, hq⟩ := h.linked
  induction hb with
  | head h0 => exact hq.head_mem fun he => h0 (hq.eq_null_iff.mpr he)
  | next _ hn ih => exact hq.next_mem ih hn

theorem onFreeList_of_seg {s : Heap} {l : List ℕ} {p x q b : ℕ} (h : DSeg s.next s.prev 0 p x l q 0)
    (hx : x ≠ 0 → OnFreeList s x) (hb : b ∈ l) : OnFreeList s b := by
  induction l generalizing p x with
  | nil => cases hb
  | cons a l ih =>
    obtain ⟨rfl, ha, -, hl⟩ := h
    rcases List.mem_cons.mp hb with rfl | hb
    · exact hx ha
    · exact ih hl (fun hn => (hx ha).next hn) hb

theorem FreeList.onFreeList {s : Heap} {fl : List ℕ} (h : FreeList s fl) {b : ℕ} (hb : b ∈ fl) :
    OnFreeList s b := by
  obtain ⟨q, hq⟩ := h.linked
  exact onFreeList_of_seg hq .head hb

theorem Owned.pagesApart {w : World} (ho : Owned w.heap w.held) (hp : Placed w.heap.segments)
    (h : ∀ b, b + metaSize ∈ w.live ∨ OnFreeList w.heap b →
      ∃ sg ∈ w.heap.segments, sg.base ≤ b ∧ b + w.heap.size b ≤ sg.stop) : PagesApart w := by
  intro b q hb hq
  obtain ⟨sg, hsg, hlo, hhi⟩ := h b hb
  have hal := hp.aligned sg hsg
  have hcov : sg.covers q := by
    unfold Meets pageSize at *
    unfold Segment.covers pageSize
    omega
  exact ⟨ho.segments sg hsg q hcov, fun hheld => ho.outside q hheld sg hsg hcov⟩

theorem Inv.pagesApart {w : World} (h : Inv w) : PagesApart w := by
  obtain ⟨fl, blocks, hl⟩ := h.laid
  refine h.owned.pagesApart hl.placed fun b hb => ?_
  have hblock : IsBlock w.heap blocks b := by
    rcases hb with hb | hb
    · obtain ⟨c, hc, -, he⟩ := (hl.mem_live _).mp hb
      rw [Nat.add_right_cancel he]
      exact hc
    · exact ((hl.mem_list b).mp (hl.list.mem_of_onFreeList hb)).1
  obtain ⟨sg, hsg, hmem⟩ := hblock
  obtain ⟨t, ht⟩ := hl.tiled sg hsg
  have hin := ht.within hmem
  exact ⟨sg, hsg, hin.1, hin.2.1⟩

section GiveBack

variable {w : World} {s s' : Heap} {live fl fl' : List ℕ} {blocks : Segment → List ℕ} {seg : Segment}
  {l r : List ℕ} {b : ℕ} {g : Bool} {t : ℕ × Bool}

theorem Halved.not_pagesApart (h : Halved s s' fl fl' blocks seg l b r)
    (hsize : heapKeepPages * pageSize + pageSize ≤ s.size b) (hlt : b + s.size b < 2 ^ 32)
    (hal : b % pageSize = 0) (held : List ℕ) (up : Bool) : ¬PagesApart ⟨s', live, held, up⟩ := by
  intro happ
  have hon : OnFreeList s' (b + heapKeepPages * pageSize) := h.list.onFreeList ((h.mem_list _).mpr (Or.inl rfl))
  have hmeets : Meets s' (b + heapKeepPages * pageSize) ((b + heapKeepPages * pageSize) / pageSize) := by
    unfold Meets
    rw [h.restSize]
    unfold heapKeepPages heapGrowPages pageSize at *
    omega
  have hused : s'.pages.free ((b + heapKeepPages * pageSize) / pageSize) = false := (happ _ _ (Or.inr hon) hmeets).1
  have hbounds : b + heapKeepPages * pageSize ≠ 0 ∧ (b + heapKeepPages * pageSize) % pageSize = 0 ∧
      0 < (s.size b - heapKeepPages * pageSize) / pageSize ∧
      (b + heapKeepPages * pageSize) / pageSize + (s.size b - heapKeepPages * pageSize) / pageSize ≤ pageCount := by
    unfold heapKeepPages heapGrowPages pageCount pageSize at *
    omega
  rw [h.pages, pageFreePages_first s.pages hbounds.1 hbounds.2.1 hbounds.2.2.1 hbounds.2.2.2] at hused
  cases hused

theorem Halved.pagesApart (h : Halved s s' fl fl' blocks seg l b r)
    (hf : Focus s live fl blocks seg l b r g t true) (hsize : heapKeepPages * pageSize ≤ s.size b)
    (hal : b % pageSize ≠ 0) {held : List ℕ} (ho : Owned s held) (up : Bool) : PagesApart ⟨s', live, held, up⟩ := by
  have hpages : s'.pages = s.pages := by
    rw [h.pages]
    refine pageFreePages_unaligned _ _ ?_
    unfold heapKeepPages heapGrowPages pageSize at *
    omega
  have hhi := hf.hi
  have hlo := hf.lo
  refine (ho.kept ⟨h.segments, hpages⟩).pagesApart (w := ⟨s', live, held, up⟩) ?_ fun c hc => ?_
  · show Placed s'.segments
    rw [h.segments]
    exact hf.placed
  · show ∃ sg ∈ s'.segments, sg.base ≤ c ∧ c + s'.size c ≤ sg.stop
    rw [h.segments]
    have hcase : c = b + heapKeepPages * pageSize ∨ c = b ∨ Other s blocks seg l r c := by
      rcases hc with hc | hc
      · obtain ⟨d, hd, -, he⟩ := (hf.mem_live _).mp hc
        rw [Nat.add_right_cancel he]
        exact Or.inr (Or.inr hd)
      · refine ((h.mem_list c).mp (h.list.mem_of_onFreeList hc)).imp_right fun hc => ?_
        exact ((hf.mem_list c).mp hc).imp And.left And.left
    rcases hcase with rfl | rfl | hc
    · exact ⟨seg, hf.mem, by omega, by rw [h.restSize]; omega⟩
    · exact ⟨seg, hf.mem, hlo, by rw [h.size]; omega⟩
    · exact h.other c hc

end GiveBack

theorem kfree_pagesApart_iff {w : World} {p : ℕ} (h : Inv w) (hp : p ∈ w.live) :
    ∃ s, kfree p w.heap = some s ∧
      (PagesApart { w with heap := s, live := w.live.filter (· ≠ p) } ↔ ¬HandsOver w.heap (p - metaSize)) := by
  by_cases hg : GivesBack w.heap (p - metaSize)
  · obtain ⟨fl, blocks, hl⟩ := h.laid
    obtain ⟨s₁, fl₁, seg, l, b, r, hcall, hf, hk, hfree, hstart, hgives, -⟩ := kfree_joins hl hp
    obtain ⟨hsize, hend⟩ := hgives.mp hg
    obtain ⟨s', fl', hback, hs'⟩ := giveBack_halves hf hfree hsize hend
    have hb : p - metaSize - freeBefore w.heap (p - metaSize) = b := by omega
    refine ⟨s', hcall.trans hback, ?_⟩
    rw [HandsOver, hb]
    by_cases hal : b % pageSize = 0
    · exact ⟨fun happ => absurd happ (hs'.not_pagesApart hsize hf.lt hal _ _), fun hno => absurd ⟨hg, hal⟩ hno⟩
    · exact ⟨fun _ hover => hal hover.2, fun _ => hs'.pagesApart hf (by omega) hal (h.owned.kept hk) _⟩
  · obtain ⟨s, hcall, hi⟩ := kfree_inv h hp hg
    exact ⟨s, hcall, fun _ hover => hg hover.1, fun _ => hi.pagesApart⟩

/-- The heap and the other callers of the page allocator never own the same page, over
every run in which no `kfree` gives pages back and the heap does not get the page that
ends at 4 GiB. The next `kfree` keeps this exactly if it does not give back pages from a
block on a page boundary. -/
theorem pages_apart {w : World} (h : heapSystem.ReachableIf Sound w) :
    PagesApart w ∧ ∀ p ∈ w.live, ∃ s, kfree p w.heap = some s ∧
      (PagesApart { w with heap := s, live := w.live.filter (· ≠ p) } ↔ ¬HandsOver w.heap (p - metaSize)) :=
  ⟨(reachable_inv h).pagesApart, fun _ hp => kfree_pagesApart_iff (reachable_inv h) hp⟩

/-- A page for another caller between two calls of `kmalloc`, of which the second grows
the heap. -/
theorem pages_apart_grown :
    ∃ w, heapSystem.ReachableIf Sound w ∧ w.held = [0x111] ∧ w.live = [0x112010] ∧ w.heap.segments.length = 2 ∧
      PagesApart w := by
  obtain ⟨w, -, hw, hp⟩ := System.exists_reachableIf Sound bootWorld_init
    [.heapInit, .kmalloc 100, .pageAlloc, .kmalloc 70000, .kfree 0x101010]
    (fun w => w.held = [0x111] ∧ w.live = [0x112010] ∧ w.heap.segments.length = 2) (by decide +kernel)
  obtain ⟨hh, hl, hs⟩ := of_decide_eq_true hp
  exact ⟨w, hw, hh, hl, hs, (pages_apart hw).1⟩

/-- The free block that is split off stays on the free list, and its page is given back. -/
theorem pages_not_apart :
    ∃ w, heapSystem.runIf (fun _ _ => True) bootWorld giveBackRun = some w ∧ heapSystem.Reachable w ∧
      ¬PagesApart w := by
  obtain ⟨w, hrun, hw, hp⟩ := System.exists_reachableIf (fun _ _ => True) bootWorld_init giveBackRun
    (fun w => w.heap.freeListHead = 0x111000 ∧ w.heap.next 0x111000 = 0x121000 ∧ w.heap.size 0x121000 = 4112 ∧
      w.heap.pages.free 0x121 = true) (by decide +kernel)
  obtain ⟨hhead, hnext, hz, hfree⟩ := of_decide_eq_true hp
  have hon : OnFreeList w.heap 0x121000 := by
    have h₁ : OnFreeList w.heap w.heap.freeListHead := .head (by rw [hhead]; decide)
    rw [hhead] at h₁
    have h₂ := h₁.next (by rw [hnext]; decide)
    rw [hnext] at h₂
    exact h₂
  refine ⟨w, hrun, hw, fun happ => ?_⟩
  have hused := (happ 0x121000 0x121 (Or.inr hon) (by rw [Meets, hz]; decide)).1
  rw [hfree] at hused
  cases hused

end Novium.Mm
