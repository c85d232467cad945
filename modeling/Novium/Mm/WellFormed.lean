import Novium.Mm.HeapSafety

/-! The representation invariant of the heap as a condition on one state, apart from the
runs that lead to it. `WellFormed` says the same as `Laid` and `Owned`, without the list of
the live pointers. -/

namespace Novium.Mm

open Novium.Lib

/-- The segments are pages marked used, end below 4 GiB and are filled by blocks with the right headers, no two
free ones side by side, and the free list holds the free blocks in order. -/
structure WellFormed (s : Heap) (blocks : Segment → List ℕ) (fl : List ℕ) : Prop where
  represents : Represents s blocks fl
  placed : Placed s.segments
  used : ∀ sg ∈ s.segments, ∀ q, sg.covers q → s.pages.free q = false

def IsLive (s : Heap) (blocks : Segment → List ℕ) (c : ℕ) : Prop := IsBlock s blocks c ∧ s.isFree c = false

def livePointers (s : Heap) (blocks : Segment → List ℕ) : List ℕ :=
  ((s.segments.flatMap blocks).filter fun c => !s.isFree c).map (· + metaSize)

section

variable {s : Heap} {live fl held : List ℕ} {blocks : Segment → List ℕ} {c d : ℕ}

theorem mem_livePointers {x : ℕ} :
    x ∈ livePointers s blocks ↔ ∃ c, IsBlock s blocks c ∧ s.isFree c = false ∧ x = c + metaSize := by
  simp only [livePointers, List.mem_map, List.mem_filter, List.mem_flatMap, Bool.not_eq_true', IsBlock]
  constructor
  · rintro ⟨c, ⟨hc, hf⟩, rfl⟩
    exact ⟨c, hc, hf, rfl⟩
  · rintro ⟨c, hc, hf, rfl⟩
    exact ⟨c, ⟨hc, hf⟩, rfl⟩

theorem pointer_mem_livePointers : c + metaSize ∈ livePointers s blocks ↔ IsLive s blocks c := by
  rw [mem_livePointers]
  constructor
  · rintro ⟨d, hd, hf, he⟩
    rw [Nat.add_right_cancel he]
    exact ⟨hd, hf⟩
  · rintro ⟨hc, hf⟩
    exact ⟨c, hc, hf, rfl⟩

theorem Row.tiles {a p e : ℕ} {f : Bool} {l : List ℕ} (h : Row s a p l e)
    (hc : l.IsChain fun x y => ¬(s.isFree x = true ∧ s.isFree y = true))
    (hf : ∀ b ∈ l.head?, ¬(f = true ∧ s.isFree b = true)) : ∃ q, Tiles s a (p, f) l q e := by
  induction l generalizing a p f with
  | nil => exact ⟨(p, f), h, rfl⟩
  | cons b l ih =>
    obtain ⟨h1, h2, h3, h4, h5, hr⟩ := h
    have hnext : ∀ d ∈ l.head?, ¬(s.isFree b = true ∧ s.isFree d = true) := by
      intro d hd
      obtain ⟨l', rfl⟩ := List.head?_eq_some_iff.mp hd
      exact (List.isChain_cons_cons.mp hc).1
    obtain ⟨q, hq⟩ := ih hr hc.tail hnext
    exact ⟨q, h1, h2, h5, hf b rfl, h3, h4, hq⟩

theorem Tiles.aligned {a e : ℕ} {p q : ℕ × Bool} {l : List ℕ} (h : Tiles s a p l q e) (ha : 8 ∣ a) (hc : c ∈ l) :
    8 ∣ c ∧ 8 ∣ s.size c := by
  induction l generalizing a p with
  | nil => cases hc
  | cons b l ih =>
    obtain ⟨rfl, -, -, -, h8, -, hr⟩ := h
    rcases List.mem_cons.mp hc with rfl | hc
    · exact ⟨ha, h8⟩
    · exact ih hr (Nat.dvd_add ha h8) hc

theorem block_within (ht : ∀ sg ∈ s.segments, ∃ q, Tiles s sg.base (0, false) (blocks sg) q sg.stop)
    (hp : Placed s.segments) (hc : IsBlock s blocks c) :
    ∃ sg ∈ s.segments, sg.base ≤ c ∧ c + s.size c ≤ sg.stop ∧ blockSpan ≤ s.size c ∧ (8 ∣ c ∧ 8 ∣ s.size c) ∧
      pageSize ≤ c := by
  obtain ⟨sg, hsg, hmem⟩ := hc
  obtain ⟨q, hq⟩ := ht sg hsg
  obtain ⟨h1, h2, h3⟩ := hq.within hmem
  have hpos := hp.pos sg hsg
  have hal := (hp.aligned sg hsg).1
  refine ⟨sg, hsg, h1, h2, h3, hq.aligned ?_ hmem, ?_⟩
  · unfold pageSize at hal
    omega
  · unfold pageSize at *
    omega

theorem blocks_apart (ht : ∀ sg ∈ s.segments, ∃ q, Tiles s sg.base (0, false) (blocks sg) q sg.stop)
    (hp : Placed s.segments) (hc : IsBlock s blocks c) (hd : IsBlock s blocks d) :
    c = d ∨ c + s.size c ≤ d ∨ d + s.size d ≤ c := by
  obtain ⟨sg, hsg, hcs⟩ := hc
  obtain ⟨sg', hsg', hds⟩ := hd
  obtain ⟨q, hq⟩ := ht sg hsg
  obtain ⟨q', hq'⟩ := ht sg' hsg'
  have h1 := hq.within hcs
  have h2 := hq'.within hds
  rcases hp.apart sg hsg sg' hsg' with rfl | hap
  · exact hq.apart hcs hds
  · omega

end

namespace WellFormed

variable {s : Heap} {live fl held : List ℕ} {blocks : Segment → List ℕ} {c d : ℕ}

theorem tiled (h : WellFormed s blocks fl) :
    ∀ sg ∈ s.segments, ∃ q, Tiles s sg.base (0, false) (blocks sg) q sg.stop := fun sg hsg =>
  (h.represents.tiled sg hsg).tiles (h.represents.coalesced sg hsg) (by simp)

theorem within (h : WellFormed s blocks fl) (hc : IsBlock s blocks c) :
    ∃ sg ∈ s.segments, sg.base ≤ c ∧ c + s.size c ≤ sg.stop ∧ blockSpan ≤ s.size c ∧ (8 ∣ c ∧ 8 ∣ s.size c) ∧
      pageSize ≤ c :=
  block_within h.tiled h.placed hc

theorem apart (h : WellFormed s blocks fl) (hc : IsBlock s blocks c) (hd : IsBlock s blocks d) :
    c = d ∨ c + s.size c ≤ d ∨ d + s.size d ≤ c := blocks_apart h.tiled h.placed hc hd

theorem block_of_mem (h : WellFormed s blocks fl) (hc : c ∈ fl) : IsBlock s blocks c :=
  ((h.represents.mem_list c).mp hc).1

theorem live_ne (h : WellFormed s blocks fl) (hc : IsLive s blocks c) (hd : d ∈ fl) : c ≠ d := by
  rintro rfl
  have hfree := ((h.represents.mem_list c).mp hd).2
  rw [hc.2] at hfree
  cases hfree

theorem nodes_beside (h : WellFormed s blocks fl) {a n : ℕ}
    (hbeside : ∀ sg ∈ s.segments, sg.stop ≤ a ∨ a + n ≤ sg.base) : ∀ x ∈ fl, x + blockSpan ≤ a ∨ a + n ≤ x := by
  intro x hx
  obtain ⟨sg, hsg, hlo, hhi, hspan, -⟩ := h.within (h.block_of_mem hx)
  have := hbeside sg hsg
  omega

theorem freeList (h : WellFormed s blocks fl) : FreeList s fl := by
  refine ⟨h.represents.linked, ?_, fun x hx => ?_⟩
  · refine h.represents.increasing.imp_of_mem fun {x y} hx hy hxy => ?_
    obtain ⟨-, -, -, -, hspan, -⟩ := h.within (h.block_of_mem hx)
    have := h.apart (h.block_of_mem hx) (h.block_of_mem hy)
    omega
  · obtain ⟨sg, hsg, -, hhi, -⟩ := h.within (h.block_of_mem hx)
    have := h.placed.lt sg hsg
    omega

theorem laid (h : WellFormed s blocks fl) : Laid s (livePointers s blocks) fl blocks :=
  ⟨h.placed, h.tiled, h.freeList, h.represents.mem_list, fun _ => mem_livePointers⟩

theorem owned (h : WellFormed s blocks fl) (hlast : s.pages.free (pageCount - 1) = false) : Owned s [pageCount - 1] := by
  refine ⟨h.used, ?_, ?_⟩
  · simpa using hlast
  · intro q hq sg hsg hcov
    obtain rfl : q = pageCount - 1 := by simpa using hq
    have hlt := h.placed.lt sg hsg
    have hal := (h.placed.aligned sg hsg).2
    unfold Segment.covers pageCount pageSize at *
    omega

end WellFormed

theorem Laid.wellFormed {s : Heap} {live fl held : List ℕ} {blocks : Segment → List ℕ} (h : Laid s live fl blocks)
    (ho : Owned s held) : WellFormed s blocks fl := ⟨h.represents, h.placed, ho.segments⟩

/-- Runs lead to well-formed heaps, in which the live blocks are the ones that callers hold. -/
theorem reachable_wellFormed {w : World} (h : heapSystem.ReachableIf Sound w) :
    ∃ blocks fl, WellFormed w.heap blocks fl ∧ ∀ c, c + metaSize ∈ w.live ↔ IsLive w.heap blocks c := by
  have hi := reachable_inv h
  obtain ⟨fl, blocks, hl⟩ := hi.laid
  refine ⟨blocks, fl, hl.wellFormed hi.owned, fun c => ?_⟩
  rw [hl.mem_live, ← mem_livePointers, pointer_mem_livePointers]

end Novium.Mm
