import Novium.Mm.Layout

/-! The heap between two calls, and the heap around the block that a call works on. -/

namespace Novium.Mm

open Novium.Lib

def IsBlock (s : Heap) (blocks : Segment → List ℕ) (x : ℕ) : Prop := ∃ sg ∈ s.segments, x ∈ blocks sg

/-- The heap with the blocks `blocks`, the free list `fl` and the live pointers `live`. -/
structure Laid (s : Heap) (live fl : List ℕ) (blocks : Segment → List ℕ) : Prop where
  placed : Placed s.segments
  tiled : ∀ sg ∈ s.segments, ∃ q, Tiles s sg.base (0, false) (blocks sg) q sg.stop
  list : FreeList s fl
  mem_list : ∀ x, x ∈ fl ↔ IsBlock s blocks x ∧ s.isFree x = true
  mem_live : ∀ x, x ∈ live ↔ ∃ c, IsBlock s blocks c ∧ s.isFree c = false ∧ x = c + metaSize

def Other (s : Heap) (blocks : Segment → List ℕ) (seg : Segment) (l r : List ℕ) (x : ℕ) : Prop :=
  x ∈ l ∨ x ∈ r ∨ ∃ sg ∈ s.segments, sg ≠ seg ∧ x ∈ blocks sg

/-- The blocks around the block `b` of `seg`. The block before it is free if `g`, and
the row after it fits behind a block `t`. -/
structure Around (s : Heap) (blocks : Segment → List ℕ) (seg : Segment) (l : List ℕ) (b : ℕ) (r : List ℕ)
    (g : Bool) (t : ℕ × Bool) : Prop where
  placed : Placed s.segments
  mem : seg ∈ s.segments
  before : Tiles s seg.base (0, false) l (s.prevSize b, g) b
  magic : s.magic b = heapMagic
  dvd : 8 ∣ s.size b
  span : blockSpan ≤ s.size b
  after : ∃ q, Tiles s (b + s.size b) t r q seg.stop
  elsewhere : ∀ sg ∈ s.segments, sg ≠ seg → ∃ q, Tiles s sg.base (0, false) (blocks sg) q sg.stop

/-- The heap around the block `b` of `seg`, which is on the free list if `listed`; `live`
leaves out the pointer to `b`. -/
structure Focus (s : Heap) (live fl : List ℕ) (blocks : Segment → List ℕ) (seg : Segment)
    (l : List ℕ) (b : ℕ) (r : List ℕ) (g : Bool) (t : ℕ × Bool) (listed : Bool) : Prop
    extends Around s blocks seg l b r g t where
  list : FreeList s fl
  mem_list : ∀ x, x ∈ fl ↔ x = b ∧ listed = true ∨ Other s blocks seg l r x ∧ s.isFree x = true
  mem_live : ∀ x, x ∈ live ↔ ∃ c, Other s blocks seg l r c ∧ s.isFree c = false ∧ x = c + metaSize

namespace Around

variable {s : Heap} {blocks : Segment → List ℕ} {seg : Segment} {l r : List ℕ} {b c d : ℕ} {g : Bool} {t : ℕ × Bool}

theorem lo (h : Around s blocks seg l b r g t) : seg.base ≤ b := h.before.le

theorem hi (h : Around s blocks seg l b r g t) : b + s.size b ≤ seg.stop := by
  obtain ⟨q, hq⟩ := h.after
  exact hq.le

theorem lt (h : Around s blocks seg l b r g t) : b + s.size b < 2 ^ 32 :=
  Nat.lt_of_le_of_lt h.hi (h.placed.lt seg h.mem)

theorem pos (h : Around s blocks seg l b r g t) : 0 < b :=
  Nat.lt_of_lt_of_le (h.placed.pos seg h.mem) h.lo

theorem heapFindSegment (h : Around s blocks seg l b r g t) : heapFindSegment b s = some seg := by
  have := h.hi
  have := h.span
  unfold blockSpan at this
  exact h.placed.heapFindSegment h.mem h.lo (by omega)

theorem other_within (h : Around s blocks seg l b r g t) (hc : Other s blocks seg l r c) :
    ∃ sg ∈ s.segments, sg.base ≤ c ∧ c + s.size c ≤ sg.stop ∧ blockSpan ≤ s.size c := by
  rcases hc with hc | hc | ⟨sg, hsg, hne, hc⟩
  · have := h.before.within hc
    have := h.hi
    exact ⟨seg, h.mem, by omega, by omega, by omega⟩
  · obtain ⟨q, hq⟩ := h.after
    have := hq.within hc
    have := h.lo
    exact ⟨seg, h.mem, by omega, by omega, by omega⟩
  · obtain ⟨q, hq⟩ := h.elsewhere sg hsg hne
    exact ⟨sg, hsg, hq.within hc⟩

theorem other_span (h : Around s blocks seg l b r g t) (hc : Other s blocks seg l r c) :
    blockSpan ≤ s.size c := by
  obtain ⟨sg, -, -, -, hspan⟩ := h.other_within hc
  exact hspan

theorem other_beside (h : Around s blocks seg l b r g t) (hc : Other s blocks seg l r c) :
    c + s.size c ≤ b ∨ b + s.size b ≤ c := by
  rcases hc with hc | hc | ⟨sg, hsg, hne, hc⟩
  · exact Or.inl (h.before.within hc).2.1
  · obtain ⟨q, hq⟩ := h.after
    exact Or.inr (hq.within hc).1
  · obtain ⟨q, hq⟩ := h.elsewhere sg hsg hne
    have := hq.within hc
    have := h.lo
    have := h.hi
    rcases h.placed.apart sg hsg seg h.mem with heq | hap
    · exact absurd heq hne
    · omega

theorem other_ne (h : Around s blocks seg l b r g t) (hc : Other s blocks seg l r c) : c ≠ b := by
  have := h.other_beside hc
  have := h.other_span hc
  have := h.span
  unfold blockSpan at *
  omega

theorem beside_elsewhere (h : Around s blocks seg l b r g t) {sg : Segment} (hsg : sg ∈ s.segments) (hne : sg ≠ seg)
    {n m : ℕ} (hc : seg.base ≤ c ∧ c + n ≤ seg.stop) (hd : sg.base ≤ d ∧ d + m ≤ sg.stop) :
    c + n ≤ d ∨ d + m ≤ c := by
  rcases h.placed.apart sg hsg seg h.mem with heq | hap
  · exact absurd heq hne
  · omega

theorem elsewhere_ne (h : Around s blocks seg l b r g t) {sg : Segment} (hsg : sg ∈ s.segments) (hne : sg ≠ seg)
    (hc : c ∈ blocks sg) (hlo : seg.base ≤ d) (hhi : d + blockSpan ≤ seg.stop) : c ≠ d := by
  rintro rfl
  obtain ⟨q, hq⟩ := h.elsewhere sg hsg hne
  have hin := hq.within hc
  have := h.beside_elsewhere hsg hne (c := c) (d := c) ⟨hlo, hhi⟩ ⟨hin.1, hin.2.1⟩
  unfold blockSpan at *
  omega

theorem others_apart (h : Around s blocks seg l b r g t) (hc : Other s blocks seg l r c)
    (hd : Other s blocks seg l r d) : c = d ∨ c + s.size c ≤ d ∨ d + s.size d ≤ c := by
  obtain ⟨q, hq⟩ := h.after
  have hlo := h.lo
  have hhi := h.hi
  have hin : ∀ {x}, x ∈ l ∨ x ∈ r → seg.base ≤ x ∧ x + s.size x ≤ seg.stop := by
    rintro x (hx | hx)
    · have := h.before.within hx
      omega
    · have := hq.within hx
      omega
  rw [Other, ← or_assoc] at hc hd
  rcases hc with hc | ⟨sg, hsg, hne, hc⟩
  · rcases hd with hd | ⟨sg', hsg', hne', hd⟩
    · rcases hc with hc | hc <;> rcases hd with hd | hd
      · exact h.before.apart hc hd
      · have := h.before.within hc
        have := hq.within hd
        omega
      · have := hq.within hc
        have := h.before.within hd
        omega
      · exact hq.apart hc hd
    · obtain ⟨q', hq'⟩ := h.elsewhere sg' hsg' hne'
      have := hq'.within hd
      exact Or.inr (h.beside_elsewhere hsg' hne' (hin hc) ⟨this.1, this.2.1⟩)
  · obtain ⟨q₁, hq₁⟩ := h.elsewhere sg hsg hne
    have hc' := hq₁.within hc
    rcases hd with hd | ⟨sg', hsg', hne', hd⟩
    · exact Or.inr (h.beside_elsewhere hsg hne (hin hd) ⟨hc'.1, hc'.2.1⟩).symm
    · obtain ⟨q₂, hq₂⟩ := h.elsewhere sg' hsg' hne'
      have hd' := hq₂.within hd
      rcases h.placed.apart sg hsg sg' hsg' with rfl | hap
      · exact hq₁.apart hc hd
      · omega

theorem spaced (h : Around s blocks seg l b r g t) (hc : c = b ∨ Other s blocks seg l r c)
    (hd : d = b ∨ Other s blocks seg l r d) : c = d ∨ c + blockSpan ≤ d ∨ d + blockSpan ≤ c := by
  have hspan := h.span
  rcases hc with rfl | hc <;> rcases hd with rfl | hd
  · exact Or.inl rfl
  · have := h.other_beside hd
    have := h.other_span hd
    omega
  · have := h.other_beside hc
    have := h.other_span hc
    omega
  · have := h.others_apart hc hd
    have := h.other_span hc
    have := h.other_span hd
    omega

end Around

section

variable {s s' : Heap} {live live' fl fl' : List ℕ} {blocks : Segment → List ℕ} {seg : Segment} {l r : List ℕ}
  {b : ℕ} {g listed listed' : Bool} {t : ℕ × Bool}

theorem isBlock_iff (hm : seg ∈ s.segments) (hb : blocks seg = l ++ b :: r) (x : ℕ) :
    IsBlock s blocks x ↔ x = b ∨ Other s blocks seg l r x := by
  constructor
  · rintro ⟨sg, hsg, hx⟩
    by_cases hne : sg = seg
    · subst hne
      rw [hb, List.mem_append, List.mem_cons] at hx
      rcases hx with hx | hx | hx
      · exact Or.inr (Or.inl hx)
      · exact Or.inl hx
      · exact Or.inr (Or.inr (Or.inl hx))
    · exact Or.inr (Or.inr (Or.inr ⟨sg, hsg, hne, hx⟩))
  · rintro (hx | hx | hx | ⟨sg, hsg, -, hx⟩)
    · exact ⟨seg, hm, by simp [hb, hx]⟩
    · exact ⟨seg, hm, by simp [hb, hx]⟩
    · exact ⟨seg, hm, by simp [hb, hx]⟩
    · exact ⟨sg, hsg, hx⟩

theorem Laid.congr (h : Laid s live fl blocks) (hsegs : s'.segments = s.segments)
    (hfirst : s'.freeListHead = s.freeListHead) (hb : ∀ c, IsBlock s blocks c → s'.header c = s.header c)
    (hn : ∀ x ∈ fl, s'.next x = s.next x) (hp : ∀ x ∈ fl, s'.prev x = s.prev x) : Laid s' live fl blocks := by
  have hB : ∀ c, IsBlock s' blocks c ↔ IsBlock s blocks c := by
    intro c
    rw [IsBlock, hsegs, IsBlock]
  refine ⟨by rw [hsegs]; exact h.placed, fun sg hsg => ?_, h.list.congr hfirst hn hp, fun x => ?_, fun x => ?_⟩
  · rw [hsegs] at hsg
    obtain ⟨q, hq⟩ := h.tiled sg hsg
    exact ⟨q, hq.congr fun c hc => hb c ⟨sg, hsg, hc⟩⟩
  · rw [h.mem_list, hB]
    exact and_congr_right fun hx => by rw [isFree_of_header (hb x hx)]
  · rw [h.mem_live]
    refine exists_congr fun c => ?_
    rw [hB]
    exact and_congr_right fun hc => by rw [isFree_of_header (hb c hc)]

theorem Laid.focus (h : Laid s live fl blocks) (hm : seg ∈ s.segments) (hb : blocks seg = l ++ b :: r)
    (hlive : ∀ x, x ∈ live' ↔ x ∈ live ∧ x ≠ b + metaSize) :
    ∃ g, Focus s live' fl blocks seg l b r g (s.size b, s.isFree b) (s.isFree b) ∧
      ¬(g = true ∧ s.isFree b = true) := by
  obtain ⟨q, hq⟩ := h.tiled seg hm
  rw [hb] at hq
  obtain ⟨p, m, h₁, rfl, hmagic, hprev, hg, hdvd, hspan, h₂⟩ := hq.split
  have ha : Around s blocks seg l b r p.2 (s.size b, s.isFree b) :=
    ⟨h.placed, hm, by rw [hprev]; exact h₁, hmagic, hdvd, hspan, ⟨q, h₂⟩, fun sg hsg _ => h.tiled sg hsg⟩
  refine ⟨p.2, ⟨ha, h.list, fun x => ?_, fun x => ?_⟩, hg⟩
  · rw [h.mem_list, isBlock_iff hm hb, or_and_right]
    refine or_congr_left (and_congr_right fun hx => ?_)
    rw [hx]
  · rw [hlive, h.mem_live]
    constructor
    · rintro ⟨⟨c, hc, hf, rfl⟩, hne⟩
      refine ⟨c, ((isBlock_iff hm hb c).mp hc).resolve_left fun hcb => hne (by rw [hcb]), hf, rfl⟩
    · rintro ⟨c, hc, hf, rfl⟩
      refine ⟨⟨c, (isBlock_iff hm hb c).mpr (Or.inr hc), hf, rfl⟩, fun he => ha.other_ne hc ?_⟩
      exact Nat.add_right_cancel he

theorem Laid.focusLive (h : Laid s live fl blocks) {p : ℕ} (hp : p ∈ live) :
    ∃ seg l b r g, p = b + metaSize ∧ s.isFree b = false ∧
      Focus s (live.filter (· ≠ p)) fl blocks seg l b r g (s.size b, false) false ∧
      ∀ c, IsBlock s blocks c ↔ c = b ∨ Other s blocks seg l r c := by
  obtain ⟨b, ⟨seg, hseg, hmem⟩, hfree, rfl⟩ := (h.mem_live p).mp hp
  obtain ⟨l, r, hlr⟩ := List.append_of_mem hmem
  have hlive : ∀ x, x ∈ live.filter (· ≠ b + metaSize) ↔ x ∈ live ∧ x ≠ b + metaSize := by simp
  obtain ⟨g, hf, -⟩ := h.focus hseg hlr hlive
  rw [hfree] at hf
  exact ⟨seg, l, b, r, g, rfl, hfree, hf, isBlock_iff hseg hlr⟩

theorem Focus.close (h : Focus s live fl blocks seg l b r g t listed) (hfree : s.isFree b = listed)
    (hg : ¬(g = true ∧ listed = true)) (ht : t.1 = s.size b) (hf : listed = true → t.2 = true)
    (hlive : ∀ x, x ∈ live' ↔ x ∈ live ∨ listed = false ∧ x = b + metaSize) :
    Laid s live' fl (Function.update blocks seg (l ++ b :: r)) := by
  have hb : Function.update blocks seg (l ++ b :: r) seg = l ++ b :: r := Function.update_self ..
  have hother : ∀ x, Other s (Function.update blocks seg (l ++ b :: r)) seg l r x ↔ Other s blocks seg l r x := by
    intro x
    refine or_congr_right (or_congr_right (exists_congr fun sg => and_congr_right fun _ => ?_))
    exact and_congr_right fun hne => by rw [Function.update_of_ne hne]
  refine ⟨h.placed, fun sg hsg => ?_, h.list, fun x => ?_, fun x => ?_⟩
  · by_cases hne : sg = seg
    · subst hne
      rw [hb]
      obtain ⟨q, hq⟩ := h.after
      obtain ⟨v, f⟩ := t
      obtain ⟨q', hq'⟩ := hq.weaken hf
      obtain rfl : v = s.size b := ht
      refine ⟨q', h.before.append ⟨rfl, h.magic, rfl, by rw [hfree]; exact hg, h.dvd, h.span, ?_⟩⟩
      rw [hfree]
      exact hq'
    · rw [Function.update_of_ne hne]
      exact h.elsewhere sg hsg hne
  · rw [h.mem_list, isBlock_iff h.mem hb, hother, or_and_right, ← hfree]
    refine or_congr_left (and_congr_right fun hx => ?_)
    rw [hx]
  · rw [hlive, h.mem_live]
    simp only [isBlock_iff h.mem hb, hother]
    constructor
    · rintro (⟨c, hc, hf, rfl⟩ | ⟨hl, rfl⟩)
      · exact ⟨c, Or.inr hc, hf, rfl⟩
      · exact ⟨b, Or.inl rfl, hfree.trans hl, rfl⟩
    · rintro ⟨c, rfl | hc, hf, rfl⟩
      · exact Or.inr ⟨hfree.symm.trans hf, rfl⟩
      · exact Or.inl ⟨c, hc, hf, rfl⟩

end

end Novium.Mm
