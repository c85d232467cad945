import Novium.Lib.Runs
import Novium.Mm.Kfree
import Novium.Mm.Kmalloc

/-! Runs of the two allocators: `HeapInit` after `PageAllocInit`, then calls of `kmalloc`
and of `kfree` on live pointers, in any order with the calls of the page allocator by
others, and with what callers write into the memory that they got. -/

namespace Novium.Mm

open Novium.Lib

/-- The heap, the pointers that `kmalloc` returned and nobody has freed yet, and the
pages that other callers of the page allocator hold; `up` once `HeapInit` has run. -/
structure World where
  heap : Heap
  live : List ℕ
  held : List ℕ
  up : Bool

inductive Event where
  | heapInit
  | kmalloc (size : ℕ)
  | kfree (p : ℕ)
  | pageAlloc
  | pageAllocPages (count : ℕ)
  | pageFree (address : ℕ)
  | pageFreePages (address count : ℕ)
  | store (a v : ℕ)

/-- Addresses that a caller may write: in the payload of a live block, or outside the heap. -/
def Writable (w : World) (a : ℕ) : Prop :=
  (∃ p ∈ w.live, p ≤ a ∧ a < p - metaSize + w.heap.size (p - metaSize)) ∨
    ∀ sg ∈ w.heap.segments, a < sg.base ∨ sg.stop ≤ a

instance (w : World) (a : ℕ) : Decidable (Writable w a) := inferInstanceAs (Decidable (_ ∨ _))

def World.hold (w : World) (count : ℕ) (r : Pages × ℕ) : World :=
  { w with heap := { w.heap with pages := r.1 }, held := runPages r.2 count ++ w.held }

def World.release (w : World) (address count : ℕ) (ps : Pages) : World :=
  { w with heap := { w.heap with pages := ps }, held := w.held.filter (· ∉ List.range' (address / pageSize) count) }

def World.next (w : World) : Event → Option World
  | .heapInit => if w.up then none else (heapInit w.heap).map fun s => { w with heap := s, up := true }
  | .kmalloc size =>
    if w.up then
      (kmalloc size w.heap).map fun r => { w with heap := r.1, live := if r.2 = 0 then w.live else r.2 :: w.live }
    else none
  | .kfree p =>
    if p ∈ w.live then (kfree p w.heap).map fun s => { w with heap := s, live := w.live.filter (· ≠ p) } else none
  | .pageAlloc => some (w.hold 1 (pageAlloc w.heap.pages))
  | .pageAllocPages count => some (w.hold count (pageAllocPages count w.heap.pages))
  | .pageFree address =>
    if address / pageSize ∈ w.held then some (w.release address 1 (pageFree address w.heap.pages)) else none
  | .pageFreePages address count =>
    if ∀ q ∈ List.range' (address / pageSize) count, q ∈ w.held then
      some (w.release address count (pageFreePages address count w.heap.pages))
    else none
  | .store a v => if Writable w a then some { w with heap := w.heap.set a 0 v } else none

/-- Memory is as the boot loader left it, apart from what `PageAllocInit` set up. -/
def heapSystem : System World Event where
  init w := w.heap.segments = [] ∧ w.heap.freeListHead = 0 ∧ w.live = [] ∧ w.held = [] ∧ w.up = false ∧
    ∃ bytes kernelStart kernelEnd boot, pageAllocInit bytes kernelStart kernelEnd boot = some w.heap.pages
  next := World.next

/-- The page that ends at 4 GiB does not go to the heap. -/
def StaysBelow (w : World) : Event → Prop
  | .heapInit => GrowsBelow w.heap heapGrowPages
  | .kmalloc size => MallocsBelow w.heap size
  | _ => True

def KeepsPages (w : World) : Event → Prop
  | .kfree p => ¬GivesBack w.heap (p - metaSize)
  | _ => True

def Sound (w : World) (e : Event) : Prop := StaysBelow w e ∧ KeepsPages w e

instance (s : Heap) (pages : ℕ) : Decidable (GrowsBelow s pages) := inferInstanceAs (Decidable (_ → _))

instance (s : Heap) (size : ℕ) : Decidable (MallocsBelow s size) := inferInstanceAs (Decidable (_ → _ → _ → _))

instance (s : Heap) (b : ℕ) : Decidable (GivesBack s b) := inferInstanceAs (Decidable (_ ∧ _))

instance (w : World) : (e : Event) → Decidable (StaysBelow w e)
  | .heapInit => inferInstanceAs (Decidable (GrowsBelow _ _))
  | .kmalloc _ => inferInstanceAs (Decidable (MallocsBelow _ _))
  | .kfree _ | .pageAlloc | .pageAllocPages _ | .pageFree _ | .pageFreePages _ _ | .store _ _ => .isTrue trivial

instance (w : World) : (e : Event) → Decidable (KeepsPages w e)
  | .kfree _ => inferInstanceAs (Decidable (¬_))
  | .heapInit | .kmalloc _ | .pageAlloc | .pageAllocPages _ | .pageFree _ | .pageFreePages _ _ | .store _ _ =>
    .isTrue trivial

instance (w : World) (e : Event) : Decidable (Sound w e) := inferInstanceAs (Decidable (_ ∧ _))

structure Inv (w : World) : Prop where
  owned : Owned w.heap w.held
  laid : ∃ fl blocks, Laid w.heap w.live fl blocks
  down : w.up = false → w.heap.segments = [] ∧ w.live = []

theorem Laid.empty {s : Heap} (hs : s.segments = []) (h0 : s.freeListHead = 0) (blocks : Segment → List ℕ) :
    Laid s [] [] blocks := by
  refine ⟨⟨?_, ?_, ?_, ?_, ?_⟩, ?_, ⟨⟨0, h0, rfl⟩, .nil, by simp⟩, fun x => ?_, fun x => ?_⟩
  all_goals simp [hs, IsBlock]

theorem init_inv {w : World} (h : heapSystem.init w) : Inv w := by
  obtain ⟨hs, h0, hlive, hheld, -⟩ := h
  refine ⟨⟨?_, ?_, ?_⟩, ⟨[], fun _ => [], ?_⟩, fun _ => ⟨hs, hlive⟩⟩
  · simp [hs]
  · simp [hheld]
  · simp [hheld]
  · rw [hlive]
    exact Laid.empty hs h0 _

section PageCalls

variable {w : World}

theorem Inv.pages {ps : Pages} {held : List ℕ} (h : Inv w) (ho : Owned { w.heap with pages := ps } held) :
    Inv { w with heap := { w.heap with pages := ps }, held := held } := by
  obtain ⟨fl, blocks, hl⟩ := h.laid
  refine ⟨ho, ⟨fl, blocks, ?_⟩, h.down⟩
  exact hl.congr rfl rfl (fun _ _ => rfl) (fun _ _ => rfl) fun _ _ => rfl

theorem hold_inv {ps : Pages} {addr count : ℕ} (h : Inv w)
    (hr : (ps = w.heap.pages ∧ addr = 0) ∨ Took w.heap.pages ps addr count) : Inv (w.hold count (ps, addr)) := by
  refine h.pages ?_
  rcases hr with ⟨rfl, rfl⟩ | ht
  · exact h.owned
  · have ho := h.owned.took ht
    refine ⟨ho.segments, fun q hq => ?_, fun q hq sg hsg hcov => ?_⟩
    · rcases List.mem_append.mp hq with hq | hq
      · show ps.free q = false
        rw [ht.free, if_pos (mem_runPages.mp hq).2]
      · exact ho.used q hq
    · rcases List.mem_append.mp hq with hq | hq
      · obtain ⟨-, hle, hlt⟩ := mem_runPages.mp hq
        have hwere := ht.were q hle hlt
        rw [h.owned.segments sg hsg q hcov] at hwere
        cases hwere
      · exact ho.outside q hq sg hsg hcov

theorem release_inv {ps : Pages} {address count : ℕ} (h : Inv w)
    (hheld : ∀ q ∈ List.range' (address / pageSize) count, q ∈ w.held)
    (hps : ∀ q, ps.free q = true → w.heap.pages.free q = true ∨ q ∈ List.range' (address / pageSize) count) :
    Inv (w.release address count ps) := by
  have hused : ∀ q, w.heap.pages.free q = false → q ∉ List.range' (address / pageSize) count → ps.free q = false := by
    intro q hq hout
    by_contra hfree
    rcases hps q (by simpa using hfree) with hf | hf
    · rw [hq] at hf
      cases hf
    · exact hout hf
  refine h.pages ⟨fun sg hsg q hcov => ?_, fun q hq => ?_, fun q hq => ?_⟩
  · exact hused q (h.owned.segments sg hsg q hcov) fun hin => h.owned.outside q (hheld q hin) sg hsg hcov
  · have hq := List.mem_filter.mp hq
    exact hused q (h.owned.used q hq.1) (of_decide_eq_true hq.2)
  · exact h.owned.outside q (List.mem_filter.mp hq).1

end PageCalls

section HeapCalls

variable {w : World}

theorem Laid.store {s : Heap} {live fl : List ℕ} {blocks : Segment → List ℕ} {a v : ℕ} (h : Laid s live fl blocks)
    (hb : ∀ c, IsBlock s blocks c → ∀ k < blockSpan, k < metaSize ∨ s.isFree c = true → c + k ≠ a) :
    Laid (s.set a 0 v) live fl blocks := by
  refine h.congr rfl rfl (fun c hc => header_congr fun k hk => ?_) (fun x hx => ?_) fun x hx => ?_
  · rw [fld_set, Nat.add_zero, if_neg (hb c hc k (Nat.lt_trans hk (by decide)) (Or.inl hk))]
  · have hx := (h.mem_list x).mp hx
    rw [Heap.next, fld_set, if_neg (show x + 20 ≠ a + 0 from hb x hx.1 20 (by decide) (Or.inr hx.2))]
    rfl
  · have hx := (h.mem_list x).mp hx
    rw [Heap.prev, fld_set, if_neg (show x + 16 ≠ a + 0 from hb x hx.1 16 (by decide) (Or.inr hx.2))]
    rfl

theorem store_inv {a : ℕ} (h : Inv w) (ha : Writable w a) (v : ℕ) : Inv { w with heap := w.heap.set a 0 v } := by
  obtain ⟨fl, blocks, hl⟩ := h.laid
  refine ⟨h.owned.kept ⟨rfl, rfl⟩, ⟨fl, blocks, hl.store fun c hc k hk hkc => ?_⟩, h.down⟩
  rcases ha with ⟨p, hp, hlo, hhi⟩ | hout
  · obtain ⟨seg, l, b, r, g, rfl, hfree, hf, hblock⟩ := hl.focusLive hp
    rw [Nat.add_sub_cancel] at hhi
    rcases (hblock c).mp hc with rfl | hc
    · rw [hfree] at hkc
      have := hkc.resolve_right (by decide)
      omega
    · have := hf.other_beside hc
      have := hf.other_span hc
      omega
  · obtain ⟨sg, hsg, hmem⟩ := hc
    obtain ⟨q, hq⟩ := hl.tiled sg hsg
    have := hq.within hmem
    have := hout sg hsg
    omega

theorem heapInit_inv (h : Inv w) (hup : w.up = false) (hok : GrowsBelow w.heap heapGrowPages) :
    ∃ s, heapInit w.heap = some s ∧ Inv { w with heap := s, up := true } := by
  obtain ⟨hs, hlive⟩ := h.down hup
  have hl : Laid { w.heap with freeListHead := 0 } w.live [] fun _ => [] := by
    rw [hlive]
    exact Laid.empty (s := { w.heap with freeListHead := 0 }) hs rfl _
  obtain ⟨s, b, hgrow, ho, hres⟩ := heapGrow_cases hl (h.owned.kept ⟨rfl, rfl⟩) hok
  refine ⟨s, by rw [heapInit, hgrow]; rfl, ho, ?_, fun hf => absurd hf (by simp)⟩
  rcases hres with ⟨-, hl'⟩ | ⟨fl', seg, hf, hz, hfree, -⟩
  · exact ⟨_, _, hl'⟩
  · exact ⟨_, _, hf.close hfree (by simp) hz.symm (by simp) fun x => by simp⟩

theorem kmalloc_inv {size : ℕ} (h : Inv w) (hup : w.up = true) (hok : MallocsBelow w.heap size) :
    ∃ s p, kmalloc size w.heap = some (s, p) ∧
      Inv { w with heap := s, live := if p = 0 then w.live else p :: w.live } := by
  obtain ⟨fl, blocks, hl⟩ := h.laid
  obtain ⟨s, p, hcall, ho, fl', blocks', hl'⟩ := kmalloc_spec hl h.owned hok
  exact ⟨s, p, hcall, ho, ⟨fl', blocks', hl'⟩, fun hf => absurd (hup.symm.trans hf) (by decide)⟩

theorem kfree_inv {p : ℕ} (h : Inv w) (hp : p ∈ w.live) (hok : ¬GivesBack w.heap (p - metaSize)) :
    ∃ s, kfree p w.heap = some s ∧ Inv { w with heap := s, live := w.live.filter (· ≠ p) } := by
  obtain ⟨fl, blocks, hl⟩ := h.laid
  obtain ⟨s, hcall, hk, -, fl', blocks', hl'⟩ := kfree_spec hl hp hok
  refine ⟨s, hcall, h.owned.kept hk, ⟨fl', blocks', hl'⟩, fun hf => ?_⟩
  rw [(h.down hf).2] at hp
  cases hp

end HeapCalls

theorem next_inv {w w' : World} {e : Event} (h : Inv w) (hok : Sound w e) (hn : heapSystem.next w e = some w') :
    Inv w' := by
  change w.next e = some w' at hn
  cases e with
  | heapInit =>
    rw [World.next] at hn
    split_ifs at hn with hup
    obtain ⟨s, hcall, hi⟩ := heapInit_inv h (by simpa using hup) hok.1
    rw [hcall] at hn
    cases hn
    exact hi
  | kmalloc size =>
    rw [World.next] at hn
    split_ifs at hn with hup
    obtain ⟨s, p, hcall, hi⟩ := kmalloc_inv h hup hok.1
    rw [hcall] at hn
    cases hn
    exact hi
  | kfree p =>
    rw [World.next] at hn
    split_ifs at hn with hp
    obtain ⟨s, hcall, hi⟩ := kfree_inv h hp hok.2
    rw [hcall] at hn
    cases hn
    exact hi
  | pageAlloc =>
    cases hn
    rcases pageAlloc_cases w.heap.pages with hr | ⟨ps, addr, hr, ht⟩
    · rw [hr]
      exact hold_inv h (Or.inl ⟨rfl, rfl⟩)
    · rw [hr]
      exact hold_inv h (Or.inr ht)
  | pageAllocPages count =>
    cases hn
    rcases pageAllocPages_cases count w.heap.pages with hr | ⟨ps, addr, hr, ht⟩
    · rw [hr]
      exact hold_inv h (Or.inl ⟨rfl, rfl⟩)
    · rw [hr]
      exact hold_inv h (Or.inr ht)
  | pageFree address =>
    rw [World.next] at hn
    split_ifs at hn with hheld
    cases hn
    refine release_inv h (by simpa using hheld) fun q hq => ?_
    simpa using pageFree_free hq
  | pageFreePages address count =>
    rw [World.next] at hn
    split_ifs at hn with hheld
    cases hn
    refine release_inv h hheld fun q hq => ?_
    rw [List.mem_range'_1]
    exact pageFreePages_free hq
  | store a v =>
    rw [World.next] at hn
    split_ifs at hn with ha
    cases hn
    exact store_inv h ha v

theorem reachable_inv {w : World} (h : heapSystem.ReachableIf Sound w) : Inv w :=
  h.invariant (fun _ => init_inv) fun _ _ _ => next_inv

theorem calls_return {w : World} (h : heapSystem.ReachableIf Sound w) (hup : w.up = true) :
    (∀ size, MallocsBelow w.heap size → ∃ r, kmalloc size w.heap = some r) ∧
      ∀ p ∈ w.live, ¬GivesBack w.heap (p - metaSize) → ∃ s, kfree p w.heap = some s := by
  have hi := reachable_inv h
  refine ⟨fun size hok => ?_, fun p hp hok => ?_⟩
  · obtain ⟨s, p, hcall, -⟩ := kmalloc_inv hi hup hok
    exact ⟨(s, p), hcall⟩
  · obtain ⟨s, hcall, -⟩ := kfree_inv hi hp hok
    exact ⟨s, hcall⟩

end Novium.Mm
