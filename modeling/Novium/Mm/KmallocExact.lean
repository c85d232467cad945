import Novium.Mm.KmallocWrites
import Novium.Mm.PageRuns

/-! When `kmalloc` returns 0. The free list is searched to its end, and the page allocator
finds a run of pages whenever there is one; a call that fails has changed nothing. -/

namespace Novium.Mm

open Novium.Lib

def HasRun (ps : Pages) (address count : ℕ) : Prop :=
  ∃ start, address ≤ start * pageSize ∧ ∀ q, start ≤ q → q < start + count → ps.free q = true

theorem Tallied.run_le {ps : Pages} {start count : ℕ} (h : Tallied ps)
    (hfree : ∀ q, start ≤ q → q < start + count → ps.free q = true) : count ≤ ps.freePages := by
  rw [h.count]
  exact run_le_card fun q hlo hhi => ⟨h.above q (hfree q hlo hhi), hfree q hlo hhi⟩

/-- `PageAllocPagesAt` fails only when there is no such run, and then it changes nothing. -/
theorem pageAllocPagesAt_exact {ps : Pages} {hint count : ℕ} (h : Tallied ps) (h0 : ps.free 0 = false)
    (hal : hint % pageSize = 0) (hpos : 0 < count) :
    HasRun ps hint count ∧ (pageAllocPagesAt hint count ps).2 ≠ 0 ∨
      ¬HasRun ps hint count ∧ pageAllocPagesAt hint count ps = (ps, 0) := by
  unfold pageAllocPagesAt
  by_cases hrun : HasRun ps hint count
  · refine .inl ⟨hrun, ?_⟩
    obtain ⟨start, hlo, hfree⟩ := hrun
    -- the run itself bounds its length
    have hle := h.run_le hfree
    have hcard := card_freeSet_le ps
    rw [← h.count] at hcard
    rw [if_neg (by omega)]
    cases hfind : findRun ps count (pageCount + 1) (hint / pageSize) with
    | none =>
      have hlast := h.above (start + count - 1) (hfree _ (by omega) (by omega))
      obtain ⟨q, hq1, hq2, hused⟩ := findRun_none (by unfold pageSize; omega) hfind (r := start)
        (by unfold pageSize at *; omega) (by omega)
      rw [hfree q hq1 hq2] at hused
      cases hused
    | some found =>
      obtain ⟨-, hle, hfree⟩ := findRun_some hfind
      have hne : found ≠ 0 := by
        rintro rfl
        rw [hfree 0 (by omega) (by omega)] at h0
        cases h0
      show u32 (found * pageSize) ≠ 0
      rw [u32_of_lt (by unfold pageSize pageCount at *; omega)]
      unfold pageSize
      omega
  · refine .inr ⟨hrun, ?_⟩
    split_ifs with hguard
    · rfl
    · cases hfind : findRun ps count (pageCount + 1) (hint / pageSize) with
      | none => rfl
      | some found =>
        obtain ⟨hlo, -, hfree⟩ := findRun_some hfind
        exact absurd ⟨found, by unfold pageSize at *; omega, hfree⟩ hrun

def highestEnd (s : Heap) : ℕ := (s.segments.map Segment.stop).foldr max 0

theorem foldl_hint (l : List Segment) (hint : ℕ) :
    l.foldl (fun hint seg => if seg.stop > hint then seg.stop else hint) hint =
      max hint ((l.map Segment.stop).foldr max 0) := by
  induction l generalizing hint with
  | nil => simp
  | cons sg l ih =>
    rw [List.foldl_cons, ih, List.map_cons, List.foldr_cons]
    split_ifs <;> omega

theorem heapGrowthHint_eq (s : Heap) : heapGrowthHint s = highestEnd s := by
  rw [heapGrowthHint, foldl_hint, Nat.zero_max]
  rfl

theorem foldr_max_aligned {l : List ℕ} (h : ∀ x ∈ l, x % pageSize = 0) : l.foldr max 0 % pageSize = 0 := by
  induction l with
  | nil => rfl
  | cons x l ih =>
    rw [List.foldr_cons]
    have hx := h x (by simp)
    have hl := ih fun y hy => h y (by simp [hy])
    rcases le_total x (l.foldr max 0) with hle | hle
    · rw [max_eq_right hle]
      exact hl
    · rw [max_eq_left hle]
      exact hx

theorem Placed.highestEnd_aligned {s : Heap} (h : Placed s.segments) : highestEnd s % pageSize = 0 := by
  refine foldr_max_aligned fun x hx => ?_
  obtain ⟨sg, hsg, rfl⟩ := List.mem_map.mp hx
  exact (h.aligned sg hsg).2

def totalSize (size : ℕ) : ℕ := (size + 16 + 7) / 8 * 8

/-- No free block has `total` bytes, and the heap cannot grow by enough pages for one. -/
def Exhausted (s : Heap) (blocks : Segment → List ℕ) (total : ℕ) : Prop :=
  (∀ b, IsBlock s blocks b → s.isFree b = true → s.size b < total) ∧
    (heapSegmentCap ≤ s.segments.length ∨ 2 ^ 32 - 4096 < total ∨
      ¬HasRun s.pages (highestEnd s) ((total + 4095) / 4096))

section

variable {s : Heap} {fl : List ℕ} {blocks : Segment → List ℕ} {total : ℕ}

theorem WellFormed.free_small_iff (h : WellFormed s blocks fl) :
    (∀ b, IsBlock s blocks b → s.isFree b = true → s.size b < total) ↔ ∀ b ∈ fl, s.size b < total := by
  constructor
  · intro hall b hb
    obtain ⟨h1, h2⟩ := (h.represents.mem_list b).mp hb
    exact hall b h1 h2
  · intro hall b h1 h2
    exact hall b ((h.represents.mem_list b).mpr ⟨h1, h2⟩)

theorem growPages_eq (hlt : total < 2 ^ 32) (h8 : 8 ∣ total) :
    if 2 ^ 32 - 4096 < total then growPages total = 0 else growPages total = (total + 4095) / 4096 := by
  unfold growPages u32 pageSize
  split_ifs <;> omega

theorem pageAllocPagesAt_zero (hint : ℕ) (ps : Pages) : pageAllocPagesAt hint 0 ps = (ps, 0) := by
  rw [pageAllocPagesAt, if_pos (.inl rfl)]

theorem kmallocBlock_exact (h : WellFormed s blocks fl) (ht : Tallied s.pages) (h0 : s.pages.free 0 = false)
    (hpos : 0 < total) (hlt : total < 2 ^ 32) (h8 : 8 ∣ total) :
    Exhausted s blocks total ∧ kmallocBlock total s = some (s, 0) ∨
      ¬Exhausted s blocks total ∧ ∃ s₁ b, kmallocBlock total s = some (s₁, b) ∧ Supplied s s₁ fl b total := by
  rcases kmallocBlock_cases h hlt with ⟨⟨b, hb, hle⟩, hsup⟩ | ⟨hsmall, hcase⟩
  · refine .inr ⟨fun hex => ?_, hsup⟩
    have := h.free_small_iff.mp hex.1 b hb
    omega
  · have hnone := h.free_small_iff.mpr hsmall
    rcases hcase with ⟨hlen, hrun⟩ | ⟨hlen, hcase⟩
    · exact .inl ⟨⟨hnone, .inl hlen⟩, hrun⟩
    · have hgrow := growPages_eq hlt h8
      rw [heapGrowthHint_eq] at hcase
      split_ifs at hgrow with hwrap
      · rw [hgrow, pageAllocPagesAt_zero] at hcase
        rcases hcase with ⟨-, hrun⟩ | ⟨hne, -⟩
        · exact .inl ⟨⟨hnone, .inr (.inl hwrap)⟩, hrun⟩
        · exact absurd rfl hne
      · rw [hgrow] at hcase
        have hcount : 0 < (total + 4095) / 4096 := by omega
        rcases pageAllocPagesAt_exact ht h0 h.placed.highestEnd_aligned hcount with ⟨hfit, hexact⟩ | ⟨hfit, hexact⟩
        · refine .inr ⟨fun hex => ?_, ?_⟩
          · rcases hex.2 with hl | hl | hl
            · omega
            · exact hwrap hl
            · exact hl hfit
          · rcases hcase with ⟨hz, -⟩ | ⟨-, hsup⟩
            · exact absurd hz hexact
            · exact hsup
        · rw [hexact] at hcase
          rcases hcase with ⟨-, hrun⟩ | ⟨hne, -⟩
          · exact .inl ⟨⟨hnone, .inr (.inr hfit)⟩, hrun⟩
          · exact absurd rfl hne

/-- `kmalloc` returns 0 exactly for a size that it refuses or when the heap is exhausted, and whenever it
returns 0 the blocks, the free list, the segments and the page allocator are as they were. -/
theorem kmalloc_fails_iff (size : ℕ) (h : WellFormed s blocks fl) (ht : Tallied s.pages) (h0 : s.pages.free 0 = false) :
    ∃ s' p, kmalloc size s = some (s', p) ∧
      (p = 0 ↔ size = 0 ∨ 2 ^ 32 - 1 - 24 < size ∨ Exhausted s blocks (totalSize size)) ∧ (p = 0 → s' = s) := by
  unfold kmalloc
  by_cases hz : size = 0
  · rw [if_pos hz]
    exact ⟨s, 0, rfl, by simp [hz], fun _ => rfl⟩
  rw [if_neg hz]
  by_cases hbig : size > 2 ^ 32 - 1 - metaSize - heapAlign
  · rw [if_pos hbig]
    refine ⟨s, 0, rfl, ⟨fun _ => .inr (.inl ?_), fun _ => rfl⟩, fun _ => rfl⟩
    unfold metaSize heapAlign at hbig
    omega
  have hsize : size ≤ 2 ^ 32 - 1 - 24 := by
    unfold metaSize heapAlign at hbig
    omega
  have htotal : heapAlignUp (size + metaSize) = totalSize size := by
    unfold heapAlignUp totalSize u32 metaSize heapAlign
    omega
  have hbounds : blockSpan ≤ totalSize size ∧ totalSize size < 2 ^ 32 ∧ 8 ∣ totalSize size := by
    unfold totalSize blockSpan
    omega
  rw [if_neg hbig, htotal]
  rcases kmallocBlock_exact h ht h0 (by unfold blockSpan at hbounds; omega) hbounds.2.1 hbounds.2.2 with
    ⟨hex, hrun⟩ | ⟨hex, s₁, b, hrun, hsup⟩
  · simp only [hrun, Option.bind_eq_bind, Option.bind_some, if_true]
    exact ⟨s, 0, rfl, by simp [hex], fun _ => rfl⟩
  · obtain ⟨s', hcut, -⟩ := hsup.cut hbounds.1
    have hb0 : b ≠ 0 := by
      have := hsup.low
      unfold pageSize at this
      omega
    simp only [hrun, Option.bind_eq_bind, Option.bind_some, if_neg hb0, hcut]
    have hp : b + metaSize ≠ 0 := by omega
    refine ⟨s', b + metaSize, rfl, ⟨fun hp0 => absurd hp0 hp, ?_⟩, fun hp0 => absurd hp0 hp⟩
    rintro (h1 | h1 | h1)
    · exact absurd h1 hz
    · omega
    · exact absurd h1 hex

end

theorem heapListInsert_pages {b : ℕ} {s s' : Heap} (h : heapListInsert b s = some s') : s'.pages = s.pages := by
  obtain ⟨⟨prev, cur⟩, -, rfl⟩ := Option.map_eq_some_iff.mp h
  simp only [linkIn]
  split_ifs <;> rfl

theorem heapInit_tallied {s s' : Heap} (ht : Tallied s.pages) (h : heapInit s = some s') : Tallied s'.pages := by
  obtain ⟨⟨s₁, b⟩, hgrow, rfl⟩ := Option.map_eq_some_iff.mp h
  have hpages := pageAllocPagesAt_tallied ht (heapGrowthHint { s with freeListHead := 0 }) heapGrowPages
  rw [heapGrow] at hgrow
  simp only at hgrow
  split_ifs at hgrow
  · cases hgrow
    exact ht
  · cases hgrow
    exact hpages
  · obtain ⟨s₂, hins, he⟩ := Option.map_eq_some_iff.mp hgrow
    cases he
    rw [heapListInsert_pages hins]
    exact hpages

theorem runIf_heapInit_tallied {w w' : World} (ht : Tallied w.heap.pages)
    (hrun : heapSystem.runIf Sound w [.heapInit] = some w') : Tallied w'.heap.pages := by
  rw [System.runIf] at hrun
  split_ifs at hrun
  obtain ⟨w₁, hnext, hrest⟩ := Option.bind_eq_some_iff.mp hrun
  obtain rfl := Option.some.inj hrest
  change w.next .heapInit = some w₁ at hnext
  rw [World.next] at hnext
  split_ifs at hnext
  obtain ⟨s, hinit, rfl⟩ := Option.map_eq_some_iff.mp hnext
  exact heapInit_tallied ht hinit

/-- After `HeapInit` on the small machine, no 25 consecutive pages are left. -/
theorem kmalloc_fails_iff_booted :
    ∃ s blocks fl, WellFormed s blocks fl ∧ Tallied s.pages ∧ s.pages.free 0 = false ∧ s.segments.length = 1 ∧
      kmalloc 100000 s = some (s, 0) := by
  obtain ⟨w, hrun, hw, hp⟩ := System.exists_reachableIf Sound bootWorld_init [.heapInit]
    (fun w => w.heap.segments.length = 1 ∧ w.heap.pages.free 0 = false ∧
      (kmalloc 100000 w.heap).map Prod.snd = some 0) (by decide +kernel)
  obtain ⟨hlen, h0, hzero⟩ := of_decide_eq_true hp
  obtain ⟨-, -, -, -, -, bytes, first, last, boot, hboot⟩ := bootWorld_init
  have ht := runIf_heapInit_tallied (pageAllocInit_tallied hboot) hrun
  obtain ⟨blocks, fl, hwf, -⟩ := reachable_wellFormed hw
  obtain ⟨s', p, hcall, -, hsame⟩ := kmalloc_fails_iff 100000 hwf ht h0
  rw [hcall] at hzero
  obtain rfl : p = 0 := Option.some.inj hzero
  rw [hsame rfl] at hcall
  exact ⟨w.heap, blocks, fl, hwf, ht, h0, hlen, hcall⟩

end Novium.Mm
