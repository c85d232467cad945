import Novium.Lib.Runs
import Novium.Mm.PageAlloc
import Mathlib.Algebra.BigOperators.Group.Finset.Basic
import Mathlib.Algebra.BigOperators.Ring.Finset
import Mathlib.Order.Interval.Finset.Nat

/-! Runs of the page allocator with any arguments. `FreePages` is the number of set bits
of the bitmap, and page 0 is used, so that the address 0 is only ever an error. -/

namespace Novium.Mm

open Novium.Lib

/-- The number of set bits of the bitmap, word by word. -/
def setBits (ps : Pages) : ℕ :=
  ∑ word ∈ Finset.range bitmapWords, ∑ bit ∈ Finset.range 32, ((ps.bitmap word).getLsbD bit).toNat

def freeSet (ps : Pages) : Finset ℕ := (Finset.range pageCount).filter (ps.free · = true)

theorem mem_freeSet {ps : Pages} {q : ℕ} : q ∈ freeSet ps ↔ q < pageCount ∧ ps.free q = true := by
  simp [freeSet]

theorem sum_blocks (f : ℕ → ℕ) (width n : ℕ) :
    ∑ i ∈ Finset.range n, ∑ j ∈ Finset.range width, f (i * width + j) = ∑ k ∈ Finset.range (n * width), f k := by
  induction n with
  | zero => simp
  | succ n ih => rw [Finset.sum_range_succ, ih, Nat.succ_mul, Finset.sum_range_add]

theorem setBits_eq_card (ps : Pages) : setBits ps = (freeSet ps).card := by
  have hbit : ∀ word, ∀ bit ∈ Finset.range 32,
      ((ps.bitmap word).getLsbD bit).toNat = (ps.free (word * 32 + bit)).toNat := by
    intro word bit hbit
    have hlt : bit < 32 := Finset.mem_range.mp hbit
    rw [free_eq, show (word * 32 + bit) / 32 = word by omega, show (word * 32 + bit) % 32 = bit by omega]
  have hcard : ∀ n, ∑ k ∈ Finset.range n, (ps.free k).toNat = ((Finset.range n).filter (ps.free · = true)).card := by
    intro n
    rw [Finset.card_filter]
    apply Finset.sum_congr rfl
    intro k _
    cases ps.free k <;> rfl
  rw [setBits, Finset.sum_congr rfl fun word _ => Finset.sum_congr rfl (hbit word)]
  rw [sum_blocks fun k => (ps.free k).toNat]
  exact hcard pageCount

theorem card_freeSet_le (ps : Pages) : (freeSet ps).card ≤ pageCount := by
  have hle := Finset.card_filter_le (Finset.range pageCount) (ps.free · = true)
  rw [Finset.card_range] at hle
  exact hle

theorem run_le_card {ps : Pages} {start count : ℕ}
    (hfree : ∀ q, start ≤ q → q < start + count → q < pageCount ∧ ps.free q = true) : count ≤ (freeSet ps).card := by
  have hsub : Finset.Ico start (start + count) ⊆ freeSet ps := by
    intro q hq
    obtain ⟨hlo, hhi⟩ := Finset.mem_Ico.mp hq
    exact mem_freeSet.mpr (hfree q hlo hhi)
  have hcard := Finset.card_le_card hsub
  rwa [Nat.card_Ico, Nat.add_sub_cancel_left] at hcard

/-- `FreePages` counts the free pages, and none lies above 4 GiB. -/
structure Tallied (ps : Pages) : Prop where
  count : ps.freePages = (freeSet ps).card
  above : ∀ q, ps.free q = true → q < pageCount

theorem freeSet_pageSet {page : ℕ} (hp : page < pageCount) (st : PageState) (ps : Pages) :
    freeSet (pageSet page st ps) =
      if st = .available then insert page (freeSet ps) else (freeSet ps).erase page := by
  ext q
  rw [mem_freeSet, pageSet_free]
  cases st with
  | available =>
    simp only [if_true, Finset.mem_insert, mem_freeSet]
    split_ifs with hq <;> simp [hq, hp]
  | used =>
    simp only [reduceCtorEq, if_false, Finset.mem_erase, mem_freeSet]
    split_ifs with hq <;> simp [hq]

theorem Tallied.pageSet {ps : Pages} {page : ℕ} {st : PageState} (h : Tallied ps)
    (hp : st = .available → page < pageCount) : Tallied (pageSet page st ps) := by
  have habove : ∀ q, (Mm.pageSet page st ps).free q = true → q < pageCount := by
    intro q hq
    rw [pageSet_free] at hq
    split_ifs at hq with hqp
    · rw [hqp]; exact hp (of_decide_eq_true hq)
    · exact h.above q hq
  have hle := card_freeSet_le (Mm.pageSet page st ps)
  refine ⟨?_, habove⟩
  cases st with
  | available =>
    by_cases h0 : ps.bit page = 0
    · have hnew : page ∉ freeSet ps := fun hin => of_decide_eq_true (mem_freeSet.mp hin).2 h0
      rw [freeSet_pageSet (hp rfl), if_pos rfl, Finset.card_insert_of_notMem hnew] at hle ⊢
      rw [Mm.pageSet, if_pos h0]
      show u32 (ps.freePages + 1) = _
      rw [h.count, u32_of_lt (by unfold pageCount at hle; omega)]
    · rw [Mm.pageSet, if_neg h0]
      exact h.count
  | used =>
    by_cases h0 : ps.bit page ≠ 0
    · have hfree : ps.free page = true := decide_eq_true h0
      have hin : page ∈ freeSet ps := mem_freeSet.mpr ⟨h.above page hfree, hfree⟩
      have hpos : 0 < (freeSet ps).card := Finset.card_pos.mpr ⟨page, hin⟩
      have hlt := card_freeSet_le ps
      rw [freeSet_pageSet (h.above page hfree), if_neg (by decide), Finset.card_erase_of_mem hin]
      rw [Mm.pageSet, if_pos h0]
      show sub32 ps.freePages 1 = _
      rw [h.count, sub32_of_le hpos (by unfold pageCount at hlt; omega)]
    · rw [Mm.pageSet, if_neg h0]
      exact h.count

theorem Tallied.pageSetRun {ps : Pages} {start : ℕ} {st : PageState} {count : ℕ} (h : Tallied ps)
    (hfit : st = .available → start + count ≤ pageCount) : Tallied (pageSetRun start st count ps) := by
  induction count with
  | zero => exact h
  | succ count ih =>
    rw [pageSetRun_succ]
    exact (ih fun hst => by have := hfit hst; omega).pageSet fun hst => by have := hfit hst; omega

theorem Tallied.foldl {ps : Pages} (h : Tallied ps) (page : ℕ → ℕ) (st : PageState) (l : List ℕ) :
    Tallied (l.foldl (fun ps i => if page i < pageCount then Mm.pageSet (page i) st ps else ps) ps) := by
  induction l generalizing ps with
  | nil => exact h
  | cons i l ih =>
    rw [List.foldl_cons]
    apply ih
    split_ifs with hp
    · exact h.pageSet fun _ => hp
    · exact h

theorem Tallied.pageSetRange {ps : Pages} (h : Tallied ps) (base length : ℕ) (st : PageState) :
    Tallied (pageSetRange base length st ps) := by
  unfold Mm.pageSetRange
  simp only
  split_ifs
  · exact h
  all_goals exact h.foldl _ st _

theorem mapLoop_tallied {bytes : ℕ → UInt8} {boot : BootInfo} {n offset : ℕ} {ps ps' : Pages} (h : Tallied ps)
    (hrun : mapLoop bytes boot n offset ps = some ps') : Tallied ps' := by
  induction n generalizing offset ps with
  | zero => cases hrun
  | succ n ih =>
    rw [mapLoop] at hrun
    split_ifs at hrun
    · simp only at hrun
      split_ifs at hrun
      · cases hrun; exact h
      · exact ih (h.pageSetRange _ _ .available) hrun
      · exact ih h hrun
    · cases hrun; exact h

theorem free_empty (q : ℕ) : Pages.free ⟨fun _ => 0, 0⟩ q = false := by
  rw [free_eq]
  simp

theorem tallied_empty : Tallied ⟨fun _ => 0, 0⟩ := by
  refine ⟨?_, fun q hq => ?_⟩
  · rw [eq_comm, Finset.card_eq_zero]
    ext q
    rw [mem_freeSet, free_empty]
    simp
  · rw [free_empty] at hq; cases hq

theorem rangeLoop_free (first n : ℕ) (st : PageState) (ps : Pages) (q : ℕ) :
    ((List.range n).foldl (fun ps i =>
      let page := (first * pageSize + i * pageSize) / pageSize
      if page < pageCount then pageSet page st ps else ps) ps).free q =
      if first ≤ q ∧ q < first + n ∧ q < pageCount then decide (st = .available) else ps.free q := by
  induction n with
  | zero =>
    rw [if_neg (by omega)]
    rfl
  | succ n ih =>
    have hpage : (first * pageSize + n * pageSize) / pageSize = first + n := by
      rw [← Nat.add_mul]
      exact Nat.mul_div_cancel _ (by decide)
    rw [List.range_succ, List.foldl_append, List.foldl_cons, List.foldl_nil]
    simp only [hpage] at ih ⊢
    by_cases hp : first + n < pageCount
    · rw [if_pos hp, pageSet_free, ih]
      split_ifs <;> first | rfl | omega
    · rw [if_neg hp, ih]
      split_ifs <;> first | rfl | omega

/-- The page `q` lies in a range of memory up to `last`: wholly in free memory, in part in used memory. -/
def InRange (st : PageState) (base last q : ℕ) : Prop :=
  match st with
  | .available => base ≤ q * pageSize ∧ (q + 1) * pageSize ≤ last
  | .used => base < (q + 1) * pageSize ∧ q * pageSize < last

instance : (st : PageState) → (base last q : ℕ) → Decidable (InRange st base last q)
  | .available, _, _, _ => inferInstanceAs (Decidable (_ ∧ _))
  | .used, _, _, _ => inferInstanceAs (Decidable (_ ∧ _))

theorem pageSetRange_free (base : ℕ) {length : ℕ} (hlen : length < 2 ^ 64) (st : PageState) (ps : Pages) (q : ℕ) :
    (pageSetRange base length st ps).free q =
      if base + length < 2 ^ 64 ∧ base < 2 ^ 32 ∧ q < pageCount ∧ InRange st base (min (base + length) (2 ^ 32)) q then
        decide (st = .available)
      else ps.free q := by
  unfold pageSetRange alignDown
  simp only
  by_cases hout : u64 (base + length) < base ∨ base ≥ 2 ^ 32
  · rw [if_pos hout, if_neg]
    unfold u64 at hout
    omega
  · rw [if_neg hout]
    have hend : u64 (base + length) = base + length ∧ base + length < 2 ^ 64 := by
      unfold u64 at *
      omega
    have hmin : (if u64 (base + length) > 2 ^ 32 then 2 ^ 32 else u64 (base + length)) =
        min (base + length) (2 ^ 32) := by
      rw [hend.1]
      split_ifs <;> omega
    rw [hmin]
    generalize min (base + length) (2 ^ 32) = last
    cases st with
    | available =>
      simp only
      rw [rangeLoop_free]
      refine if_congr ?_ rfl rfl
      unfold InRange pageSize
      simp only
      omega
    | used =>
      simp only
      rw [rangeLoop_free]
      refine if_congr ?_ rfl rfl
      unfold InRange pageSize
      simp only
      omega

theorem pageSetRange_used {base length : ℕ} {ps : Pages} {q : ℕ}
    (h : (pageSetRange base length .used ps).free q = true) :
    ps.free q = true ∧ (q < pageCount → base + length < 2 ^ 64 → base < 2 ^ 32 →
      ∀ a, base ≤ a → a < base + length → a / pageSize ≠ q) := by
  unfold pageSetRange alignDown at h
  simp only at h
  split_ifs at h with hout hcut
  · refine ⟨h, fun _ h64 h32 => ?_⟩
    rw [u64, Nat.mod_eq_of_lt h64] at hout
    omega
  all_goals
    rw [rangeLoop_free] at h
    split_ifs at h with hin
    · cases h
    · refine ⟨h, fun hq h64 _ a hlo hhi haq => hin ⟨?_, ?_, hq⟩⟩
      · exact haq ▸ Nat.div_le_div_right hlo
      · unfold u64 pageSize pageCount at *
        omega

theorem pageAllocInit_tallied {bytes : ℕ → UInt8} {kernelStart kernelEnd : ℕ} {boot : Option BootInfo} {ps : Pages}
    (h : pageAllocInit bytes kernelStart kernelEnd boot = some ps) : Tallied ps := by
  unfold pageAllocInit at h
  cases boot with
  | none => cases h; exact tallied_empty
  | some boot =>
    simp only at h
    split_ifs at h
    · cases h; exact tallied_empty
    · obtain ⟨ps₁, h1, rfl⟩ := Option.map_eq_some_iff.mp h
      exact ((mapLoop_tallied tallied_empty h1).pageSetRange _ _ .used).pageSetRange _ _ .used

theorem pageAllocInit_low {bytes : ℕ → UInt8} {kernelStart kernelEnd : ℕ} {boot : Option BootInfo} {ps : Pages} {q : ℕ}
    (h : pageAllocInit bytes kernelStart kernelEnd boot = some ps) (hq : ps.free q = true) : 256 ≤ q := by
  unfold pageAllocInit at h
  cases boot with
  | none => cases h; rw [free_empty] at hq; cases hq
  | some boot =>
    simp only at h
    split_ifs at h
    · cases h; rw [free_empty] at hq; cases hq
    · obtain ⟨ps₁, -, rfl⟩ := Option.map_eq_some_iff.mp h
      by_contra hlow
      have hused := (pageSetRange_used (pageSetRange_used hq).1).2
      refine hused (by unfold pageCount; omega) (by decide) (by decide) (q * pageSize) (Nat.zero_le _) ?_ ?_
      · unfold pageSize
        omega
      · exact Nat.mul_div_cancel _ (by decide)

inductive PageCall where
  | alloc
  | allocPages (count : ℕ)
  | allocPagesAt (startHint count : ℕ)
  | free (address : ℕ)
  | freePages (address count : ℕ)

/-- The bitmap and the counter after the call, and the address that it returns. -/
def PageCall.run (ps : Pages) : PageCall → Pages × Option ℕ
  | .alloc => ((pageAlloc ps).1, some (pageAlloc ps).2)
  | .allocPages count => ((pageAllocPages count ps).1, some (pageAllocPages count ps).2)
  | .allocPagesAt startHint count =>
    ((pageAllocPagesAt startHint count ps).1, some (pageAllocPagesAt startHint count ps).2)
  | .free address => (pageFree address ps, none)
  | .freePages address count => (pageFreePages address count ps, none)

def PageCall.wants : PageCall → ℕ
  | .alloc => 1
  | .allocPages count | .allocPagesAt _ count => count
  | .free _ | .freePages _ _ => 0

def PageCall.gives : PageCall → List ℕ
  | .alloc | .allocPages _ | .allocPagesAt _ _ => []
  | .free address => if address % pageSize = 0 then runPages address 1 else []
  | .freePages address count => if address % pageSize = 0 then runPages address count else []

def pageSystem : System Pages PageCall where
  init ps := ∃ bytes kernelStart kernelEnd boot, pageAllocInit bytes kernelStart kernelEnd boot = some ps
  next ps c := some (c.run ps).1

theorem pageAlloc_tallied {ps : Pages} (h : Tallied ps) : Tallied (pageAlloc ps).1 := by
  unfold pageAlloc
  simp only
  split
  · exact h
  · show Tallied (pageSet _ .used ps)
    apply h.pageSet
    intro hst
    cases hst

theorem pageAllocPagesAt_tallied {ps : Pages} (h : Tallied ps) (startHint count : ℕ) :
    Tallied (pageAllocPagesAt startHint count ps).1 := by
  unfold pageAllocPagesAt
  split_ifs
  · exact h
  · split
    · exact h
    · show Tallied (pageSetRun _ .used count ps)
      apply h.pageSetRun
      intro hst
      cases hst

theorem pageAllocPages_eq (count : ℕ) (ps : Pages) : pageAllocPages count ps = pageAllocPagesAt 0 count ps := rfl

theorem pageFree_eq (address : ℕ) (ps : Pages) : pageFree address ps = pageFreePages address 1 ps := by
  have hone : pageSetRun (address / pageSize) .available 1 ps = pageSet (address / pageSize) .available ps := rfl
  unfold pageFree pageFreePages
  simp only [hone]
  by_cases hno : address = 0 ∨ address % pageSize ≠ 0
  · rw [if_pos (by tauto), if_pos (by tauto)]
  · by_cases hout : address / pageSize ≥ pageCount
    · rw [if_pos (by tauto), if_neg (by omega), if_pos (by omega)]
    · rw [if_neg (by omega), if_neg (by omega), if_neg (by omega)]

theorem pageFreePages_tallied {ps : Pages} (h : Tallied ps) (address count : ℕ) :
    Tallied (pageFreePages address count ps) := by
  unfold pageFreePages
  simp only
  split_ifs
  · exact h
  · exact h
  · exact h.pageSetRun fun _ => by omega

theorem PageCall.tallied {ps : Pages} (h : Tallied ps) (c : PageCall) : Tallied (c.run ps).1 := by
  cases c <;> simp only [PageCall.run]
  case alloc => exact pageAlloc_tallied h
  case allocPages count =>
    rw [pageAllocPages_eq]
    exact pageAllocPagesAt_tallied h 0 count
  case allocPagesAt startHint count => exact pageAllocPagesAt_tallied h startHint count
  case free address =>
    rw [pageFree_eq]
    exact pageFreePages_tallied h address 1
  case freePages address count => exact pageFreePages_tallied h address count

theorem PageCall.zero_notMem_gives (c : PageCall) : 0 ∉ c.gives := by
  have hrun : ∀ address count, 0 ∉ if address % pageSize = 0 then runPages address count else [] := by
    intro address count
    split_ifs with hal
    · rw [mem_runPages]
      unfold pageSize at *
      omega
    · simp
  cases c with
  | alloc | allocPages | allocPagesAt => exact List.not_mem_nil
  | free address => exact hrun address 1
  | freePages address count => exact hrun address count

/-- A free does nothing if a page does not exist, and else frees what it names. -/
def Gave (ps ps' : Pages) (pages : List ℕ) : Prop :=
  (ps' = ps ∧ ∃ q ∈ pages, pageCount ≤ q) ∨ ∀ q, ps'.free q = true ↔ ps.free q = true ∨ q ∈ pages

theorem pageFreePages_gave (address count : ℕ) (ps : Pages) :
    Gave ps (pageFreePages address count ps) (PageCall.freePages address count).gives := by
  unfold pageFreePages PageCall.gives
  simp only
  by_cases hal : address % pageSize = 0
  · rw [if_pos hal]
    split_ifs with hno hout
    · right
      intro q
      rw [mem_runPages]
      have : ¬(address ≠ 0 ∧ address / pageSize ≤ q ∧ q < address / pageSize + count) := by omega
      simp [this]
    · refine .inl ⟨rfl, address / pageSize + (count - 1), ?_, by omega⟩
      rw [mem_runPages]
      omega
    · right
      intro q
      rw [mem_runPages, pageSetRun_free]
      split_ifs with hq
      · simp only [decide_true, true_iff]
        omega
      · have : ¬(address ≠ 0 ∧ address / pageSize ≤ q ∧ q < address / pageSize + count) := by omega
        simp [this]
  · rw [if_neg hal, if_pos (by omega)]
    exact .inr fun q => by simp

/-- What a call does to single pages: an allocation takes a run of free pages or does
nothing, and a free gives pages back. -/
theorem PageCall.run_cases (ps : Pages) (c : PageCall) :
    (c.run ps = (ps, some 0) ∧ c.gives = []) ∨
      (∃ ps' addr, c.run ps = (ps', some addr) ∧ Took ps ps' addr c.wants ∧ c.gives = []) ∨
      ∃ ps', c.run ps = (ps', none) ∧ Gave ps ps' c.gives := by
  cases c with
  | alloc =>
    rcases pageAlloc_cases ps with h | ⟨ps', addr, h, ht⟩
    · exact .inl ⟨by rw [PageCall.run, h], rfl⟩
    · exact .inr (.inl ⟨ps', addr, by rw [PageCall.run, h], ht, rfl⟩)
  | allocPages count =>
    rcases pageAllocPages_cases count ps with h | ⟨ps', addr, h, ht⟩
    · exact .inl ⟨by rw [PageCall.run, h], rfl⟩
    · exact .inr (.inl ⟨ps', addr, by rw [PageCall.run, h], ht, rfl⟩)
  | allocPagesAt startHint count =>
    rcases pageAllocPagesAt_cases startHint count ps with h | ⟨ps', addr, h, ht⟩
    · exact .inl ⟨by rw [PageCall.run, h], rfl⟩
    · exact .inr (.inl ⟨ps', addr, by rw [PageCall.run, h], ht, rfl⟩)
  | free address =>
    refine .inr (.inr ⟨_, rfl, ?_⟩)
    rw [pageFree_eq]
    exact pageFreePages_gave address 1 ps
  | freePages address count => exact .inr (.inr ⟨_, rfl, pageFreePages_gave address count ps⟩)

theorem reachable_pages {ps : Pages} (h : pageSystem.Reachable ps) : Tallied ps ∧ ps.free 0 = false := by
  refine h.invariant (I := fun ps => Tallied ps ∧ ps.free 0 = false) ?_ ?_
  · rintro ps ⟨bytes, kernelStart, kernelEnd, boot, hinit⟩
    refine ⟨pageAllocInit_tallied hinit, Bool.eq_false_iff.mpr fun h0 => ?_⟩
    exact absurd (pageAllocInit_low hinit h0) (by decide)
  · rintro ps c ps' ⟨ht, h0⟩ hrun
    cases hrun
    refine ⟨c.tallied ht, ?_⟩
    rcases c.run_cases ps with ⟨hc, -⟩ | ⟨ps', addr, hc, htook, -⟩ | ⟨ps', hc, hgave⟩
    · rw [hc]; exact h0
    · rw [hc, htook.free]
      split_ifs <;> [rfl; exact h0]
    · rw [hc]
      rcases hgave with ⟨rfl, -⟩ | hiff
      · exact h0
      · rw [Bool.eq_false_iff, Ne, hiff, h0]
        simp [c.zero_notMem_gives]

/-- Whatever the arguments, `FreePages` is the number of set bits, page 0 is not free,
and a call that returns the address 0 has changed nothing. -/
theorem free_pages_counted {ps : Pages} (h : pageSystem.Reachable ps) :
    ps.freePages = setBits ps ∧ ps.free 0 = false ∧
      ∀ (c : PageCall) (ps' : Pages), c.run ps = (ps', some 0) → ps' = ps := by
  obtain ⟨ht, h0⟩ := reachable_pages h
  refine ⟨by rw [setBits_eq_card, ht.count], h0, fun c ps' hrun => ?_⟩
  rcases c.run_cases ps with ⟨hc, -⟩ | ⟨ps₁, addr, hc, htook, -⟩ | ⟨ps₁, hc, -⟩
  · rw [hrun] at hc
    cases hc
    rfl
  · rw [hrun] at hc
    cases hc
    have hzero := htook.were 0 (by simp) (by simpa using htook.pos)
    rw [h0] at hzero
    cases hzero
  · rw [hrun] at hc
    cases hc

/-- A page taken and freed twice, frees of bad ranges, and a request that is too large. -/
theorem free_pages_counted_bad_calls :
    ∃ ps, pageSystem.Reachable ps ∧ setBits ps = 36 ∧ ((PageCall.allocPages 37).run ps).1 = ps := by
  obtain ⟨ps₀, hps₀⟩ : ∃ ps, bootPages = some ps := Option.isSome_iff_exists.mp (by decide +kernel)
  have hinit : pageSystem.init (bootPages.getD ⟨fun _ => 0, 0⟩) :=
    ⟨bootMap, 0x100000, 0x101000, some ⟨0x500, 24⟩, by rw [hps₀]; exact hps₀⟩
  obtain ⟨ps, -, hps, hp⟩ := System.exists_reachableIf (fun _ _ => True) hinit
    [.alloc, .free 0x101000, .free 0x101000, .free 0x101001, .freePages 0x101000 0xffffffff, .allocPagesAt 7 37]
    (fun ps => ps.freePages = 36 ∧ (pageAllocPages 37 ps).2 = 0) (by decide +kernel)
  obtain ⟨hcount, hzero⟩ := of_decide_eq_true hp
  obtain ⟨hbits, -, hfail⟩ := free_pages_counted hps
  refine ⟨ps, hps, hbits ▸ hcount, hfail (.allocPages 37) _ ?_⟩
  simp only [PageCall.run, hzero]

end Novium.Mm
