import Mathlib.Order.Bounds.Basic
import Novium.Mm.PageRuns

/-! Where the page allocator finds pages. `PageAllocPages` and `PageAllocPagesAt` return the
first run that is long enough, although their scan jumps; they read inside the bitmap, and
nothing wraps around. `PageAlloc` is the same search for one page. -/

namespace Novium.Mm

open Novium.Lib

/-- A sum of two words that must not wrap around. -/
def addWord (a b : ℕ) : Option ℕ := if a + b < 2 ^ 32 then some (a + b) else none

/-- The bit of a page, read at an index that must be inside `PageBitmap`. -/
def Pages.readBit (ps : Pages) (page : ℕ) : Option Bool :=
  if page / 32 < bitmapWords then some (ps.free page) else none

/-- The inner loop at `run`, with `n` turns to go. -/
def runScan (ps : Pages) (start : ℕ) : ℕ → ℕ → Option ℕ
  | 0, run => some run
  | n + 1, run => do
    let page ← addWord start run
    let bit ← ps.readBit page
    if bit then
      let run ← addWord run 1
      runScan ps start n run
    else some run

def pageScan (ps : Pages) (count : ℕ) : ℕ → ℕ → Option (Option ℕ)
  | 0, _ => some none
  | n + 1, start =>
    if start ≤ pageCount - count then do
      let run ← runScan ps start count 0
      if run = count then some (some start)
      else
        let start ← addWord start run
        let start ← addWord start 1
        pageScan ps count n start
    else some none

theorem freeRun_le (ps : Pages) (start count : ℕ) : freeRun ps start count ≤ count := by
  induction count generalizing start with
  | zero => exact Nat.le_refl 0
  | succ count ih =>
    rw [freeRun]
    split_ifs
    · exact Nat.succ_le_succ (ih (start + 1))
    · exact Nat.zero_le _

theorem runScan_eq {ps : Pages} {start n run : ℕ} (hfit : start + run + n ≤ pageCount) :
    runScan ps start n run = some (run + freeRun ps (start + run) n) := by
  induction n generalizing run with
  | zero => rfl
  | succ n ih =>
    have hlt : start + run < 2 ^ 32 ∧ run + 1 < 2 ^ 32 ∧ (start + run) / 32 < bitmapWords := by
      unfold pageCount at hfit
      unfold bitmapWords
      omega
    rw [runScan, freeRun, addWord, if_pos hlt.1]
    simp only [Option.bind_eq_bind, Option.bind_some, Pages.readBit, if_pos hlt.2.2, addWord, if_pos hlt.2.1]
    by_cases hf : ps.free (start + run) = true
    · rw [if_pos hf, if_pos hf, ih (by omega), ← Nat.add_assoc, Nat.add_right_comm]
      rfl
    · rw [if_neg hf, if_neg hf, Nat.add_zero]

theorem pageScan_eq {ps : Pages} {count : ℕ} (hle : count ≤ pageCount) (n start : ℕ) :
    pageScan ps count n start = some (findRun ps count n start) := by
  induction n generalizing start with
  | zero => rfl
  | succ n ih =>
    rw [pageScan, findRun]
    by_cases hs : start ≤ pageCount - count
    · rw [if_pos hs, if_pos hs, runScan_eq (by omega)]
      simp only [Option.bind_eq_bind, Option.bind_some, Nat.add_zero, Nat.zero_add]
      by_cases hrun : freeRun ps start count = count
      · rw [if_pos hrun, if_pos hrun]
      · have hlt := freeRun_le ps start count
        have hword : start + freeRun ps start count + 1 < 2 ^ 32 := by
          unfold pageCount at *
          omega
        rw [if_neg hrun, if_neg hrun, addWord, if_pos (by omega)]
        simp only [Option.bind_some, addWord, if_pos hword]
        exact ih _
    · rw [if_neg hs, if_neg hs]

/-- The pages from `start` on exist and are free. -/
def RunFree (ps : Pages) (count start : ℕ) : Prop :=
  start + count ≤ pageCount ∧ ∀ q, start ≤ q → q < start + count → ps.free q = true

theorem findRun_eq {ps : Pages} {count first start : ℕ} (hlo : first ≤ start)
    (hrun : RunFree ps count start) (hmin : ∀ s, first ≤ s → RunFree ps count s → start ≤ s) :
    findRun ps count (pageCount + 1) first = some start := by
  have hfits := hrun.1
  cases hf : findRun ps count (pageCount + 1) first with
  | none =>
    obtain ⟨q, hq1, hq2, hused⟩ := findRun_none (by omega) hf hlo (by omega)
    rw [hrun.2 q hq1 hq2] at hused
    cases hused
  | some s =>
    obtain ⟨hs1, hs2, hs3⟩ := findRun_some hf
    have hle : start ≤ s := hmin s hs1 ⟨by omega, hs3⟩
    have hge : s ≤ start := by
      by_contra hlt
      have hbefore : ∀ s', findRun ps count (pageCount + 1) first = some s' → start < s' := by
        intro s' hs'
        rw [hf] at hs'
        cases hs'
        omega
      obtain ⟨q, hq1, hq2, hused⟩ := findRun_first (by omega) hlo (by omega) hbefore
      rw [hrun.2 q hq1 hq2] at hused
      cases hused
    rw [Nat.le_antisymm hle hge]

/-- The result `r` of an allocation of `count` pages is the first run from `first` on, taken. -/
structure FirstFit (ps : Pages) (first count : ℕ) (r : Pages × ℕ) : Prop where
  found : ∀ start, 0 < count → IsLeast {start | first ≤ start ∧ RunFree ps count start} start →
    r.2 = 4096 * start ∧ r.2 ≠ 0 ∧ r.1.freePages + count = ps.freePages ∧
      ∀ q, r.1.free q = if start ≤ q ∧ q < start + count then false else ps.free q
  failed : (count = 0 ∨ ¬∃ start, first ≤ start ∧ RunFree ps count start) → r = (ps, 0)

theorem pageSetRun_freePages {ps : Pages} {start count : ℕ} (hlt : ps.freePages < 2 ^ 32) (hle : count ≤ ps.freePages)
    (hfree : ∀ q, start ≤ q → q < start + count → ps.free q = true) :
    (pageSetRun start .used count ps).freePages = ps.freePages - count := by
  induction count with
  | zero => rfl
  | succ count ih =>
    have hrest := ih (by omega) fun q hlo hhi => hfree q hlo (by omega)
    have hbit : (pageSetRun start .used count ps).free (start + count) = true := by
      rw [pageSetRun_free, if_neg (by omega)]
      exact hfree _ (by omega) (by omega)
    have hne : (pageSetRun start .used count ps).bit (start + count) ≠ 0 := of_decide_eq_true hbit
    rw [pageSetRun_succ, pageSet, if_pos hne]
    show sub32 (pageSetRun start .used count ps).freePages 1 = _
    rw [hrest, sub32_of_le (by omega) (by omega)]
    omega

theorem pageAllocPagesAt_fits {ps : Pages} (hcount : ps.freePages = setBits ps) (h0 : ps.free 0 = false)
    (startHint count : ℕ) :
    FirstFit ps (startHint / pageSize) count (pageAllocPagesAt startHint count ps) := by
  rw [setBits_eq_card] at hcount
  have hcard := card_freeSet_le ps
  have hle : ∀ start, RunFree ps count start → count ≤ ps.freePages := fun start hrun => by
    rw [hcount]
    exact run_le_card fun q hlo hhi => ⟨by have := hrun.1; omega, hrun.2 q hlo hhi⟩
  unfold pageAllocPagesAt
  generalize startHint / pageSize = first
  constructor
  · intro start hpos hleast
    obtain ⟨hlo, hrun⟩ := hleast.1
    have hfits := hrun.1
    have henough := hle start hrun
    have hfind : findRun ps count (pageCount + 1) first = some start :=
      findRun_eq hlo hrun fun s hs hrun' => hleast.2 ⟨hs, hrun'⟩
    have hne : start ≠ 0 := by
      rintro rfl
      rw [hrun.2 0 (by omega) (by omega)] at h0
      cases h0
    rw [if_neg (by omega), hfind]
    have haddr : u32 (start * pageSize) = 4096 * start := by
      rw [u32_of_lt (by unfold pageSize pageCount at *; omega), Nat.mul_comm]
      rfl
    refine ⟨haddr, ?_, ?_, fun q => ?_⟩
    · show u32 (start * pageSize) ≠ 0
      rw [haddr]
      omega
    · show (pageSetRun start .used count ps).freePages + count = ps.freePages
      rw [pageSetRun_freePages (by unfold pageCount at hcard; omega) henough hrun.2]
      omega
    · show (pageSetRun start .used count ps).free q = _
      rw [pageSetRun_free]
      rfl
  · intro hno
    by_cases hguard : count = 0 ∨ count > ps.freePages ∨ count > pageCount
    · rw [if_pos hguard]
    · rw [if_neg hguard]
      cases hf : findRun ps count (pageCount + 1) first with
      | none => rfl
      | some s =>
        obtain ⟨hs1, hs2, hs3⟩ := findRun_some hf
        rcases hno with hzero | hno
        · exact absurd (Or.inl hzero) hguard
        · exact absurd ⟨s, hs1, by omega, hs3⟩ hno

/-- `PageAllocPages` and `PageAllocPagesAt` are first fit whatever the arguments, and their scan reads inside the
bitmap and never wraps around. -/
theorem page_runs_first_fit {ps : Pages} (hcount : ps.freePages = setBits ps) (h0 : ps.free 0 = false)
    (startHint count : ℕ) :
    FirstFit ps 0 count (pageAllocPages count ps) ∧
      FirstFit ps (startHint / 4096) count (pageAllocPagesAt startHint count ps) ∧
      (count ≤ pageCount → ∀ n start, pageScan ps count n start = some (findRun ps count n start)) := by
  refine ⟨?_, pageAllocPagesAt_fits hcount h0 startHint count, fun hle n start => pageScan_eq hle n start⟩
  rw [pageAllocPages_eq]
  exact pageAllocPagesAt_fits hcount h0 0 count

/-- On the small machine the pages from 257 on are free: the first run of three behind page 260 starts there. -/
theorem page_runs_first_fit_booted :
    ∃ ps : Pages, ps.freePages = setBits ps ∧ ps.free 0 = false ∧
      FirstFit ps 260 3 (pageAllocPagesAt 0x104fff 3 ps) ∧ (pageAllocPagesAt 0x104fff 3 ps).2 = 0x104000 := by
  obtain ⟨ps, hps⟩ : ∃ ps, bootPages = some ps := Option.isSome_iff_exists.mp (by decide +kernel)
  have ht := pageAllocInit_tallied hps
  have haddr : (bootPages.map fun ps => (pageAllocPagesAt 0x104fff 3 ps).2) = some 0x104000 := by decide +kernel
  rw [hps] at haddr
  have h0 : ps.free 0 = false := by
    rw [Bool.eq_false_iff]
    intro hfree
    exact absurd (pageAllocInit_low hps hfree) (by decide)
  have hcount : ps.freePages = setBits ps := by rw [setBits_eq_card, ht.count]
  exact ⟨ps, hcount, h0, (page_runs_first_fit hcount h0 0x104fff 3).2.1, Option.some.inj haddr⟩

theorem pageAlloc_first (ps : Pages) :
    (pageAlloc ps = (ps, 0) ∧ ∀ q < pageCount, ps.free q = false) ∨
      ∃ page < pageCount, pageAlloc ps = (pageSet page .used ps, u32 (page * pageSize)) ∧ ps.free page = true ∧
        ∀ q < page, ps.free q = false := by
  have hbit : ∀ word bit, bit < 32 → ps.free (word * 32 + bit) = decide (ps.bitmap word &&& (1#32 <<< bit) ≠ 0) := by
    intro word bit hlt
    rw [Pages.free, Pages.bit, show (word * 32 + bit) / 32 = word by omega, show (word * 32 + bit) % 32 = bit by omega]
  -- a word that yields no page has no free page
  have hnone : ∀ word, (if ps.bitmap word = 0 then none
      else ((List.range 32).find? fun bit => ps.bitmap word &&& (1#32 <<< bit) ≠ 0).map fun bit => word * 32 + bit) =
        none → ∀ q, q / 32 = word → ps.free q = false := by
    intro word hw q hq
    have hq' : q = word * 32 + q % 32 := by omega
    rw [hq', hbit word (q % 32) (Nat.mod_lt _ (by decide))]
    split_ifs at hw with h0
    · simp [h0]
    · rw [Option.map_eq_none_iff, List.find?_eq_none] at hw
      have := hw (q % 32) (List.mem_range.mpr (Nat.mod_lt _ (by decide)))
      simpa using this
  unfold pageAlloc
  simp only
  split
  · rename_i hfound
    refine Or.inl ⟨rfl, fun q hq => ?_⟩
    rw [List.findSome?_eq_none_iff] at hfound
    exact hnone _ (hfound (q / 32) (List.mem_range.mpr (by unfold pageCount at hq; unfold bitmapWords; omega))) q rfl
  · rename_i page hfound
    right
    obtain ⟨before, word, after, hrange, hword, hbefore⟩ := List.findSome?_eq_some_iff.mp hfound
    have hlt : word < bitmapWords := List.mem_range.mp (by rw [hrange]; simp)
    have hsorted : (before ++ word :: after).Pairwise (· < ·) := hrange ▸ List.pairwise_lt_range
    split_ifs at hword with h0
    obtain ⟨bit, hfind, rfl⟩ := Option.map_eq_some_iff.mp hword
    obtain ⟨hset, hbit32, hfirst⟩ := List.find?_range_eq_some.mp hfind
    have hbit32 : bit < 32 := List.mem_range.mp hbit32
    refine ⟨word * 32 + bit, by unfold pageCount; unfold bitmapWords at hlt; omega, rfl, ?_, fun q hq => ?_⟩
    · rw [hbit word bit hbit32]
      exact hset
    · rcases Nat.lt_or_ge (q / 32) word with hw | hw
      · have hmem : q / 32 ∈ before ++ word :: after := hrange ▸ List.mem_range.mpr (by omega)
        rcases List.mem_append.mp hmem with hin | hin
        · exact hnone _ (hbefore _ hin) q rfl
        · exfalso
          rcases List.mem_cons.mp hin with heq | hin
          · omega
          · have := (List.pairwise_cons.mp (List.pairwise_append.mp hsorted).2.1).1 _ hin
            omega
      · have hq' : q = word * 32 + q % 32 := by omega
        have := hfirst (q % 32) (by omega)
        rw [hq', hbit word (q % 32) (by omega)]
        simpa using this

/-- The three ways to ask for one page agree, in every state that calls of the page allocator lead to. -/
theorem single_page_agrees {ps : Pages} (h : pageSystem.Reachable ps) :
    pageAlloc ps = pageAllocPages 1 ps ∧ pageAllocPages 1 ps = pageAllocPagesAt 0 1 ps := by
  obtain ⟨ht, -⟩ := reachable_pages h
  refine ⟨?_, pageAllocPages_eq 1 ps⟩
  unfold pageAllocPages
  rcases pageAlloc_first ps with ⟨hcall, hnone⟩ | ⟨page, hlt, hcall, hfree, hbefore⟩
  · have hzero : ps.freePages = 0 := by
      rw [ht.count, Finset.card_eq_zero]
      ext q
      rw [mem_freeSet]
      constructor
      · rintro ⟨hq, hf⟩
        rw [hnone q hq] at hf
        cases hf
      · intro hq
        cases hq
    rw [hcall, if_pos (Or.inr (Or.inl (by omega)))]
  · have hpos : 0 < ps.freePages := by
      rw [ht.count]
      exact Finset.card_pos.mpr ⟨page, mem_freeSet.mpr ⟨hlt, hfree⟩⟩
    have hrun : RunFree ps 1 page := by
      refine ⟨by omega, fun q hlo hhi => ?_⟩
      obtain rfl : q = page := by omega
      exact hfree
    have hfind : findRun ps 1 (pageCount + 1) 0 = some page := by
      refine findRun_eq (Nat.zero_le page) hrun fun s _ hs => ?_
      by_contra hlt
      have := hs.2 s (Nat.le_refl s) (by omega)
      rw [hbefore s (by omega)] at this
      cases this
    rw [hcall, if_neg (by unfold pageCount; omega), hfind]
    rfl

/-- The first page is taken, and the next one is page 258. -/
theorem single_page_agrees_second :
    ∃ ps, pageSystem.Reachable ps ∧ (pageAllocPages 1 ps).2 = 0x102000 ∧ pageAlloc ps = pageAllocPages 1 ps ∧
      pageAllocPages 1 ps = pageAllocPagesAt 0 1 ps := by
  obtain ⟨ps₀, hps₀⟩ : ∃ ps, bootPages = some ps := Option.isSome_iff_exists.mp (by decide +kernel)
  have hinit : pageSystem.init (bootPages.getD ⟨fun _ => 0, 0⟩) :=
    ⟨bootMap, 0x100000, 0x101000, some ⟨0x500, 24⟩, by rw [hps₀]; exact hps₀⟩
  obtain ⟨ps, -, hps, hp⟩ := System.exists_reachableIf (fun _ _ => True) hinit [.alloc]
    (fun ps => (pageAllocPages 1 ps).2 = 0x102000) (by decide +kernel)
  exact ⟨ps, hps, of_decide_eq_true hp, single_page_agrees hps⟩

end Novium.Mm
