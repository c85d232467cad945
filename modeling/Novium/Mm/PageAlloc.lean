import Novium.Lib.Word
import Mathlib.Data.List.Basic
import Mathlib.Logic.Function.Basic
import Mathlib.Tactic.Common

/-! The page allocator of `mm/page_alloc.c`: a bitmap with one bit for each of the
2^20 pages, set for a free page, and a count of the set bits. -/

namespace Novium.Mm

open Novium.Lib

def pageSize : ℕ := 4096
def pageCount : ℕ := 1048576
def bitmapWords : ℕ := 32768

inductive PageState where
  | used | available
  deriving DecidableEq, Repr

structure Pages where
  bitmap : ℕ → BitVec 32
  freePages : ℕ

def Pages.bit (ps : Pages) (page : ℕ) : BitVec 32 := ps.bitmap (page / 32) &&& (1#32 <<< (page % 32))

def Pages.free (ps : Pages) (page : ℕ) : Bool := ps.bit page ≠ 0

def pageSet (page : ℕ) (st : PageState) (ps : Pages) : Pages :=
  match st with
  | .available =>
    if ps.bit page = 0 then
      { bitmap := Function.update ps.bitmap (page / 32) (ps.bitmap (page / 32) ||| (1#32 <<< (page % 32)))
        freePages := u32 (ps.freePages + 1) }
    else ps
  | .used =>
    if ps.bit page ≠ 0 then
      { bitmap := Function.update ps.bitmap (page / 32) (ps.bitmap (page / 32) &&& ~~~(1#32 <<< (page % 32)))
        freePages := sub32 ps.freePages 1 }
    else ps

def pageSetRun (start : ℕ) (st : PageState) (count : ℕ) (ps : Pages) : Pages :=
  (List.range count).foldl (fun ps i => pageSet (start + i) st ps) ps

def alignDown (a : ℕ) : ℕ := a / pageSize * pageSize

/-- The range is cut at 4 GiB; free memory is rounded inward, used memory outward. -/
def pageSetRange (base length : ℕ) (st : PageState) (ps : Pages) : Pages :=
  let last := u64 (base + length)
  if last < base ∨ base ≥ 2 ^ 32 then ps
  else
    let last := if last > 2 ^ 32 then 2 ^ 32 else last
    let first := match st with
      | .available => alignDown (base + pageSize - 1)
      | .used => alignDown base
    let last := match st with
      | .available => alignDown last
      | .used => alignDown (last + pageSize - 1)
    (List.range ((last - first) / pageSize)).foldl (fun ps i =>
      let page := (first + i * pageSize) / pageSize
      if page < pageCount then pageSet page st ps else ps) ps

structure BootInfo where
  memoryMapAddr : ℕ
  memoryMapLength : ℕ

/-- Little-endian words of the memory that the boot loader filled in. -/
def read32 (bytes : ℕ → UInt8) (a : ℕ) : ℕ :=
  (bytes a).toNat + (bytes (u32 (a + 1))).toNat * 2 ^ 8 + (bytes (u32 (a + 2))).toNat * 2 ^ 16 +
    (bytes (u32 (a + 3))).toNat * 2 ^ 24

def read64 (bytes : ℕ → UInt8) (a : ℕ) : ℕ := read32 bytes a + read32 bytes (u32 (a + 4)) * 2 ^ 32

def multibootMemoryAvailable : ℕ := 1

/-- The loop over the memory map. An entry is its size, base, length and type at the
offsets 0, 4, 12 and 20. -/
def mapLoop (bytes : ℕ → UInt8) (boot : BootInfo) : ℕ → ℕ → Pages → Option Pages
  | 0, _, _ => none
  | n + 1, offset, ps =>
    if u32 (offset + 4) ≤ boot.memoryMapLength then
      let entry := u32 (boot.memoryMapAddr + offset)
      let entrySize := read32 bytes entry
      if entrySize < 20 ∨ entrySize > sub32 (sub32 boot.memoryMapLength offset) 4 then some ps
      else
        let ps :=
          if read32 bytes (u32 (entry + 20)) = multibootMemoryAvailable then
            pageSetRange (read64 bytes (u32 (entry + 4))) (read64 bytes (u32 (entry + 12))) .available ps
          else ps
        mapLoop bytes boot n (u32 (offset + u32 (4 + entrySize))) ps
    else some ps

/-- The fuel is the number of values that `Offset` can take. -/
def pageAllocInit (bytes : ℕ → UInt8) (kernelStart kernelEnd : ℕ) (boot : Option BootInfo) : Option Pages :=
  let ps : Pages := ⟨fun _ => 0, 0⟩
  match boot with
  | none => some ps
  | some boot =>
    if boot.memoryMapAddr = 0 ∨ boot.memoryMapLength = 0 then some ps
    else (mapLoop bytes boot (2 ^ 32) 0 ps).map fun ps =>
      pageSetRange kernelStart (sub32 kernelEnd kernelStart) .used (pageSetRange 0 0x100000 .used ps)

def pageAlloc (ps : Pages) : Pages × ℕ :=
  let found := (List.range bitmapWords).findSome? fun word =>
    if ps.bitmap word = 0 then none
    else ((List.range 32).find? fun bit => ps.bitmap word &&& (1#32 <<< bit) ≠ 0).map fun bit => word * 32 + bit
  match found with
  | none => (ps, 0)
  | some page => (pageSet page .used ps, u32 (page * pageSize))

def freeRun (ps : Pages) : ℕ → ℕ → ℕ
  | _, 0 => 0
  | start, count + 1 => if ps.free start then freeRun ps (start + 1) count + 1 else 0

/-- The outer loop; `start` moves past the first used page found. -/
def findRun (ps : Pages) (count : ℕ) : ℕ → ℕ → Option ℕ
  | 0, _ => none
  | n + 1, start =>
    if start ≤ pageCount - count then
      let run := freeRun ps start count
      if run = count then some start else findRun ps count n (start + run + 1)
    else none

/-- `PageAllocPagesAt`; each turn of the loop moves `start` on, so that it has at most
`PAGE_COUNT` and one turns. -/
def pageAllocPagesAt (startHint count : ℕ) (ps : Pages) : Pages × ℕ :=
  if count = 0 ∨ count > ps.freePages ∨ count > pageCount then (ps, 0)
  else match findRun ps count (pageCount + 1) (startHint / pageSize) with
    | none => (ps, 0)
    | some start => (pageSetRun start .used count ps, u32 (start * pageSize))

def pageAllocPages (count : ℕ) (ps : Pages) : Pages × ℕ :=
  if count = 0 ∨ count > ps.freePages ∨ count > pageCount then (ps, 0)
  else match findRun ps count (pageCount + 1) 0 with
    | none => (ps, 0)
    | some start => (pageSetRun start .used count ps, u32 (start * pageSize))

def pageFree (address : ℕ) (ps : Pages) : Pages :=
  if address = 0 ∨ address % pageSize ≠ 0 ∨ address / pageSize ≥ pageCount then ps
  else pageSet (address / pageSize) .available ps

def pageFreePages (address count : ℕ) (ps : Pages) : Pages :=
  if address = 0 ∨ address % pageSize ≠ 0 ∨ count = 0 then ps
  else
    let start := address / pageSize
    if start ≥ pageCount ∨ count > pageCount - start then ps else pageSetRun start .available count ps

/-- The pages of a run, none for a failed allocation. -/
def runPages (address count : ℕ) : List ℕ :=
  if address = 0 then [] else List.range' (address / pageSize) count

theorem mem_runPages {address count q : ℕ} :
    q ∈ runPages address count ↔ address ≠ 0 ∧ address / pageSize ≤ q ∧ q < address / pageSize + count := by
  unfold runPages
  split_ifs with h0 <;> simp [h0, List.mem_range'_1]

theorem free_eq (ps : Pages) (page : ℕ) : ps.free page = (ps.bitmap (page / 32)).getLsbD (page % 32) := by
  have hlt : page % 32 < 32 := Nat.mod_lt _ (by decide)
  unfold Pages.free Pages.bit
  rw [← BitVec.twoPow_eq, BitVec.and_twoPow]
  cases h : (ps.bitmap (page / 32)).getLsbD (page % 32) with
  | false => simp
  | true =>
    simp only [if_true, decide_eq_true_eq]
    intro h0
    have := congrArg (fun x => BitVec.getLsbD x (page % 32)) h0
    simp [hlt] at this

theorem free_update {ps : Pages} {page : ℕ} {v : BitVec 32} {b : Bool} (n : ℕ)
    (hv : ∀ i < 32, v.getLsbD i = if i = page % 32 then b else (ps.bitmap (page / 32)).getLsbD i) (q : ℕ) :
    Pages.free ⟨Function.update ps.bitmap (page / 32) v, n⟩ q = if q = page then b else ps.free q := by
  rw [free_eq, free_eq]
  by_cases hw : q / 32 = page / 32
  · simp only [hw, Function.update_self]
    rw [hv (q % 32) (Nat.mod_lt _ (by decide))]
    by_cases hb : q % 32 = page % 32
    · rw [if_pos hb, if_pos (by omega)]
    · rw [if_neg hb, if_neg (by rintro rfl; exact hb rfl)]
  · simp only [Function.update_of_ne hw]
    rw [if_neg (by rintro rfl; exact hw rfl)]

theorem pageSet_free (page : ℕ) (st : PageState) (ps : Pages) (q : ℕ) :
    (pageSet page st ps).free q = if q = page then decide (st = .available) else ps.free q := by
  have hkeep : ∀ b, ps.free page = b → ps.free q = if q = page then b else ps.free q := by
    intro b hb
    split_ifs with hq
    · rw [hq, hb]
    · rfl
  have hfree : ps.free page = decide (ps.bit page ≠ 0) := rfl
  cases st with
  | available =>
    by_cases h0 : ps.bit page = 0
    · rw [pageSet, if_pos h0]
      refine free_update _ (fun i hi => ?_) q
      rw [← BitVec.twoPow_eq, BitVec.getLsbD_or, BitVec.getLsbD_twoPow]
      by_cases hb : i = page % 32
      · simp [← hb, hi]
      · simp [hb, Ne.symm hb]
    · rw [pageSet, if_neg h0]
      exact hkeep true (hfree.trans (decide_eq_true h0))
  | used =>
    by_cases h0 : ps.bit page ≠ 0
    · rw [pageSet, if_pos h0]
      refine free_update _ (fun i hi => ?_) q
      rw [← BitVec.twoPow_eq, BitVec.getLsbD_and, BitVec.getLsbD_not, BitVec.getLsbD_twoPow]
      by_cases hb : i = page % 32
      · simp [← hb, hi]
      · simp [hb, Ne.symm hb, hi]
    · rw [pageSet, if_neg h0]
      exact hkeep false (hfree.trans (decide_eq_false h0))

theorem pageSetRun_succ (start : ℕ) (st : PageState) (count : ℕ) (ps : Pages) :
    pageSetRun start st (count + 1) ps = pageSet (start + count) st (pageSetRun start st count ps) := by
  simp [pageSetRun, List.range_succ]

theorem pageSetRun_free (start : ℕ) (st : PageState) (count : ℕ) (ps : Pages) (q : ℕ) :
    (pageSetRun start st count ps).free q =
      if start ≤ q ∧ q < start + count then decide (st = .available) else ps.free q := by
  induction count with
  | zero =>
    rw [if_neg (by omega)]
    rfl
  | succ count ih =>
    rw [pageSetRun_succ, pageSet_free, ih]
    split_ifs <;> first | rfl | omega

theorem freeRun_all {ps : Pages} {start count : ℕ} (h : freeRun ps start count = count) :
    ∀ q, start ≤ q → q < start + count → ps.free q = true := by
  induction count generalizing start with
  | zero => omega
  | succ count ih =>
    intro q hlo hhi
    rw [freeRun] at h
    split_ifs at h with hf
    rcases Nat.eq_or_lt_of_le hlo with rfl | hlt
    · exact hf
    · have hrest : freeRun ps (start + 1) count = count := by omega
      exact ih hrest q hlt (by omega)

theorem findRun_some {ps : Pages} {count n start s : ℕ} (h : findRun ps count n start = some s) :
    start ≤ s ∧ s ≤ pageCount - count ∧ ∀ q, s ≤ q → q < s + count → ps.free q = true := by
  induction n generalizing start with
  | zero => cases h
  | succ n ih =>
    rw [findRun] at h
    split_ifs at h with hle
    simp only at h
    split_ifs at h with hrun
    · cases h
      exact ⟨Nat.le_refl _, hle, freeRun_all hrun⟩
    · obtain ⟨h1, h2, h3⟩ := ih h
      exact ⟨by omega, h2, h3⟩

theorem freeRun_stops {ps : Pages} {start count : ℕ} (h : freeRun ps start count ≠ count) :
    freeRun ps start count < count ∧ ps.free (start + freeRun ps start count) = false := by
  induction count generalizing start with
  | zero => exact absurd rfl h
  | succ count ih =>
    rw [freeRun] at h ⊢
    split_ifs at h ⊢ with hf
    · have hrest : freeRun ps (start + 1) count ≠ count := by omega
      obtain ⟨hlt, hused⟩ := ih hrest
      refine ⟨by omega, ?_⟩
      rwa [show start + (freeRun ps (start + 1) count + 1) = start + 1 + freeRun ps (start + 1) count by omega]
    · exact ⟨Nat.succ_pos count, by simpa using hf⟩

theorem findRun_first {ps : Pages} {count n start : ℕ} (hn : pageCount < start + n) {r : ℕ} (hlo : start ≤ r)
    (hhi : r ≤ pageCount - count) (hbefore : ∀ s, findRun ps count n start = some s → r < s) :
    ∃ q, r ≤ q ∧ q < r + count ∧ ps.free q = false := by
  induction n generalizing start with
  | zero => omega
  | succ n ih =>
    rw [findRun, if_pos (by omega)] at hbefore
    simp only at hbefore
    split_ifs at hbefore with hrun
    · have := hbefore start rfl
      omega
    · obtain ⟨hlt, hused⟩ := freeRun_stops hrun
      by_cases hr : r ≤ start + freeRun ps start count
      · exact ⟨start + freeRun ps start count, hr, by omega, hused⟩
      · exact ih (by omega) (by omega) hbefore

theorem findRun_none {ps : Pages} {count n start : ℕ} (hn : pageCount < start + n)
    (h : findRun ps count n start = none) {r : ℕ} (hlo : start ≤ r) (hhi : r ≤ pageCount - count) :
    ∃ q, r ≤ q ∧ q < r + count ∧ ps.free q = false := by
  refine findRun_first hn hlo hhi fun s hs => ?_
  rw [h] at hs
  cases hs

/-- What an allocation of `count` pages that returned `addr` has done: nothing, or it
has taken a run of free pages. -/
structure Took (ps ps' : Pages) (addr count : ℕ) : Prop where
  pos : 0 < count
  aligned : addr % pageSize = 0
  fits : addr / pageSize + count ≤ pageCount
  were : ∀ q, addr / pageSize ≤ q → q < addr / pageSize + count → ps.free q = true
  free : ∀ q, ps'.free q =
    if addr / pageSize ≤ q ∧ q < addr / pageSize + count then false else ps.free q

theorem took_run {ps : Pages} (start count : ℕ) (hpos : 0 < count) (hle : count ≤ pageCount)
    (hs : start ≤ pageCount - count) (hfree : ∀ q, start ≤ q → q < start + count → ps.free q = true) :
    Took ps (pageSetRun start .used count ps) (u32 (start * pageSize)) count := by
  have haddr : u32 (start * pageSize) = start * pageSize :=
    u32_of_lt (by unfold pageCount pageSize at *; omega)
  have hdiv : start * pageSize / pageSize = start := Nat.mul_div_cancel _ (by decide)
  rw [haddr]
  refine ⟨hpos, Nat.mul_mod_left _ _, by rw [hdiv]; omega, by rw [hdiv]; exact hfree, fun q => ?_⟩
  rw [hdiv, pageSetRun_free]
  rfl

theorem pageAllocPagesAt_cases (startHint count : ℕ) (ps : Pages) :
    pageAllocPagesAt startHint count ps = (ps, 0) ∨
      ∃ ps' addr, pageAllocPagesAt startHint count ps = (ps', addr) ∧ Took ps ps' addr count := by
  unfold pageAllocPagesAt
  split_ifs with h
  · exact Or.inl rfl
  · cases hfind : findRun ps count (pageCount + 1) (startHint / pageSize) with
    | none => exact Or.inl rfl
    | some start =>
      obtain ⟨-, hle, hfree⟩ := findRun_some hfind
      exact Or.inr ⟨_, _, rfl, took_run start count (by omega) (by omega) hle hfree⟩

theorem pageAllocPages_cases (count : ℕ) (ps : Pages) :
    pageAllocPages count ps = (ps, 0) ∨
      ∃ ps' addr, pageAllocPages count ps = (ps', addr) ∧ Took ps ps' addr count := by
  unfold pageAllocPages
  split_ifs with h
  · exact Or.inl rfl
  · cases hfind : findRun ps count (pageCount + 1) 0 with
    | none => exact Or.inl rfl
    | some start =>
      obtain ⟨-, hle, hfree⟩ := findRun_some hfind
      exact Or.inr ⟨_, _, rfl, took_run start count (by omega) (by omega) hle hfree⟩

theorem pageAlloc_cases (ps : Pages) :
    pageAlloc ps = (ps, 0) ∨ ∃ ps' addr, pageAlloc ps = (ps', addr) ∧ Took ps ps' addr 1 := by
  unfold pageAlloc
  simp only
  split
  · exact Or.inl rfl
  · rename_i page hfound
    right
    obtain ⟨word, hmem, hword⟩ := List.exists_of_findSome?_eq_some hfound
    split_ifs at hword
    obtain ⟨bit, hfind, rfl⟩ := Option.map_eq_some_iff.mp hword
    have hbit : bit < 32 := List.mem_range.mp (List.mem_of_find?_eq_some hfind)
    have hlt : word < bitmapWords := List.mem_range.mp hmem
    have hset := List.find?_some hfind
    have hfree : ps.free (word * 32 + bit) = true := by
      have hw : (word * 32 + bit) / 32 = word := by omega
      have hb : (word * 32 + bit) % 32 = bit := by omega
      simpa only [Pages.free, Pages.bit, hw, hb] using hset
    refine ⟨_, _, rfl, took_run (word * 32 + bit) 1 Nat.one_pos (by decide) ?_ ?_⟩
    · unfold bitmapWords at hlt
      unfold pageCount
      omega
    · intro q hlo hhi
      obtain rfl : q = word * 32 + bit := by omega
      exact hfree

theorem pageFreePages_free {address count : ℕ} {ps : Pages} {q : ℕ}
    (h : (pageFreePages address count ps).free q = true) :
    ps.free q = true ∨ address / pageSize ≤ q ∧ q < address / pageSize + count := by
  unfold pageFreePages at h
  simp only at h
  split_ifs at h
  · exact Or.inl h
  · exact Or.inl h
  · rw [pageSetRun_free] at h
    split_ifs at h with hq
    · exact Or.inr hq
    · exact Or.inl h

theorem pageFreePages_first {address count : ℕ} (ps : Pages) (h0 : address ≠ 0) (hal : address % pageSize = 0)
    (hpos : 0 < count) (hfit : address / pageSize + count ≤ pageCount) :
    (pageFreePages address count ps).free (address / pageSize) = true := by
  unfold pageFreePages
  simp only
  rw [if_neg (by omega), if_neg (by omega), pageSetRun_free, if_pos (by omega)]
  rfl

theorem pageFreePages_unaligned {address : ℕ} (count : ℕ) (ps : Pages) (hal : address % pageSize ≠ 0) :
    pageFreePages address count ps = ps := by
  unfold pageFreePages
  rw [if_pos (Or.inr (Or.inl hal))]

theorem pageFree_free {address : ℕ} {ps : Pages} {q : ℕ} (h : (pageFree address ps).free q = true) :
    ps.free q = true ∨ q = address / pageSize := by
  unfold pageFree at h
  split_ifs at h
  · exact Or.inl h
  · rw [pageSet_free] at h
    split_ifs at h with hq
    · exact Or.inr hq
    · exact Or.inl h

/-- A memory map of one entry: 37 pages are available from 1 MiB on. -/
def bootMap (a : ℕ) : UInt8 :=
  match a with
  | 0x500 => 20
  | 0x506 => 0x10
  | 0x50d => 0x50
  | 0x50e => 0x02
  | 0x514 => 1
  | _ => 0

/-- The kernel has the first page of it. -/
def bootPages : Option Pages := pageAllocInit bootMap 0x100000 0x101000 (some ⟨0x500, 24⟩)

end Novium.Mm
