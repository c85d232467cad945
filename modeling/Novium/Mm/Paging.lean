import Novium.Lib.Bits
import Mathlib.Data.List.Induction
import Mathlib.Logic.Function.Basic

/-! `mm/paging.c` and the two-level walk of the processor over the tables it builds.
The directory is read through CR3; a table is found in physical memory at the frame
that the directory entry names, which is inside `PageTables` for the entries that
the code writes. -/

namespace Novium.Mm

open Novium.Lib

def pagingPageSize : BitVec 32 := 4096#32
def pagingPresent : BitVec 32 := 0x001#32
def pagingWritable : BitVec 32 := 0x002#32
def pagingUser : BitVec 32 := 0x004#32
def pageTableEntries : ℕ := 1024
def pageDirectoryFlags : BitVec 32 := pagingPresent ||| pagingWritable

/-- The address of `PageTables`, aligned to a page by its attribute. -/
structure Image where
  tablesAt : BitVec 32
  aligned : tablesAt &&& (pagingPageSize - 1#32) = 0#32

structure Paging where
  pageDirectory : ℕ → BitVec 32
  pageTables : ℕ → ℕ → BitVec 32
  pagingEnabled : Bool

def pageDirectoryIndex (address : BitVec 32) : BitVec 32 := address >>> 22

def pageTableIndex (address : BitVec 32) : BitVec 32 := (address >>> 12) &&& 0x3ff#32

def Image.row (m : Image) (i : ℕ) : BitVec 32 := m.tablesAt + BitVec.ofNat 32 (4096 * i)

def Image.directoryEntry (m : Image) (i : ℕ) : BitVec 32 :=
  (m.row i &&& ~~~(pagingPageSize - 1#32)) ||| pageDirectoryFlags

namespace Paging

def setDirectory (p : Paging) (i : ℕ) (entry : BitVec 32) : Paging :=
  { p with pageDirectory := Function.update p.pageDirectory i entry }

def setEntry (p : Paging) (i j : ℕ) (entry : BitVec 32) : Paging :=
  { p with pageTables := Function.update p.pageTables i (Function.update (p.pageTables i) j entry) }

end Paging

def pagingMap (m : Image) (virtualAddress physicalAddress flags : BitVec 32) (p : Paging) : Paging :=
  let virtualAddress := virtualAddress &&& ~~~(pagingPageSize - 1#32)
  let physicalAddress := physicalAddress &&& ~~~(pagingPageSize - 1#32)
  let directoryIndex := (pageDirectoryIndex virtualAddress).toNat
  let tableIndex := (pageTableIndex virtualAddress).toNat
  (p.setDirectory directoryIndex (m.directoryEntry directoryIndex)).setEntry directoryIndex tableIndex
    (physicalAddress ||| flags)

def pagingUnmap (virtualAddress : BitVec 32) (p : Paging) : Paging :=
  let virtualAddress := virtualAddress &&& ~~~(pagingPageSize - 1#32)
  p.setEntry (pageDirectoryIndex virtualAddress).toNat (pageTableIndex virtualAddress).toNat 0#32

def initEntry (i j : ℕ) : BitVec 32 :=
  ((BitVec.ofNat 32 i <<< 22) ||| (BitVec.ofNat 32 j <<< 12)) ||| pageDirectoryFlags

def initTable (i : ℕ) : ℕ → Paging → Paging
  | 0, p => p
  | n + 1, p => (initTable i n p).setEntry i n (initEntry i n)

def initTables (m : Image) : ℕ → Paging → Paging
  | 0, p => p
  | n + 1, p => initTable n pageTableEntries ((initTables m n p).setDirectory n (m.directoryEntry n))

def pagingInit (m : Image) (p : Paging) : Paging :=
  { initTables m pageTableEntries p with pagingEnabled := true }

namespace Paging

/-- The word at a physical address: an entry of `PageTables`, or whatever memory
holds elsewhere. -/
def word (m : Image) (rest : BitVec 32 → BitVec 32) (p : Paging) (address : BitVec 32) : BitVec 32 :=
  let offset := (address - m.tablesAt).toNat
  if offset < 4096 * pageTableEntries then p.pageTables (offset / 4096) (offset % 4096 / 4) else rest address

def walkDirectory (p : Paging) (a : BitVec 32) : BitVec 32 := p.pageDirectory (a >>> 22).toNat

/-- The table entry for `a`, read at the frame of its directory entry. -/
def walkTable (m : Image) (rest : BitVec 32 → BitVec 32) (p : Paging) (a : BitVec 32) : BitVec 32 :=
  p.word m rest ((p.walkDirectory a &&& 0xfffff000#32) + ((a >>> 12) &&& 0x3ff#32) * 4#32)

/-- The physical address of `a`, or a fault. -/
def translate (m : Image) (rest : BitVec 32 → BitVec 32) (p : Paging) (a : BitVec 32) : Option (BitVec 32) :=
  if (p.walkDirectory a).getLsbD 0 ∧ (p.walkTable m rest a).getLsbD 0 then
    some ((p.walkTable m rest a &&& 0xfffff000#32) ||| (a &&& 0xfff#32))
  else none

def writable (m : Image) (rest : BitVec 32 → BitVec 32) (p : Paging) (a : BitVec 32) : Bool :=
  (p.walkDirectory a).getLsbD 1 && (p.walkTable m rest a).getLsbD 1

def userMode (m : Image) (rest : BitVec 32 → BitVec 32) (p : Paging) (a : BitVec 32) : Bool :=
  (p.walkDirectory a).getLsbD 2 && (p.walkTable m rest a).getLsbD 2

end Paging

theorem offsetMask_eq : pagingPageSize - 1#32 = low 32 12 := by decide

theorem frameMask_eq : (0xfffff000#32 : BitVec 32) = ~~~low 32 12 := by decide

theorem toNat_pageDirectoryIndex (a : BitVec 32) : (pageDirectoryIndex a).toNat = a.toNat / 2 ^ 22 := by
  rw [pageDirectoryIndex, BitVec.toNat_ushiftRight, Nat.shiftRight_eq_div_pow]

theorem toNat_pageTableIndex (a : BitVec 32) : (pageTableIndex a).toNat = a.toNat / 2 ^ 12 % 2 ^ 10 := by
  rw [pageTableIndex, show (0x3ff#32 : BitVec 32) = low 32 10 by decide, toNat_and_low _ (by decide),
    BitVec.toNat_ushiftRight, Nat.shiftRight_eq_div_pow]

theorem pageDirectoryIndex_lt (a : BitVec 32) : (pageDirectoryIndex a).toNat < pageTableEntries := by
  have := a.isLt
  rw [toNat_pageDirectoryIndex, pageTableEntries]
  omega

theorem pageTableIndex_lt (a : BitVec 32) : (pageTableIndex a).toNat < pageTableEntries := by
  rw [toNat_pageTableIndex, pageTableEntries]
  exact Nat.mod_lt _ (by decide)

theorem indices_eq_iff (v a : BitVec 32) :
    ((pageDirectoryIndex v).toNat = (pageDirectoryIndex a).toNat ∧
      (pageTableIndex v).toNat = (pageTableIndex a).toNat) ↔ v >>> 12 = a >>> 12 := by
  rw [← BitVec.toNat_inj, BitVec.toNat_ushiftRight, BitVec.toNat_ushiftRight, Nat.shiftRight_eq_div_pow,
    Nat.shiftRight_eq_div_pow, toNat_pageDirectoryIndex, toNat_pageDirectoryIndex, toNat_pageTableIndex,
    toNat_pageTableIndex]
  omega

theorem rounded_page (v : BitVec 32) : (v &&& ~~~(pagingPageSize - 1#32)) >>> 12 = v >>> 12 := by
  rw [offsetMask_eq, and_high_ushiftRight v le_rfl]

theorem initEntry_page (a : BitVec 32) :
    initEntry (pageDirectoryIndex a).toNat (pageTableIndex a).toNat = (a &&& ~~~low 32 12) ||| pageDirectoryFlags := by
  rw [initEntry, BitVec.ofNat_toNat, BitVec.ofNat_toNat, BitVec.setWidth_eq, BitVec.setWidth_eq]
  exact congrArg (· ||| pageDirectoryFlags) (shiftLeft_fields (k := 12) (m := 10) a)

theorem Image.row_aligned (m : Image) (i : ℕ) : m.row i &&& low 32 12 = 0#32 := by
  have h := congrArg BitVec.toNat m.aligned
  rw [offsetMask_eq, toNat_and_low _ (by decide)] at h
  rw [← BitVec.toNat_inj, toNat_and_low _ (by decide), Image.row, BitVec.toNat_add, BitVec.toNat_ofNat]
  simp only [BitVec.toNat_ofNat] at h ⊢
  omega

theorem Image.directoryEntry_frame (m : Image) (i : ℕ) : m.directoryEntry i &&& 0xfffff000#32 = m.row i := by
  rw [Image.directoryEntry, offsetMask_eq, frameMask_eq, or_and_high (k := 12) _ (by decide),
    and_high_of_and_eq_zero (m.row_aligned i)]

theorem Image.directoryEntry_bit (m : Image) (i : ℕ) {k : ℕ} (hk : k < 12) :
    (m.directoryEntry i).getLsbD k = pageDirectoryFlags.getLsbD k := by
  rw [Image.directoryEntry, offsetMask_eq, getLsbD_or_low _ _ hk]

theorem Paging.word_row (m : Image) (rest : BitVec 32 → BitVec 32) (p : Paging) {i j : ℕ}
    (hi : i < pageTableEntries) (hj : j < pageTableEntries) :
    p.word m rest (m.row i + BitVec.ofNat 32 j * 4#32) = p.pageTables i j := by
  have hoff : (m.row i + BitVec.ofNat 32 j * 4#32 - m.tablesAt).toNat = 4096 * i + 4 * j := by
    unfold pageTableEntries at hi hj
    have := m.tablesAt.isLt
    rw [Image.row, BitVec.toNat_sub, BitVec.toNat_add, BitVec.toNat_add, BitVec.toNat_mul]
    simp only [BitVec.toNat_ofNat]
    omega
  unfold pageTableEntries at hi hj
  unfold Paging.word
  simp only [hoff, pageTableEntries]
  rw [if_pos (by omega), show (4096 * i + 4 * j) / 4096 = i by omega,
    show (4096 * i + 4 * j) % 4096 / 4 = j by omega]

/-- Every directory entry names its row. -/
def Installed (m : Image) (p : Paging) : Prop :=
  ∀ i < pageTableEntries, p.pageDirectory i = m.directoryEntry i

def Paging.entryAt (p : Paging) (a : BitVec 32) : BitVec 32 :=
  p.pageTables (pageDirectoryIndex a).toNat (pageTableIndex a).toNat

section

variable {m : Image} {p : Paging}

theorem Installed.walkDirectory (h : Installed m p) (a : BitVec 32) :
    p.walkDirectory a = m.directoryEntry (pageDirectoryIndex a).toNat :=
  h _ (pageDirectoryIndex_lt a)

theorem Installed.walkTable (h : Installed m p) (rest : BitVec 32 → BitVec 32) (a : BitVec 32) :
    p.walkTable m rest a = p.entryAt a := by
  have hrow := p.word_row m rest (pageDirectoryIndex_lt a) (pageTableIndex_lt a)
  rw [BitVec.ofNat_toNat, BitVec.setWidth_eq] at hrow
  rw [Paging.walkTable, h.walkDirectory, Image.directoryEntry_frame]
  exact hrow

theorem Installed.setDirectory (h : Installed m p) (i : ℕ) :
    Installed m (p.setDirectory i (m.directoryEntry i)) := by
  intro k hk
  by_cases hki : k = i
  · simp [Paging.setDirectory, hki]
  · simpa [Paging.setDirectory, hki] using h k hk

theorem Installed.setEntry (h : Installed m p) (i j : ℕ) (entry : BitVec 32) : Installed m (p.setEntry i j entry) := h

theorem Installed.pagingMap (h : Installed m p) (v pa f : BitVec 32) : Installed m (pagingMap m v pa f p) :=
  (h.setDirectory _).setEntry _ _ _

theorem Installed.pagingUnmap (h : Installed m p) (v : BitVec 32) : Installed m (pagingUnmap v p) :=
  h.setEntry _ _ _

theorem Paging.setEntry_apply (p : Paging) (i j : ℕ) (entry : BitVec 32) (k l : ℕ) :
    (p.setEntry i j entry).pageTables k l = if i = k ∧ j = l then entry else p.pageTables k l := by
  unfold Paging.setEntry
  by_cases hk : k = i
  · subst hk
    by_cases hl : l = j
    · subst hl; simp
    · simp [hl, Ne.symm hl]
  · simp [hk, Ne.symm hk]

theorem Paging.entryAt_setEntry (p : Paging) (v : BitVec 32) (entry : BitVec 32) (a : BitVec 32) :
    (p.setEntry (pageDirectoryIndex (v &&& ~~~(pagingPageSize - 1#32))).toNat
      (pageTableIndex (v &&& ~~~(pagingPageSize - 1#32))).toNat entry).entryAt a =
      if v >>> 12 = a >>> 12 then entry else p.entryAt a := by
  rw [Paging.entryAt, Paging.setEntry_apply]
  simp only [indices_eq_iff, rounded_page]
  rfl

theorem entryAt_pagingMap (m : Image) (v pa f : BitVec 32) (p : Paging) (a : BitVec 32) :
    (pagingMap m v pa f p).entryAt a =
      if v >>> 12 = a >>> 12 then (pa &&& ~~~low 32 12) ||| f else p.entryAt a := by
  rw [← offsetMask_eq]
  exact Paging.entryAt_setEntry _ v _ a

theorem entryAt_pagingUnmap (v : BitVec 32) (p : Paging) (a : BitVec 32) :
    (pagingUnmap v p).entryAt a = if v >>> 12 = a >>> 12 then 0#32 else p.entryAt a :=
  p.entryAt_setEntry v 0#32 a

theorem initTable_pageDirectory (i n : ℕ) (p : Paging) : (initTable i n p).pageDirectory = p.pageDirectory := by
  induction n with
  | zero => rfl
  | succ n ih => exact ih

theorem initTable_pageTables (i n : ℕ) (p : Paging) (k l : ℕ) :
    (initTable i n p).pageTables k l = if k = i ∧ l < n then initEntry i l else p.pageTables k l := by
  induction n with
  | zero => simp [initTable]
  | succ n ih =>
    rw [initTable, Paging.setEntry_apply, ih]
    by_cases hk : k = i
    · by_cases hl : l = n
      · simp [hk, hl]
      · simp [hk, Ne.symm hl, show l < n + 1 ↔ l < n by omega]
    · simp [hk, Ne.symm hk]

theorem initTables_pageDirectory (m : Image) (n : ℕ) (p : Paging) {i : ℕ} (hi : i < n) :
    (initTables m n p).pageDirectory i = m.directoryEntry i := by
  induction n with
  | zero => omega
  | succ n ih =>
    rw [initTables, initTable_pageDirectory]
    by_cases hin : i = n
    · simp [Paging.setDirectory, hin]
    · simpa [Paging.setDirectory, hin] using ih (by omega)

theorem initTables_pageTables (m : Image) (n : ℕ) (p : Paging) {i j : ℕ} (hi : i < n)
    (hj : j < pageTableEntries) : (initTables m n p).pageTables i j = initEntry i j := by
  induction n with
  | zero => omega
  | succ n ih =>
    rw [initTables, initTable_pageTables]
    by_cases hin : i = n
    · simp [hin, hj]
    · rw [if_neg (by simp [hin])]
      exact ih (by omega)

theorem installed_pagingInit (m : Image) (p : Paging) : Installed m (pagingInit m p) := by
  intro i hi
  simp only [pagingInit]
  rw [initTables_pageDirectory m pageTableEntries p hi]

theorem entryAt_pagingInit (m : Image) (p : Paging) (a : BitVec 32) :
    (pagingInit m p).entryAt a = (a &&& ~~~low 32 12) ||| pageDirectoryFlags := by
  simp only [Paging.entryAt, pagingInit]
  rw [initTables_pageTables m pageTableEntries p (pageDirectoryIndex_lt a) (pageTableIndex_lt a), initEntry_page]

end

inductive PagingCall where
  | map (virtualAddress physicalAddress flags : BitVec 32)
  | unmap (virtualAddress : BitVec 32)
  deriving DecidableEq

namespace PagingCall

def run (m : Image) (p : Paging) : PagingCall → Paging
  | map v pa f => pagingMap m v pa f p
  | unmap v => pagingUnmap v p

/-- The number of the page that the call is about. -/
def page : PagingCall → BitVec 32
  | map v _ _ => v >>> 12
  | unmap v => v >>> 12

/-- The most recent of the calls on a page. -/
def latest (page : BitVec 32) (calls : List PagingCall) : Option PagingCall :=
  calls.reverse.find? fun c => c.page = page

def entry : PagingCall → BitVec 32
  | map _ pa f => (pa &&& ~~~low 32 12) ||| f
  | unmap _ => 0#32

end PagingCall

/-- `PagingInit` and then the calls in order. -/
def paged (m : Image) (boot : Paging) (calls : List PagingCall) : Paging :=
  calls.foldl (PagingCall.run m) (pagingInit m boot)

section

variable {m : Image} {boot : Paging} {calls : List PagingCall}

theorem latest_snoc (page : BitVec 32) (calls : List PagingCall) (c : PagingCall) :
    PagingCall.latest page (calls ++ [c]) = if c.page = page then some c else PagingCall.latest page calls := by
  unfold PagingCall.latest
  rw [List.reverse_append, List.reverse_singleton, List.singleton_append, List.find?_cons]
  by_cases hc : c.page = page <;> simp [hc]

theorem paged_snoc (m : Image) (boot : Paging) (calls : List PagingCall) (c : PagingCall) :
    paged m boot (calls ++ [c]) = c.run m (paged m boot calls) := by
  simp [paged]

theorem installed_run {p : Paging} (h : Installed m p) (c : PagingCall) : Installed m (c.run m p) := by
  cases c with
  | map v pa f => exact h.pagingMap v pa f
  | unmap v => exact h.pagingUnmap v

theorem entryAt_run (m : Image) (p : Paging) (c : PagingCall) (a : BitVec 32) :
    (c.run m p).entryAt a = if c.page = a >>> 12 then c.entry else p.entryAt a := by
  cases c with
  | map v pa f => exact entryAt_pagingMap m v pa f p a
  | unmap v => exact entryAt_pagingUnmap v p a

theorem installed_paged (m : Image) (boot : Paging) (calls : List PagingCall) : Installed m (paged m boot calls) := by
  induction calls using List.reverseRecOn with
  | nil => exact installed_pagingInit m boot
  | append_singleton calls c ih =>
    rw [paged_snoc]
    exact installed_run ih c

theorem entryAt_paged (m : Image) (boot : Paging) (calls : List PagingCall) (a : BitVec 32) :
    (paged m boot calls).entryAt a =
      ((PagingCall.latest (a >>> 12) calls).map PagingCall.entry).getD ((a &&& ~~~low 32 12) ||| pageDirectoryFlags) := by
  induction calls using List.reverseRecOn with
  | nil => exact entryAt_pagingInit m boot a
  | append_singleton calls c ih =>
    rw [paged_snoc, entryAt_run, latest_snoc]
    by_cases hc : c.page = a >>> 12
    · simp [hc]
    · rw [if_neg hc, if_neg hc, ih]

end

end Novium.Mm
