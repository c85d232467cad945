import Novium.Mm.PageAlloc

/-! The heap of `mm/heap.c`. Memory is a map from addresses to words, and a `Block *`
is an address: `Meta` has `Magic`, `Size`, `PrevSize` and `IsFree` at the offsets 0, 4,
8 and 12, `Node` has `Prev` and `Next` at 16 and 20. The segment list is newest first,
so that `HeapSegmentCount` is its length. A result of `none` is a walk of the free
list that never ends: it has made more steps than there are addresses. -/

namespace Novium.Mm

open Novium.Lib

def heapMagic : ℕ := 0x48454150
def heapGrowPages : ℕ := 16
def heapKeepPages : ℕ := heapGrowPages
def heapSegmentCap : ℕ := 8
def heapAlign : ℕ := 8

def metaSize : ℕ := 16

def heapAlignUp (x : ℕ) : ℕ := u32 (x + (heapAlign - 1)) / heapAlign * heapAlign

structure Segment where
  base : ℕ
  stop : ℕ
  deriving DecidableEq, Repr

structure Heap where
  mem : ℕ → ℕ
  segments : List Segment
  freeListHead : ℕ
  pages : Pages

namespace Heap

def fld (s : Heap) (b k : ℕ) : ℕ := s.mem (b + k)

def set (s : Heap) (b k v : ℕ) : Heap := { s with mem := Function.update s.mem (b + k) v }

def magic (s : Heap) (b : ℕ) : ℕ := s.fld b 0
def size (s : Heap) (b : ℕ) : ℕ := s.fld b 4
def prevSize (s : Heap) (b : ℕ) : ℕ := s.fld b 8
def isFree (s : Heap) (b : ℕ) : Bool := s.fld b 12 ≠ 0
def prev (s : Heap) (b : ℕ) : ℕ := s.fld b 16
def next (s : Heap) (b : ℕ) : ℕ := s.fld b 20

/-- The four fields of `Meta` written in the order of the source. -/
def setMeta (s : Heap) (b magic size prevSize isFree : ℕ) : Heap :=
  (((s.set b 0 magic).set b 4 size).set b 8 prevSize).set b 12 isFree

end Heap

def heapGrowthHint (s : Heap) : ℕ :=
  s.segments.foldl (fun hint seg => if seg.stop > hint then seg.stop else hint) 0

def heapFindSegment (b : ℕ) (s : Heap) : Option Segment :=
  if b = 0 then none else s.segments.find? fun seg => b ≥ seg.base ∧ b < seg.stop

/-- `at->Meta.PrevSize = v` if `at` is before the end of the segment of `b`. -/
def stampPrevSize (b at' v : ℕ) (s : Heap) : Heap :=
  match heapFindSegment b s with
  | none => s
  | some seg => if at' < seg.stop then s.set at' 8 v else s

def insertLoop (s : Heap) (b : ℕ) : ℕ → ℕ → ℕ → Option (ℕ × ℕ)
  | 0, _, _ => none
  | n + 1, prev, cur => if cur ≠ 0 ∧ cur < b then insertLoop s b n cur (s.next cur) else some (prev, cur)

def linkIn (b prev cur : ℕ) (s : Heap) : Heap :=
  let s := (s.set b 16 prev).set b 20 cur
  let s := if prev ≠ 0 then s.set prev 20 b else { s with freeListHead := b }
  if cur ≠ 0 then s.set cur 16 b else s

def heapListInsert (b : ℕ) (s : Heap) : Option Heap :=
  (insertLoop s b (2 ^ 32) 0 s.freeListHead).map fun (prev, cur) => linkIn b prev cur s

def heapListRemove (b : ℕ) (s : Heap) : Heap :=
  let s := if s.prev b ≠ 0 then s.set (s.prev b) 20 (s.next b) else { s with freeListHead := s.next b }
  let s := if s.next b ≠ 0 then s.set (s.next b) 16 (s.prev b) else s
  (s.set b 16 0).set b 20 0

def findLoop (s : Heap) (size : ℕ) : ℕ → ℕ → Option ℕ
  | 0, _ => none
  | n + 1, b => if b = 0 then some 0 else if s.size b ≥ size then some b else findLoop s size n (s.next b)

def heapFindFree (size : ℕ) (s : Heap) : Option (Heap × ℕ) :=
  (findLoop s size (2 ^ 32) s.freeListHead).map fun b => (if b ≠ 0 then heapListRemove b s else s, b)

def addSegment (addr pages : ℕ) (s : Heap) : Heap :=
  let s := s.setMeta addr heapMagic (u32 (pages * pageSize)) 0 1
  { s with segments := ⟨addr, u32 (addr + s.size addr)⟩ :: s.segments }

def heapGrow (pages : ℕ) (s : Heap) : Option (Heap × ℕ) :=
  if s.segments.length ≥ heapSegmentCap then some (s, 0)
  else
    let (ps, addr) := pageAllocPagesAt (heapGrowthHint s) pages s.pages
    let s := { s with pages := ps }
    if addr = 0 then some (s, 0)
    else (heapListInsert addr (addSegment addr pages s)).map fun s => (s, addr)

def heapSplit (b size : ℕ) (s : Heap) : Option Heap :=
  let leftOver := sub32 (s.size b) size
  if leftOver < heapAlign + metaSize then some s
  else
    let rest := u32 (b + size)
    let s := s.setMeta rest heapMagic leftOver size 1
    let s := stampPrevSize b (u32 (rest + leftOver)) leftOver s
    heapListInsert rest (s.set b 4 size)

def heapInit (s : Heap) : Option Heap :=
  (heapGrow heapGrowPages { s with freeListHead := 0 }).map Prod.fst

/-- The block that `kmalloc` cuts from, off the free list, or 0. -/
def kmallocBlock (totalSize : ℕ) (s : Heap) : Option (Heap × ℕ) := do
  let (s, b) ← heapFindFree totalSize s
  if b = 0 then
    let (s, b) ← heapGrow (u32 (totalSize + pageSize - 1) / pageSize) s
    some (if b = 0 then s else heapListRemove b s, b)
  else some (s, b)

def kmallocCut (b totalSize : ℕ) (s : Heap) : Option (Heap × ℕ) := do
  let s ← (if s.size b > totalSize then heapSplit b totalSize s else some (s.set b 4 totalSize))
  let s := (s.set b 0 heapMagic).set b 12 0
  some (stampPrevSize b (u32 (b + s.size b)) (s.size b) s, u32 (b + metaSize))

def kmalloc (size : ℕ) (s : Heap) : Option (Heap × ℕ) :=
  if size = 0 then some (s, 0)
  else if size > 2 ^ 32 - 1 - metaSize - heapAlign then some (s, 0)
  else do
    let totalSize := heapAlignUp (size + metaSize)
    let (s, b) ← kmallocBlock totalSize s
    if b = 0 then some (s, 0) else kmallocCut b totalSize s

def wipe (b : ℕ) (s : Heap) : Heap := s.setMeta b 0 0 0 0

def mergeLeft (b : ℕ) (s : Heap) : Heap × ℕ × Bool :=
  if s.prevSize b ≠ 0 then
    let left := sub32 b (s.prevSize b)
    if s.magic left = heapMagic ∧ s.isFree left then
      (wipe b (s.set left 4 (u32 (s.size left + s.size b))), left, true)
    else (s, b, false)
  else (s, b, false)

def mergeNext (b : ℕ) (s : Heap) : Heap :=
  let nxt := u32 (b + s.size b)
  match heapFindSegment b s with
  | none => s
  | some seg =>
    if nxt < seg.stop ∧ s.isFree nxt then
      let nextSize := s.size nxt
      let s := heapListRemove nxt s
      wipe nxt (s.set b 4 (u32 (s.size b + nextSize)))
    else s

/-- Everything past the keep threshold goes back, from a block that does not end its
segment. -/
def giveBack (b : ℕ) (s : Heap) : Option Heap :=
  if (heapFindSegment b s).any fun seg => u32 (b + s.size b) ≥ seg.stop then some s
  else if s.size b > heapKeepPages * pageSize then
    let keep := heapKeepPages * pageSize
    let give := s.size b - keep
    let pages := give / pageSize
    if pages = 0 then some s
    else do
      let split := u32 (b + keep)
      let s := s.setMeta split heapMagic give keep 1
      let s := stampPrevSize b (u32 (split + give)) keep s
      let s ← heapListInsert split (s.set b 4 keep)
      some { s with pages := pageFreePages split pages s.pages }
  else some s

def kfree (addr : ℕ) (s : Heap) : Option Heap :=
  let b := sub32 addr metaSize
  if s.magic b ≠ heapMagic ∨ s.isFree b then some s
  else do
    let (s, b, mergedLeft) := mergeLeft b s
    let s := mergeNext b s
    let s := stampPrevSize b (u32 (b + s.size b)) (s.size b) s
    let s := s.set b 12 1
    let s ← (if mergedLeft then some s else heapListInsert b s)
    giveBack b s

end Novium.Mm
