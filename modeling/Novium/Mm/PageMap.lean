import Mathlib.Logic.Relation
import Novium.Mm.PageRuns

/-! The memory map of the boot loader. It is a table of entries of varying size, read at
boot without any trust in it: where the walk goes, what it reads, and which pages are free
when it is done. -/

namespace Novium.Mm

open Novium.Lib

section

variable (bytes : ℕ → UInt8) (boot : BootInfo)

def entrySize (offset : ℕ) : ℕ := read32 bytes (u32 (boot.memoryMapAddr + offset))
def entryBase (offset : ℕ) : ℕ := read64 bytes (u32 (u32 (boot.memoryMapAddr + offset) + 4))
def entryLength (offset : ℕ) : ℕ := read64 bytes (u32 (u32 (boot.memoryMapAddr + offset) + 12))
def entryType (offset : ℕ) : ℕ := read32 bytes (u32 (u32 (boot.memoryMapAddr + offset) + 20))

/-- The entry at `offset` is large enough for its fields and does not overrun the map. -/
def EntryInside (offset : ℕ) : Prop :=
  20 ≤ entrySize bytes boot offset ∧ offset + 4 + entrySize bytes boot offset ≤ boot.memoryMapLength

/-- The offsets that one comes to from `a` on, entry by entry, until one is not inside the map. -/
inductive Walked (a : ℕ) : ℕ → Prop where
  | start : Walked a a
  | next {offset : ℕ} : Walked a offset → EntryInside bytes boot offset →
      Walked a (offset + 4 + entrySize bytes boot offset)

/-- The entry at `offset` makes the page `q` available: its type says so, its end does not overflow 64 bits, it
starts below 4 GiB, and the page lies wholly inside it and below 4 GiB. -/
def Provides (offset q : ℕ) : Prop :=
  entryType bytes boot offset = multibootMemoryAvailable ∧
    entryBase bytes boot offset + entryLength bytes boot offset < 2 ^ 64 ∧ entryBase bytes boot offset < 2 ^ 32 ∧
    entryBase bytes boot offset ≤ q * pageSize ∧
    (q + 1) * pageSize ≤ min (entryBase bytes boot offset + entryLength bytes boot offset) (2 ^ 32)

def Usable (a q : ℕ) : Prop :=
  ∃ offset, Walked bytes boot a offset ∧ EntryInside bytes boot offset ∧ Provides bytes boot offset q

end

variable {bytes : ℕ → UInt8} {boot : BootInfo} {offset : ℕ}

theorem read32_lt (bytes : ℕ → UInt8) (a : ℕ) : read32 bytes a < 2 ^ 32 := by
  unfold read32
  have h0 := (bytes a).toNat_lt
  have h1 := (bytes (u32 (a + 1))).toNat_lt
  have h2 := (bytes (u32 (a + 2))).toNat_lt
  have h3 := (bytes (u32 (a + 3))).toNat_lt
  omega

theorem read64_lt (bytes : ℕ → UInt8) (a : ℕ) : read64 bytes a < 2 ^ 64 := by
  unfold read64
  have h0 := read32_lt bytes a
  have h1 := read32_lt bytes (u32 (a + 4))
  omega

theorem Walked.head {a : ℕ} (hin : EntryInside bytes boot a)
    (h : Walked bytes boot (a + 4 + entrySize bytes boot a) offset) : Walked bytes boot a offset := by
  induction h with
  | start => exact .next .start hin
  | next _ hoff ih => exact .next ih hoff

theorem Walked.le {a : ℕ} (h : Walked bytes boot a offset) (ha : a ≤ boot.memoryMapLength) :
    offset ≤ boot.memoryMapLength := by
  induction h with
  | start => exact ha
  | next _ hoff _ => exact hoff.2

/-- Where the turn of the loop at `offset` goes on, if it does. -/
def mapNext (bytes : ℕ → UInt8) (boot : BootInfo) (offset : ℕ) : Option ℕ :=
  if u32 (offset + 4) ≤ boot.memoryMapLength then
    if entrySize bytes boot offset < 20 ∨ entrySize bytes boot offset > sub32 (sub32 boot.memoryMapLength offset) 4 then
      none
    else some (u32 (offset + u32 (4 + entrySize bytes boot offset)))
  else none

def mapMark (bytes : ℕ → UInt8) (boot : BootInfo) (offset : ℕ) (ps : Pages) : Pages :=
  if entryType bytes boot offset = multibootMemoryAvailable then
    pageSetRange (entryBase bytes boot offset) (entryLength bytes boot offset) .available ps
  else ps

theorem mapLoop_none {n : ℕ} {ps : Pages} (h : mapNext bytes boot offset = none) :
    mapLoop bytes boot (n + 1) offset ps = some ps := by
  rw [mapLoop]
  unfold mapNext at h
  split_ifs at h ⊢ with hguard hsize
  · simp only
    exact if_pos hsize
  · rfl

theorem mapLoop_some {n offset' : ℕ} {ps : Pages} (h : mapNext bytes boot offset = some offset') :
    mapLoop bytes boot (n + 1) offset ps = mapLoop bytes boot n offset' (mapMark bytes boot offset ps) := by
  rw [mapLoop]
  unfold mapNext at h
  split_ifs at h with hguard hsize
  cases h
  rw [if_pos hguard]
  simp only
  exact if_neg hsize

/-- Below the last four bytes of the address space the turn does what the table says. -/
theorem mapNext_eq (hlen : boot.memoryMapLength < 2 ^ 32) (hoff : offset < 2 ^ 32 - 4) :
    EntryInside bytes boot offset ∧ mapNext bytes boot offset = some (offset + 4 + entrySize bytes boot offset) ∨
      ¬EntryInside bytes boot offset ∧ mapNext bytes boot offset = none := by
  have hlt : entrySize bytes boot offset < 2 ^ 32 := read32_lt _ _
  unfold mapNext EntryInside
  rw [u32_of_lt (show offset + 4 < 2 ^ 32 by omega)]
  generalize entrySize bytes boot offset = size at *
  by_cases hguard : offset + 4 ≤ boot.memoryMapLength
  · have hroom : sub32 (sub32 boot.memoryMapLength offset) 4 = boot.memoryMapLength - offset - 4 := by
      rw [sub32_of_le (by omega) hlen, sub32_of_le (by omega) (by omega)]
    rw [if_pos hguard, hroom]
    by_cases hout : size < 20 ∨ size > boot.memoryMapLength - offset - 4
    · rw [if_pos hout]
      exact Or.inr ⟨by omega, rfl⟩
    · rw [if_neg hout, u32_of_lt (show 4 + size < 2 ^ 32 by omega), u32_of_lt (show offset + (4 + size) < 2 ^ 32 by omega),
        Nat.add_assoc]
      exact Or.inl ⟨by omega, rfl⟩
  · rw [if_neg hguard]
    exact Or.inr ⟨by omega, rfl⟩

theorem mapMark_free (ps : Pages) (q : ℕ) :
    (mapMark bytes boot offset ps).free q = true ↔ ps.free q = true ∨ Provides bytes boot offset q := by
  unfold mapMark Provides
  by_cases htype : entryType bytes boot offset = multibootMemoryAvailable
  · have hlt : entryLength bytes boot offset < 2 ^ 64 := read64_lt _ _
    rw [if_pos htype, pageSetRange_free _ hlt]
    simp only [htype, true_and]
    split_ifs with hin
    · exact iff_of_true rfl (Or.inr ⟨hin.1, hin.2.1, hin.2.2.2⟩)
    · refine ⟨Or.inl, fun h => h.resolve_right fun hp => hin ⟨hp.1, hp.2.1, ?_, hp.2.2⟩⟩
      have hlast := hp.2.2.2
      unfold pageCount
      unfold pageSize at hlast
      omega
  · rw [if_neg htype]
    simp [htype]

theorem mapLoop_ends (hlen : boot.memoryMapLength < 2 ^ 32) {n : ℕ} (hn : boot.memoryMapLength < offset + n)
    (hle : offset ≤ boot.memoryMapLength) (hbelow : ∀ off, Walked bytes boot offset off → off < 2 ^ 32 - 4) (ps : Pages) :
    (mapLoop bytes boot n offset ps).isSome := by
  induction n generalizing offset ps with
  | zero => omega
  | succ n ih =>
    rcases mapNext_eq hlen (hbelow offset .start) with ⟨hin, hnext⟩ | ⟨-, hnext⟩
    · rw [mapLoop_some hnext]
      have hsize := hin.1
      exact ih (by omega) hin.2 (fun off hw => hbelow off (hw.head hin)) _
    · rw [mapLoop_none hnext]
      rfl

section

variable (bytes : ℕ → UInt8) (boot : BootInfo)

def HasMap : Prop := boot.memoryMapAddr ≠ 0 ∧ boot.memoryMapLength ≠ 0

/-- The values of `Offset` at the turns of the loop. -/
inductive Visited : ℕ → Prop where
  | first : HasMap boot → Visited 0
  | next {offset offset' : ℕ} : Visited offset → mapNext bytes boot offset = some offset' → Visited offset'

/-- The values of `Offset` from the first turn at which `Offset + 4` wraps around: what lies there is no entry of the map. -/
inductive Strays : ℕ → Prop where
  | top {offset : ℕ} : HasMap boot → Walked bytes boot 0 offset → 2 ^ 32 - 4 ≤ offset → Strays offset
  | next {offset offset' : ℕ} : Strays offset → mapNext bytes boot offset = some offset' → Strays offset'

end

theorem visited_iff : Visited bytes boot offset ↔
    HasMap boot ∧ Relation.ReflTransGen (fun off off' => mapNext bytes boot off = some off') 0 offset := by
  constructor
  · intro h
    induction h with
    | first hmap => exact ⟨hmap, .refl⟩
    | next _ hnext ih => exact ⟨ih.1, ih.2.tail hnext⟩
  · rintro ⟨hmap, hsteps⟩
    induction hsteps with
    | refl => exact .first hmap
    | tail _ hnext ih => exact .next ih hnext

theorem Walked.visited (hlen : boot.memoryMapLength < 2 ^ 32) (hmap : HasMap boot) (h : Walked bytes boot 0 offset) :
    Visited bytes boot offset := by
  induction h with
  | start => exact .first hmap
  | @next off _ hin ih =>
    have hbelow : off < 2 ^ 32 - 4 := by
      obtain ⟨hsize, hroom⟩ := hin
      omega
    rcases mapNext_eq hlen hbelow with ⟨-, hnext⟩ | ⟨hout, -⟩
    · exact .next ih hnext
    · exact absurd hin hout

theorem Strays.visited (hlen : boot.memoryMapLength < 2 ^ 32) (h : Strays bytes boot offset) : Visited bytes boot offset := by
  induction h with
  | top hmap hwalk _ => exact hwalk.visited hlen hmap
  | next _ hnext ih => exact .next ih hnext

theorem Visited.walked_or_strays (hlen : boot.memoryMapLength < 2 ^ 32) (h : Visited bytes boot offset) :
    Walked bytes boot 0 offset ∧ offset < 2 ^ 32 - 4 ∨ Strays bytes boot offset := by
  have hsplit : ∀ {off}, HasMap boot → Walked bytes boot 0 off →
      Walked bytes boot 0 off ∧ off < 2 ^ 32 - 4 ∨ Strays bytes boot off := fun {off} hmap hwalk =>
    (Nat.lt_or_ge off (2 ^ 32 - 4)).imp (⟨hwalk, ·⟩) (.top hmap hwalk)
  have hmap : HasMap boot := (visited_iff.mp h).1
  induction h with
  | first => exact hsplit hmap .start
  | next _ hnext ih =>
    rcases ih with ⟨hwalk, htop⟩ | hstray
    · rcases mapNext_eq hlen htop with ⟨hin, hgo⟩ | ⟨-, hstop⟩
      · obtain rfl := Option.some.inj (hgo.symm.trans hnext)
        exact hsplit hmap (.next hwalk hin)
      · rw [hstop] at hnext
        cases hnext
    · exact .inr (.next hstray hnext)

theorem not_strays (h : boot.memoryMapAddr = 0 ∨ ∀ off, Walked bytes boot 0 off → off < 2 ^ 32 - 4) :
    ¬Strays bytes boot offset := by
  intro hs
  induction hs with
  | top hmap hwalk htop =>
    rcases h with haddr | hbelow
    · exact hmap.1 haddr
    · have hlt := hbelow _ hwalk
      omega
  | next _ _ ih => exact ih

theorem Visited.walked (hlen : boot.memoryMapLength < 2 ^ 32)
    (hbelow : ∀ off, Walked bytes boot 0 off → off < 2 ^ 32 - 4) (h : Visited bytes boot offset) :
    Walked bytes boot 0 offset :=
  (h.walked_or_strays hlen).elim And.left fun hs => absurd hs (not_strays (.inr hbelow))

/-- When the loop ends, it has freed what the records on its way provide, whatever they are. -/
theorem mapLoop_frees {n : ℕ} {ps ps' : Pages} (h : mapLoop bytes boot n offset ps = some ps') (q : ℕ) :
    ps'.free q = true ↔ ps.free q = true ∨
      ∃ off, Relation.ReflTransGen (fun off off' => mapNext bytes boot off = some off') offset off ∧
        (mapNext bytes boot off).isSome ∧ Provides bytes boot off q := by
  induction n generalizing offset ps with
  | zero => cases h
  | succ n ih =>
    cases hnext : mapNext bytes boot offset with
    | none =>
      obtain rfl : ps = ps' := Option.some.inj ((mapLoop_none hnext).symm.trans h)
      refine (or_iff_left ?_).symm
      rintro ⟨off, hsteps, hsome, -⟩
      rcases hsteps.cases_head with rfl | ⟨c, hc, -⟩
      · rw [hnext] at hsome
        cases hsome
      · rw [hnext] at hc
        cases hc
    | some offset' =>
      rw [mapLoop_some hnext] at h
      rw [ih h, mapMark_free, or_assoc]
      refine or_congr_right ⟨?_, ?_⟩
      · rintro (hprov | ⟨off, hsteps, hrest⟩)
        · exact ⟨offset, .refl, by rw [hnext]; rfl, hprov⟩
        · exact ⟨off, hsteps.head hnext, hrest⟩
      · rintro ⟨off, hsteps, hsome, hprov⟩
        rcases hsteps.cases_head with rfl | ⟨c, hc, hsteps⟩
        · exact .inl hprov
        · obtain rfl := Option.some.inj (hnext.symm.trans hc)
          exact .inr ⟨off, hsteps, hsome, hprov⟩

/-- The page has a byte of the kernel's image. -/
def Touches (kernelStart kernelEnd q : ℕ) : Prop := ∃ a, kernelStart ≤ a ∧ a < kernelEnd ∧ a / pageSize = q

theorem touches_iff {kernelStart kernelEnd q : ℕ} (hk : kernelStart < kernelEnd) :
    Touches kernelStart kernelEnd q ↔ InRange .used kernelStart kernelEnd q := by
  unfold Touches InRange pageSize
  constructor
  · rintro ⟨a, hlo, hhi, ha⟩
    omega
  · rintro ⟨hlo, hhi⟩
    exact ⟨max kernelStart (q * 4096), by omega, by omega, by omega⟩

/-- A range of used memory below 4 GiB takes every page that it has a byte of. -/
theorem pageSetRange_used_free {base length : ℕ} (hfit : base + length < 2 ^ 32) {ps : Pages} {q : ℕ}
    (habove : ps.free q = true → q < pageCount) :
    (pageSetRange base length .used ps).free q = true ↔ ps.free q = true ∧ ¬InRange .used base (base + length) q := by
  rw [pageSetRange_free base (by omega), min_eq_left (by omega)]
  split_ifs with hin
  · simp [hin.2.2.2]
  · refine ⟨fun hfree => ⟨hfree, fun hrange => hin ⟨by omega, by omega, habove hfree, hrange⟩⟩, And.left⟩

/-- Which pages are free after boot, for any map at all: the records that the loop accepts decide. -/
theorem pageAllocInit_frees {kernelStart kernelEnd q : ℕ} {boot : Option BootInfo} {ps : Pages}
    (hk : kernelStart < kernelEnd) (hend : kernelEnd < 2 ^ 32)
    (h : pageAllocInit bytes kernelStart kernelEnd boot = some ps) :
    ps.free q = true ↔ 256 ≤ q ∧ ¬Touches kernelStart kernelEnd q ∧
      ∃ b ∈ boot, ∃ off, Visited bytes b off ∧ (mapNext bytes b off).isSome ∧ Provides bytes b off q := by
  unfold pageAllocInit at h
  cases boot with
  | none =>
    cases h
    refine iff_of_false (by rw [free_empty]; simp) ?_
    rintro ⟨-, -, b, hb, -⟩
    cases hb
  | some b =>
    simp only at h
    split_ifs at h with hnone
    · cases h
      refine iff_of_false (by rw [free_empty]; simp) ?_
      rintro ⟨-, -, b', hb, off, hv, -⟩
      cases hb
      obtain ⟨haddr, hlength⟩ := (visited_iff.mp hv).1
      exact hnone.elim haddr hlength
    · push Not at hnone
      obtain ⟨ps₁, h1, rfl⟩ := Option.map_eq_some_iff.mp h
      have ht : Tallied ps₁ := mapLoop_tallied tallied_empty h1
      have hlow : ¬InRange .used 0 (0 + 0x100000) q ↔ 256 ≤ q := by
        unfold InRange pageSize
        omega
      rw [sub32_of_le hk.le hend, pageSetRange_used_free (by omega) ((ht.pageSetRange _ _ _).above q),
        pageSetRange_used_free (by omega) (ht.above q), hlow, mapLoop_frees h1, free_empty, touches_iff hk,
        show kernelStart + (kernelEnd - kernelStart) = kernelEnd by omega]
      simp only [Bool.false_eq_true, false_or, Option.mem_some_iff, exists_eq_left', visited_iff]
      constructor
      · rintro ⟨⟨⟨off, hsteps, hfound⟩, hq⟩, hkernel⟩
        exact ⟨hq, hkernel, off, ⟨hnone, hsteps⟩, hfound⟩
      · rintro ⟨hq, hkernel, off, ⟨-, hsteps⟩, hfound⟩
        exact ⟨⟨⟨off, hsteps, hfound⟩, hq⟩, hkernel⟩

/-- The pages that are free after boot are the usable ones of the map, above 1 MiB and without a byte of the kernel. -/
theorem pageAllocInit_exact (bytes : ℕ → UInt8) (boot : BootInfo) (hlen : boot.memoryMapLength < 2 ^ 32 - 4)
    {kernelStart kernelEnd : ℕ} (hk : kernelStart < kernelEnd) (hend : kernelEnd < 2 ^ 32) :
    ∃ ps, pageAllocInit bytes kernelStart kernelEnd (some boot) = some ps ∧ ∀ q, ps.free q = true ↔
      boot.memoryMapAddr ≠ 0 ∧ 256 ≤ q ∧ ¬Touches kernelStart kernelEnd q ∧ Usable bytes boot 0 q := by
  have hbelow : ∀ off, Walked bytes boot 0 off → off < 2 ^ 32 - 4 := fun off hw => by
    have hle := hw.le (Nat.zero_le _)
    omega
  have hword : boot.memoryMapLength < 2 ^ 32 := by omega
  obtain ⟨ps, hps⟩ : ∃ ps, pageAllocInit bytes kernelStart kernelEnd (some boot) = some ps := by
    unfold pageAllocInit
    simp only
    split_ifs
    · exact ⟨_, rfl⟩
    · obtain ⟨ps, hps⟩ := Option.isSome_iff_exists.mp
        (mapLoop_ends (n := 2 ^ 32) hword (by omega) (Nat.zero_le _) hbelow ⟨fun _ => 0, 0⟩)
      exact ⟨_, by rw [hps]; rfl⟩
  refine ⟨ps, hps, fun q => ?_⟩
  rw [pageAllocInit_frees hk hend hps]
  constructor
  · rintro ⟨hlow, hkernel, b, hb, off, hv, hsome, hprov⟩
    cases hb
    have hwalk := hv.walked hword hbelow
    obtain ⟨haddr, -⟩ := (visited_iff.mp hv).1
    rcases mapNext_eq hword (hbelow off hwalk) with ⟨hin, -⟩ | ⟨-, hstop⟩
    · exact ⟨haddr, hlow, hkernel, off, hwalk, hin, hprov⟩
    · rw [hstop] at hsome
      cases hsome
  · rintro ⟨haddr, hlow, hkernel, off, hwalk, hin, hprov⟩
    have hroom := hin.2
    refine ⟨hlow, hkernel, boot, rfl, off, hwalk.visited hword ⟨haddr, by omega⟩, ?_, hprov⟩
    rcases mapNext_eq hword (hbelow off hwalk) with ⟨-, hgo⟩ | ⟨hout, -⟩
    · rw [hgo]
      rfl
    · exact absurd hin hout

/-- The one entry of the small map has 37 pages from 1 MiB on; the kernel has the first. -/
theorem pageAllocInit_exact_small : ∃ ps, bootPages = some ps ∧ ps.free 257 = true ∧ ps.free 256 = false := by
  obtain ⟨ps, hps, hfree⟩ :=
    pageAllocInit_exact bootMap ⟨0x500, 24⟩ (by decide) (show 0x100000 < 0x101000 by decide) (by decide)
  have hsize : entrySize bootMap ⟨0x500, 24⟩ 0 = 20 := by decide
  have huse : Usable bootMap ⟨0x500, 24⟩ 0 257 := by
    refine ⟨0, .start, ?_, ?_⟩
    · unfold EntryInside
      rw [hsize]
      decide
    · unfold Provides
      decide
  refine ⟨ps, hps, (hfree 257).mpr ⟨by decide, by decide, ?_, huse⟩, ?_⟩
  · rw [touches_iff (by decide)]
    decide
  · rw [Bool.eq_false_iff]
    intro h256
    refine ((hfree 256).mp h256).2.2.1 ?_
    rw [touches_iff (by decide)]
    decide

section

variable (bytes : ℕ → UInt8) (boot : BootInfo)

/-- The offsets of the bytes that the turn at `offset` reads: the size, of an entry whose size is accepted the
type, and of an available one the base and the length. -/
def mapReads (offset : ℕ) : List ℕ :=
  if u32 (offset + 4) ≤ boot.memoryMapLength then
    List.range' offset 4 ++
      if (mapNext bytes boot offset).isSome then
        List.range' (offset + 20) 4 ++
          if entryType bytes boot offset = multibootMemoryAvailable then
            List.range' (offset + 4) 8 ++ List.range' (offset + 12) 8
          else []
      else []
  else []

/-- The loop ends, `Offset` grows from turn to turn, and only bytes of the map are read. -/
structure WalkInside : Prop where
  ends : HasMap boot → ∃ n, ∀ ps, (mapLoop bytes boot n 0 ps).isSome
  increases : ∀ {offset offset'}, Visited bytes boot offset → mapNext bytes boot offset = some offset' → offset < offset'
  inside : ∀ {offset}, Visited bytes boot offset → ∀ i ∈ mapReads bytes boot offset, i < boot.memoryMapLength

end

theorem mem_mapReads {i : ℕ} : i ∈ mapReads bytes boot offset ↔ u32 (offset + 4) ≤ boot.memoryMapLength ∧
    (offset ≤ i ∧ i < offset + 4 ∨ (mapNext bytes boot offset).isSome ∧ (offset + 20 ≤ i ∧ i < offset + 24 ∨
      entryType bytes boot offset = multibootMemoryAvailable ∧ offset + 4 ≤ i ∧ i < offset + 20)) := by
  unfold mapReads
  split_ifs with hguard hsome htype
  · simp only [List.mem_append, List.mem_range'_1, hguard, hsome, htype, true_and]
    omega
  · simp [List.mem_range'_1, hguard, hsome, htype]
  · simp [List.mem_range'_1, hguard, hsome]
  · simp [hguard]

/-- The bytes of the map from `offset` on are the same in both memories. -/
def Agree (boot : BootInfo) (bytes bytes' : ℕ → UInt8) (offset k : ℕ) : Prop :=
  ∀ i ∈ List.range' offset k, bytes (u32 (boot.memoryMapAddr + i)) = bytes' (u32 (boot.memoryMapAddr + i))

theorem Agree.read32 {bytes' : ℕ → UInt8} (h : Agree boot bytes bytes' offset 4) :
    read32 bytes (u32 (boot.memoryMapAddr + offset)) = read32 bytes' (u32 (boot.memoryMapAddr + offset)) := by
  have hbyte : ∀ j < 4, bytes (u32 (boot.memoryMapAddr + offset + j)) = bytes' (u32 (boot.memoryMapAddr + offset + j)) := by
    intro j hj
    rw [Nat.add_assoc]
    exact h (offset + j) (List.mem_range'_1.mpr (by omega))
  unfold Mm.read32
  rw [u32_add, u32_add, u32_add, h offset (List.mem_range'_1.mpr (by omega)), hbyte 1 (by decide),
    hbyte 2 (by decide), hbyte 3 (by decide)]

theorem Agree.read64 {bytes' : ℕ → UInt8} (h : Agree boot bytes bytes' offset 8) :
    read64 bytes (u32 (boot.memoryMapAddr + offset)) = read64 bytes' (u32 (boot.memoryMapAddr + offset)) := by
  have hlo : Agree boot bytes bytes' offset 4 := fun i hi => h i (by rw [List.mem_range'_1] at hi ⊢; omega)
  have hhi : Agree boot bytes bytes' (offset + 4) 4 := fun i hi => h i (by rw [List.mem_range'_1] at hi ⊢; omega)
  unfold Mm.read64
  rw [u32_add, Nat.add_assoc, hlo.read32, hhi.read32]

/-- A turn depends on no byte but those it reads. -/
theorem turn_congr {bytes' : ℕ → UInt8} (ps : Pages) (h : ∀ i ∈ mapReads bytes boot offset,
      bytes (u32 (boot.memoryMapAddr + i)) = bytes' (u32 (boot.memoryMapAddr + i))) :
    mapNext bytes boot offset = mapNext bytes' boot offset ∧ ((mapNext bytes boot offset).isSome →
      mapMark bytes boot offset ps = mapMark bytes' boot offset ps) := by
  by_cases hguard : u32 (offset + 4) ≤ boot.memoryMapLength
  · have hread : ∀ k w, (∀ i ∈ List.range' (offset + k) w, i ∈ mapReads bytes boot offset) →
        Agree boot bytes bytes' (offset + k) w := fun k w hsub i hi => h i (hsub i hi)
    simp only [mem_mapReads, List.mem_range'_1] at hread
    have hsize : entrySize bytes boot offset = entrySize bytes' boot offset :=
      (hread 0 4 fun i hi => ⟨hguard, by omega⟩).read32
    refine ⟨by unfold mapNext; rw [hsize], fun hsome => ?_⟩
    have htype : entryType bytes boot offset = entryType bytes' boot offset := by
      unfold entryType
      rw [u32_add, Nat.add_assoc]
      exact (hread 20 4 fun i hi => ⟨hguard, .inr ⟨hsome, .inl hi⟩⟩).read32
    unfold mapMark
    rw [← htype]
    split_ifs with hav
    · have hbase : entryBase bytes boot offset = entryBase bytes' boot offset := by
        unfold entryBase
        rw [u32_add, Nat.add_assoc]
        exact (hread 4 8 fun i hi => ⟨hguard, .inr ⟨hsome, .inr ⟨hav, by omega⟩⟩⟩).read64
      have hlength : entryLength bytes boot offset = entryLength bytes' boot offset := by
        unfold entryLength
        rw [u32_add, Nat.add_assoc]
        exact (hread 12 8 fun i hi => ⟨hguard, .inr ⟨hsome, .inr ⟨hav, by omega⟩⟩⟩).read64
      rw [hbase, hlength]
    · rfl
  · unfold mapNext
    rw [if_neg hguard, if_neg hguard]
    exact ⟨rfl, fun hsome => absurd hsome (by decide)⟩

/-- The loop keeps to the map unless the walk comes to the last four bytes of the address space: there `Offset + 4`
wraps around and passes the guard. -/
theorem walk_inside_iff (bytes : ℕ → UInt8) (boot : BootInfo) (hlen : boot.memoryMapLength < 2 ^ 32) :
    WalkInside bytes boot ↔ boot.memoryMapAddr = 0 ∨ ∀ offset, Walked bytes boot 0 offset → offset < 2 ^ 32 - 4 := by
  constructor
  · intro h
    by_contra hno
    push Not at hno
    obtain ⟨haddr, off, hwalk, htop⟩ := hno
    have hle := hwalk.le (Nat.zero_le _)
    have hread : off + 3 ∈ mapReads bytes boot off := by
      have hguard : u32 (off + 4) ≤ boot.memoryMapLength := by
        unfold u32
        omega
      exact mem_mapReads.mpr ⟨hguard, .inl (by omega)⟩
    have hin := h.inside (hwalk.visited hlen ⟨haddr, by omega⟩) _ hread
    omega
  · rintro (hnone | hbelow)
    · have hno : ∀ off, ¬Visited bytes boot off := by
        intro off hv
        induction hv with
        | first hmap => exact hmap.1 hnone
        | next _ _ ih => exact ih
      exact ⟨fun hmap => absurd hnone hmap.1, fun hv => absurd hv (hno _), fun hv => absurd hv (hno _)⟩
    · refine ⟨fun _ => ⟨2 ^ 32, fun ps => ?_⟩, fun hv hnext => ?_, fun {off} hv i hi => ?_⟩
      · exact mapLoop_ends hlen (by omega) (Nat.zero_le _) hbelow ps
      · rcases mapNext_eq hlen (hbelow _ (hv.walked hlen hbelow)) with ⟨-, hgo⟩ | ⟨-, hstop⟩
        · rw [hgo] at hnext
          cases hnext
          omega
        · rw [hstop] at hnext
          cases hnext
      · have htop := hbelow _ (hv.walked hlen hbelow)
        obtain ⟨hguard, hi⟩ := mem_mapReads.mp hi
        rw [u32_of_lt (by omega)] at hguard
        rcases mapNext_eq hlen htop with ⟨⟨hsize, hroom⟩, -⟩ | ⟨-, hstop⟩
        · omega
        · rw [hstop] at hi
          rcases hi with hi | ⟨hsome, -⟩
          · omega
          · cases hsome

theorem walk_inside_small : WalkInside bootMap ⟨0x500, 24⟩ := by
  refine (walk_inside_iff bootMap ⟨0x500, 24⟩ (by decide)).mpr (Or.inr fun offset hw => ?_)
  have hle : offset ≤ 24 := hw.le (Nat.zero_le _)
  omega

/-- A map that ends just below the end of the address space. Its first entry takes all of it; the four bytes that the
next turn takes for a size bring `Offset` back to where it is. -/
def endlessMap (a : ℕ) : UInt8 :=
  match a with
  | 0x4fc => 0xfc
  | 0x500 => 0xf8
  | 0x4fd | 0x4fe | 0x4ff | 0x501 | 0x502 | 0x503 => 0xff
  | _ => 0

theorem walk_endless : ¬WalkInside endlessMap ⟨0x500, 0xfffffffc⟩ ∧
    ∀ n ps, mapLoop endlessMap ⟨0x500, 0xfffffffc⟩ n 0 ps = none := by
  have hfirst : mapNext endlessMap ⟨0x500, 0xfffffffc⟩ 0 = some 0xfffffffc := by decide
  have hstays : mapNext endlessMap ⟨0x500, 0xfffffffc⟩ 0xfffffffc = some 0xfffffffc := by decide
  have hloop : ∀ n ps, mapLoop endlessMap ⟨0x500, 0xfffffffc⟩ n 0xfffffffc ps = none := by
    intro n
    induction n with
    | zero => exact fun ps => rfl
    | succ n ih =>
      intro ps
      rw [mapLoop_some hstays]
      exact ih _
  refine ⟨fun h => ?_, fun n ps => ?_⟩
  · have hgrows := h.increases (.next (.first (by unfold HasMap; decide)) hfirst) hstays
    omega
  · cases n with
    | zero => rfl
    | succ n =>
      rw [mapLoop_some hfirst]
      exact hloop n _

end Novium.Mm
