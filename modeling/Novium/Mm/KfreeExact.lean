import Novium.Lib.Gaps
import Novium.Mm.WellFormed

/-! What `kfree` leaves behind, block by block. Of the heap after the call it is enough to
know that it is well formed, that the live blocks are the old ones without the one that was
freed, and that these were not written to: the free blocks are the gaps between them. -/

namespace Novium.Mm

open Novium.Lib

/-- Where the block `c` and its free neighbours start. -/
def runStart (s : Heap) (c : ℕ) : ℕ := c - freeBefore s c

def runEnd (s : Heap) (c : ℕ) : ℕ := c + s.size c + freeAfter s c

def runSize (s : Heap) (c : ℕ) : ℕ := freeBefore s c + s.size c + freeAfter s c

/-- `d` comes right after that run in the segment of `c`. -/
def Follows (s : Heap) (blocks : Segment → List ℕ) (c d : ℕ) : Prop :=
  ∃ sg ∈ s.segments, c ∈ blocks sg ∧ d ∈ blocks sg ∧ d = runEnd s c

/-- The run has at most 64 KiB or ends its segment. -/
def RunStays (s : Heap) (blocks : Segment → List ℕ) (c : ℕ) : Prop :=
  runSize s c ≤ 64 * 1024 ∨ ∃ sg ∈ s.segments, c ∈ blocks sg ∧ runEnd s c = sg.stop

section

variable {s : Heap} {fl : List ℕ} {blocks : Segment → List ℕ} {sg : Segment} {c d x w : ℕ}

theorem Row.magic {a p e : ℕ} {l : List ℕ} (h : Row s a p l e) (hx : x ∈ l) : s.magic x = heapMagic := by
  induction l generalizing a p with
  | nil => cases hx
  | cons b l ih =>
    obtain ⟨-, h2, -, -, -, hr⟩ := h
    rcases List.mem_cons.mp hx with rfl | hx
    · exact h2
    · exact ih hr hx

theorem Row.fills {a p e : ℕ} {l : List ℕ} (h : Row s a p l e) : Fills s.size a l e := by
  induction l generalizing a p with
  | nil => exact h
  | cons b l ih =>
    obtain ⟨h1, -, -, h4, -, hr⟩ := h
    exact ⟨h1, by omega, ih hr⟩

theorem Row.prevSize {a p e : ℕ} {l : List ℕ} (h : Row s a p l e) (hx : x ∈ l) :
    x = a ∧ s.prevSize x = p ∨ ∃ d ∈ l, d + s.size d = x ∧ s.prevSize x = s.size d := by
  induction l generalizing a p with
  | nil => cases hx
  | cons b l ih =>
    obtain ⟨rfl, -, -, -, h5, hr⟩ := h
    rcases List.mem_cons.mp hx with rfl | hx
    · exact Or.inl ⟨rfl, h5⟩
    · right
      rcases ih hr hx with ⟨rfl, hp⟩ | ⟨d, hd, hdx, hp⟩
      · exact ⟨b, by simp, rfl, hp⟩
      · exact ⟨d, List.mem_cons_of_mem b hd, hdx, hp⟩

namespace WellFormed

theorem fills (h : WellFormed s blocks fl) (hsg : sg ∈ s.segments) : Fills s.size sg.base (blocks sg) sg.stop :=
  (h.represents.tiled sg hsg).fills

theorem coalesced (h : WellFormed s blocks fl) (hsg : sg ∈ s.segments) : Coalesced s.isFree (blocks sg) :=
  h.represents.coalesced sg hsg

theorem heapFindSegment (h : WellFormed s blocks fl) (hsg : sg ∈ s.segments) (hc : c ∈ blocks sg) :
    heapFindSegment c s = some sg := by
  obtain ⟨hlo, hpos, hhi⟩ := (h.fills hsg).within hc
  exact h.placed.heapFindSegment hsg hlo (by omega)

theorem magic (h : WellFormed s blocks fl) (hc : IsBlock s blocks c) : s.magic c = heapMagic := by
  obtain ⟨sg, hsg, hc⟩ := hc
  exact (h.represents.tiled sg hsg).magic hc

theorem not_givesBack (h : WellFormed s blocks fl) (hrun : RunStays s blocks c) : ¬GivesBack s c := by
  rintro ⟨hsize, hend⟩
  rcases hrun with hsmall | ⟨sg, hsg, hc, hstop⟩
  · unfold runSize at hsmall
    unfold heapKeepPages heapGrowPages pageSize at hsize
    omega
  · rw [h.heapFindSegment hsg hc] at hend
    unfold runEnd at hstop
    simp only [Option.any_some, decide_eq_true_eq] at hend
    omega

theorem mem_of_within (h : WellFormed s blocks fl) (hsg : sg ∈ s.segments) (hc : IsBlock s blocks c)
    (hlo : sg.base ≤ c) (hhi : c < sg.stop) : c ∈ blocks sg := by
  obtain ⟨sg', hsg', hc'⟩ := hc
  obtain ⟨hlo', hpos', hhi'⟩ := (h.fills hsg').within hc'
  rcases h.placed.apart sg hsg sg' hsg' with rfl | hap
  · exact hc'
  · omega

theorem size_ge (h : WellFormed s blocks fl) (hc : IsBlock s blocks c) : blockSpan ≤ s.size c := by
  obtain ⟨-, -, -, -, hspan, -⟩ := h.within hc
  exact hspan

theorem prevSize (h : WellFormed s blocks fl) (hsg : sg ∈ s.segments) (hx : x ∈ blocks sg) :
    x = sg.base ∧ s.prevSize x = 0 ∨ ∃ d ∈ blocks sg, d + s.size d = x ∧ s.prevSize x = s.size d :=
  (h.represents.tiled sg hsg).prevSize hx

theorem before_cases (h : WellFormed s blocks fl) (hsg : sg ∈ s.segments) (hc : c ∈ blocks sg) :
    freeBefore s c = 0 ∧ (c = sg.base ∨ ∃ d ∈ blocks sg, s.isFree d = false ∧ d + s.size d = c) ∨
      ∃ d ∈ blocks sg, s.isFree d = true ∧ d + s.size d = c ∧ freeBefore s c = s.size d := by
  rcases h.prevSize hsg hc with ⟨hstart, hp⟩ | ⟨d, hd, hdc, hp⟩
  · exact Or.inl ⟨by simp [freeBefore, hp], Or.inl hstart⟩
  · have hspan := h.size_ge ⟨sg, hsg, hd⟩
    have hleft : c - s.prevSize c = d := by omega
    have hne : s.prevSize c ≠ 0 := by
      unfold blockSpan at hspan
      omega
    cases hf : s.isFree d with
    | true => exact Or.inr ⟨d, hd, hf, hdc, by rw [freeBefore, hleft, if_pos ⟨hne, hf⟩, hp]⟩
    | false => exact Or.inl ⟨by simp [freeBefore, hleft, hf], Or.inr ⟨d, hd, hf, hdc⟩⟩

theorem after_cases (h : WellFormed s blocks fl) (hsg : sg ∈ s.segments) (hc : c ∈ blocks sg) :
    freeAfter s c = 0 ∧ (c + s.size c = sg.stop ∨ c + s.size c ∈ blocks sg ∧ s.isFree (c + s.size c) = false) ∨
      c + s.size c ∈ blocks sg ∧ s.isFree (c + s.size c) = true ∧ freeAfter s c = s.size (c + s.size c) := by
  rw [freeAfter, h.heapFindSegment hsg hc]
  simp only [Option.any_some, decide_eq_true_eq]
  rcases (h.fills hsg).next (h.coalesced hsg) hc with hend | ⟨hmem, -⟩
  · exact Or.inl ⟨by rw [if_neg (by omega)], Or.inl hend⟩
  · obtain ⟨-, hpos, hhi⟩ := (h.fills hsg).within hmem
    cases hf : s.isFree (c + s.size c) with
    | true => exact Or.inr ⟨hmem, rfl, by rw [if_pos ⟨by omega, rfl⟩]⟩
    | false => exact Or.inl ⟨by simp, Or.inr ⟨hmem, rfl⟩⟩

theorem runEnd_eq (h : WellFormed s blocks fl) (hsg : sg ∈ s.segments) (hc : c ∈ blocks sg) :
    runStart s c + runSize s c = runEnd s c ∧ runStart s c ≤ c ∧ c + s.size c ≤ runEnd s c := by
  unfold runStart runSize runEnd
  rcases h.before_cases hsg hc with ⟨hb, -⟩ | ⟨d, -, -, hdc, hb⟩
  · omega
  · omega

theorem run_left (h : WellFormed s blocks fl) (hsg : sg ∈ s.segments) (hc : c ∈ blocks sg) :
    runStart s c = sg.base ∨ ∃ d ∈ blocks sg, s.isFree d = false ∧ d + s.size d = runStart s c := by
  unfold runStart
  rcases h.before_cases hsg hc with ⟨hb, hleft⟩ | ⟨d, hd, hf, hdc, hb⟩
  · rw [hb, Nat.sub_zero]
    exact hleft
  · rw [hb, ← hdc, Nat.add_sub_cancel]
    rcases (h.fills hsg).prev (h.coalesced hsg) hd with hstart | ⟨x, hx, hxd, hnot⟩
    · exact Or.inl hstart
    · exact Or.inr ⟨x, hx, by simpa [hf] using hnot, hxd⟩

theorem run_right (h : WellFormed s blocks fl) (hsg : sg ∈ s.segments) (hc : c ∈ blocks sg) :
    runEnd s c = sg.stop ∨ runEnd s c ∈ blocks sg ∧ s.isFree (runEnd s c) = false := by
  unfold runEnd
  rcases h.after_cases hsg hc with ⟨ha, hright⟩ | ⟨hn, hf, ha⟩
  · rw [ha, Nat.add_zero]
    exact hright
  · rw [ha]
    rcases (h.fills hsg).next (h.coalesced hsg) hn with hend | ⟨hmem, hnot⟩
    · exact Or.inl hend
    · exact Or.inr ⟨hmem, by simpa [hf] using hnot⟩

theorem run_blocks (h : WellFormed s blocks fl) (hsg : sg ∈ s.segments) (hc : c ∈ blocks sg) (hd : d ∈ blocks sg)
    (hlo : runStart s c ≤ d) (hhi : d < runEnd s c) :
    d = c ∨ s.isFree d = true ∧
      (d = runStart s c ∧ freeBefore s c ≠ 0 ∨ d = c + s.size c ∧ freeAfter s c ≠ 0) := by
  have hpos := (h.fills hsg).within hd
  have hdc := (h.fills hsg).apart hd hc
  unfold runStart runEnd at *
  rcases Nat.lt_trichotomy d c with hlt | heq | hgt
  · right
    rcases h.before_cases hsg hc with ⟨hb, -⟩ | ⟨x, hx, hf, hxc, hb⟩
    · omega
    · have := (h.fills hsg).apart hd hx
      obtain rfl : d = x := by omega
      exact ⟨hf, Or.inl ⟨by omega, by omega⟩⟩
  · exact Or.inl heq
  · right
    rcases h.after_cases hsg hc with ⟨ha, -⟩ | ⟨hn, hf, ha⟩
    · omega
    · have := (h.fills hsg).apart hd hn
      obtain rfl : d = c + s.size c := by omega
      exact ⟨hf, Or.inr ⟨rfl, by omega⟩⟩

theorem runStart_mem (h : WellFormed s blocks fl) (hsg : sg ∈ s.segments) (hc : c ∈ blocks sg) :
    runStart s c ∈ blocks sg := by
  unfold runStart
  rcases h.before_cases hsg hc with ⟨hb, -⟩ | ⟨d, hd, -, hdc, hb⟩
  · rw [hb]
    exact hc
  · rw [hb, ← hdc, Nat.add_sub_cancel]
    exact hd

/-- The run is the gap that the other live blocks leave for `c`. -/
theorem run_gap (h : WellFormed s blocks fl) (hsg : sg ∈ s.segments) (hc : c ∈ blocks sg) :
    Gap (fun d => (d ∈ blocks sg ∧ s.isFree d = false) ∧ d ≠ c) s.size sg.base sg.stop (runStart s c) (runSize s c) := by
  obtain ⟨hend, hlo, hhi⟩ := h.runEnd_eq hsg hc
  have hcpos := (h.fills hsg).within hc
  refine ⟨by omega, ((h.fills hsg).within (h.runStart_mem hsg hc)).1, ?_, ?_, ?_, ?_⟩
  · rcases h.run_right hsg hc with hstop | ⟨hmem, -⟩
    · omega
    · have := (h.fills hsg).within hmem
      omega
  · rcases h.run_left hsg hc with hstart | ⟨d, hd, hf, hdx⟩
    · exact Or.inl hstart
    · have hdpos := (h.fills hsg).within hd
      exact Or.inr ⟨d, ⟨⟨hd, hf⟩, by omega⟩, hdx⟩
  · rw [hend]
    rcases h.run_right hsg hc with hstop | ⟨hmem, hf⟩
    · exact Or.inl hstop
    · exact Or.inr ⟨⟨hmem, hf⟩, by omega⟩
  · rintro d ⟨⟨hd, hf⟩, hne⟩
    by_contra hin
    rcases h.run_blocks hsg hc hd (by omega) (by omega) with heq | ⟨hfree, -⟩
    · exact hne heq
    · rw [hf] at hfree
      cases hfree

theorem runStart_of_free (h : WellFormed s blocks fl) (hsg : sg ∈ s.segments) (hc : c ∈ blocks sg) (hx : x ∈ blocks sg)
    (hf : s.isFree x = true) (hxc : x + s.size x = c) : runStart s c = x := by
  have hxpos := (h.fills hsg).within hx
  unfold runStart
  rcases h.before_cases hsg hc with ⟨-, hstart | ⟨d, hd, hlive, hdc⟩⟩ | ⟨d, hd, -, hdc, hb⟩
  · omega
  · have := (h.fills hsg).within hd
    have := (h.fills hsg).apart hx hd
    obtain rfl : x = d := by omega
    rw [hf] at hlive
    cases hlive
  · have := (h.fills hsg).within hd
    have := (h.fills hsg).apart hx hd
    omega

theorem runEnd_of_free (h : WellFormed s blocks fl) (hsg : sg ∈ s.segments) (hc : c ∈ blocks sg)
    (hx : c + s.size c ∈ blocks sg) (hf : s.isFree (c + s.size c) = true) : c + s.size c < runEnd s c := by
  have hxpos := (h.fills hsg).within hx
  unfold runEnd
  rcases h.after_cases hsg hc with ⟨-, hend | ⟨-, hlive⟩⟩ | ⟨-, -, ha⟩
  · omega
  · rw [hf] at hlive
    cases hlive
  · omega

theorem prevSize_of_free (h : WellFormed s blocks fl) (hsg : sg ∈ s.segments) (hx : x ∈ blocks sg)
    (hf : s.isFree x = true) :
    x = sg.base ∧ s.prevSize x = 0 ∨
      ∃ d ∈ blocks sg, s.isFree d = false ∧ d + s.size d = x ∧ s.prevSize x = s.size d := by
  rcases h.prevSize hsg hx with hstart | ⟨d, hd, hdx, hp⟩
  · exact Or.inl hstart
  · right
    rcases (h.fills hsg).next (h.coalesced hsg) hd with hend | ⟨-, hnot⟩
    · have := (h.fills hsg).within hx
      omega
    · rw [hdx, hf] at hnot
      exact ⟨d, hd, by simpa using hnot, hdx, hp⟩

theorem mem_segment {s' : Heap} {fl' : List ℕ} {blocks' : Segment → List ℕ} (h : WellFormed s blocks fl)
    (h' : WellFormed s' blocks' fl') (hsg : sg ∈ s.segments) (hsg' : sg ∈ s'.segments) (hd : d ∈ blocks' sg)
    (hblock : IsBlock s blocks d) : d ∈ blocks sg := by
  obtain ⟨hlo, hpos, hhi⟩ := (h'.fills hsg').within hd
  exact h.mem_of_within hsg hblock hlo (by omega)

end WellFormed

end

/-- What is known of the heap `s'` after a `kfree` of the live block `c` that gave no pages back. -/
structure Freed (s s' : Heap) (blocks blocks' : Segment → List ℕ) (fl fl' : List ℕ) (c : ℕ) : Prop where
  wellFormed : WellFormed s' blocks' fl'
  kept : Kept s s'
  writes : FreeWrites s s' fl c
  live : ∀ d, IsLive s' blocks' d ↔ IsLive s blocks d ∧ d ≠ c

theorem kfree_freed {s : Heap} {fl : List ℕ} {blocks : Segment → List ℕ} {c : ℕ} (h : WellFormed s blocks fl)
    (hc : IsLive s blocks c) (hok : ¬GivesBack s c) :
    ∃ s' blocks' fl', kfree (c + metaSize) s = some s' ∧ Freed s s' blocks blocks' fl fl' c := by
  obtain ⟨s', hcall, hk, hw, fl', blocks', hl⟩ := kfree_spec h.laid (pointer_mem_livePointers.mpr hc)
    (by rw [Nat.add_sub_cancel]; exact hok)
  rw [Nat.add_sub_cancel] at hw
  refine ⟨s', blocks', fl', hcall, ⟨hl.represents, hl.placed, ?_⟩, hk, hw, fun d => ?_⟩
  · rw [hk.segments, hk.pages]
    exact h.used
  · have hmem := hl.mem_live (d + metaSize)
    rw [← mem_livePointers, pointer_mem_livePointers, List.mem_filter, pointer_mem_livePointers] at hmem
    rw [← hmem]
    simp

namespace Freed

variable {s s' : Heap} {fl fl' : List ℕ} {blocks blocks' : Segment → List ℕ} {sg : Segment} {c d x w : ℕ}

theorem segment (h : Freed s s' blocks blocks' fl fl' c) (hsg : sg ∈ s.segments) : sg ∈ s'.segments :=
  h.kept.segments ▸ hsg

/-- The other live blocks keep all their words, but for the `PrevSize` after the run. -/
theorem mem (h : Freed s s' blocks blocks' fl fl' c) (hwf : WellFormed s blocks fl) (hc : IsLive s blocks c)
    (hd : IsLive s blocks d) (hne : d ≠ c) {a : ℕ} (hlo : d ≤ a) (hhi : a < d + s.size d)
    (hstamp : a = d + 8 → ¬Follows s blocks c d) : s'.mem a = s.mem a := by
  obtain ⟨⟨sg, hsg, hcs⟩, -⟩ := hc
  refine h.writes.mem a (fun ha seg hseg => ?_) fun x hx => ?_
  · rw [hwf.heapFindSegment hsg hcs] at hseg
    cases hseg
    rcases hwf.run_right hsg hcs with hend | ⟨hmem, -⟩
    · exact Nat.le_of_eq hend.symm
    · have hspan := hwf.size_ge ⟨_, hsg, hmem⟩
      have hde := hwf.apart hd.1 ⟨_, hsg, hmem⟩
      have ha' : a = runEnd s c + 8 := ha
      unfold blockSpan at hspan
      obtain rfl : d = runEnd s c := by omega
      exact absurd ⟨_, hsg, hcs, hmem, rfl⟩ (hstamp ha')
  · have hxb : IsBlock s blocks x := by
      rcases List.mem_cons.mp hx with rfl | hx
      · exact ⟨sg, hsg, hcs⟩
      · exact hwf.block_of_mem hx
    have hxd : d ≠ x := by
      rcases List.mem_cons.mp hx with rfl | hx
      · exact hne
      · exact hwf.live_ne hd hx
    have hspan := hwf.size_ge hxb
    have := (hwf.apart hd.1 hxb).resolve_left hxd
    omega

theorem size_eq (h : Freed s s' blocks blocks' fl fl' c) (hwf : WellFormed s blocks fl) (hc : IsLive s blocks c)
    (hd : IsLive s blocks d) (hne : d ≠ c) : s'.size d = s.size d := by
  have hspan := hwf.size_ge hd.1
  unfold blockSpan at hspan
  exact h.mem hwf hc hd hne (a := d + 4) (by omega) (by omega) (by omega)

theorem taken (h : Freed s s' blocks blocks' fl fl' c) (hwf : WellFormed s blocks fl) (hsg : sg ∈ s.segments) :
    d ∈ blocks' sg ∧ s'.isFree d = false ↔ (d ∈ blocks sg ∧ s.isFree d = false) ∧ d ≠ c := by
  have hsg' := h.segment hsg
  constructor
  · rintro ⟨hd, hf⟩
    obtain ⟨hd', hne⟩ := (h.live d).mp ⟨⟨sg, hsg', hd⟩, hf⟩
    exact ⟨⟨hwf.mem_segment h.wellFormed hsg hsg' hd hd'.1, hd'.2⟩, hne⟩
  · rintro ⟨⟨hd, hf⟩, hne⟩
    obtain ⟨hd', hf'⟩ := (h.live d).mpr ⟨⟨⟨sg, hsg, hd⟩, hf⟩, hne⟩
    exact ⟨h.wellFormed.mem_segment hwf hsg' hsg hd hd', hf'⟩

theorem live_rest {cs : List ℕ} (h : Freed s s' blocks blocks' fl fl' c) (hlive : ∀ d ∈ c :: cs, IsLive s blocks d)
    (hc : c ∉ cs) : ∀ d ∈ cs, IsLive s' blocks' d := by
  intro d hd
  refine (h.live d).mpr ⟨hlive d (List.mem_cons_of_mem c hd), ?_⟩
  rintro rfl
  exact hc hd

/-- The run is a gap between the live blocks that are left, so it is one free block. -/
theorem run (h : Freed s s' blocks blocks' fl fl' c) (hwf : WellFormed s blocks fl) (hc : IsLive s blocks c)
    (hsg : sg ∈ s.segments) (hcs : c ∈ blocks sg) :
    runStart s c ∈ blocks' sg ∧ s'.isFree (runStart s c) = true ∧ s'.size (runStart s c) = runSize s c := by
  have hsg' := h.segment hsg
  refine ((h.wellFormed.fills hsg').free_iff_gap (h.wellFormed.coalesced hsg')).mpr
    ((hwf.run_gap hsg hcs).congr (fun d hd _ => ?_) (h.taken hwf hsg).mpr fun d hd hnot => ?_)
  · exact ⟨(h.taken hwf hsg).mpr hd, h.size_eq hwf hc ⟨⟨sg, hsg, hd.1.1⟩, hd.1.2⟩ hd.2⟩
  · exact absurd ((h.taken hwf hsg).mp hd) hnot

theorem free_iff (h : Freed s s' blocks blocks' fl fl' c) (hwf : WellFormed s blocks fl) (hc : IsLive s blocks c)
    (hsg : sg ∈ s.segments) (hout : x + w ≤ runStart s c ∨ runEnd s c ≤ x) :
    (x ∈ blocks' sg ∧ s'.isFree x = true ∧ s'.size x = w) ↔ x ∈ blocks sg ∧ s.isFree x = true ∧ s.size x = w := by
  have hsg' := h.segment hsg
  have hwithin : runStart s c ≤ c ∧ c < runEnd s c := by
    obtain ⟨⟨sg', hsg', hcs⟩, -⟩ := hc
    obtain ⟨-, hlo, hhi⟩ := hwf.runEnd_eq hsg' hcs
    have := (hwf.fills hsg').within hcs
    omega
  have hsize : ∀ d, (d ∈ blocks sg ∧ s.isFree d = false) ∧ d ≠ c → s'.size d = s.size d := fun d hd =>
    h.size_eq hwf hc ⟨⟨sg, hsg, hd.1.1⟩, hd.1.2⟩ hd.2
  constructor
  · intro hx
    have hg := ((h.wellFormed.fills hsg').free_iff_gap (h.wellFormed.coalesced hsg')).mp hx
    refine ((hwf.fills hsg).free_iff_gap (hwf.coalesced hsg)).mpr (hg.congr (fun d hd _ => ?_) (fun hd => ?_) ?_)
    · have hd' := (h.taken hwf hsg).mp hd
      exact ⟨hd'.1, (hsize d hd').symm⟩
    · exact ((h.taken hwf hsg).mp hd).1
    · intro d hd hnot
      obtain rfl : d = c := by
        by_contra hne
        exact hnot ((h.taken hwf hsg).mpr ⟨hd, hne⟩)
      omega
  · rintro ⟨hx, hf, rfl⟩
    have hg := ((hwf.fills hsg).free_iff_gap (hwf.coalesced hsg)).mp ⟨hx, hf, rfl⟩
    have hpos := hg.pos
    refine ((h.wellFormed.fills hsg').free_iff_gap (h.wellFormed.coalesced hsg')).mpr
      (hg.congr (fun d hd hdx => ?_) (fun hd => ?_) fun d hd hnot => ?_)
    · -- a free block behind `c` would be in the run
      have hne : d ≠ c := by
        rintro rfl
        have := hwf.runEnd_of_free hsg hd.1 (hdx ▸ hx) (hdx ▸ hf)
        omega
      exact ⟨(h.taken hwf hsg).mpr ⟨hd, hne⟩, hsize d ⟨hd, hne⟩⟩
    · refine (h.taken hwf hsg).mpr ⟨hd, fun hxc => ?_⟩
      rw [hxc] at hd
      have := hwf.runStart_of_free hsg hd.1 hx hf hxc
      omega
    · exact absurd ((h.taken hwf hsg).mp hd).1 hnot

theorem mem_list (h : Freed s s' blocks blocks' fl fl' c) (hwf : WellFormed s blocks fl) (hc : IsLive s blocks c) :
    x ∈ fl' ↔ x = runStart s c ∨ x ∈ fl ∧ (x < runStart s c ∨ runEnd s c ≤ x) := by
  obtain ⟨sgc, hsgc, hcs⟩ := hc.1
  obtain ⟨hend, hlo, hhi⟩ := hwf.runEnd_eq hsgc hcs
  obtain ⟨hrun, hfree, hz⟩ := h.run hwf hc hsgc hcs
  have hcpos := (hwf.fills hsgc).within hcs
  rw [h.wellFormed.represents.mem_list, hwf.represents.mem_list]
  constructor
  · rintro ⟨⟨sg, hsg, hx⟩, hf⟩
    have hx' : IsBlock s' blocks' x := ⟨sg, hsg, hx⟩
    rw [h.kept.segments] at hsg
    rcases h.wellFormed.apart hx' ⟨sgc, h.segment hsgc, hrun⟩ with heq | hout
    · exact Or.inl heq
    · rw [hz, hend] at hout
      obtain ⟨hx, hf, hz'⟩ := (h.free_iff hwf hc hsg hout).mp ⟨hx, hf, rfl⟩
      have := (hwf.fills hsg).within hx
      exact Or.inr ⟨⟨⟨sg, hsg, hx⟩, hf⟩, by omega⟩
  · rintro (rfl | ⟨⟨⟨sg, hsg, hx⟩, hf⟩, hout⟩)
    · exact ⟨⟨sgc, h.segment hsgc, hrun⟩, hfree⟩
    · have hxr := hwf.apart ⟨sg, hsg, hx⟩ ⟨sgc, hsgc, hwf.runStart_mem hsgc hcs⟩
      obtain ⟨hx', hf', -⟩ := (h.free_iff hwf hc hsg (w := s.size x) (by omega)).mpr ⟨hx, hf, rfl⟩
      exact ⟨⟨sg, h.segment hsg, hx'⟩, hf'⟩

theorem other_free (h : Freed s s' blocks blocks' fl fl' c) (hwf : WellFormed s blocks fl) (hc : IsLive s blocks c)
    (hx : x ∈ fl) (hout : x < runStart s c ∨ runEnd s c ≤ x) :
    s'.size x = s.size x ∧ s'.prevSize x = s.prevSize x := by
  obtain ⟨⟨sg, hsg, hxs⟩, hf⟩ := (hwf.represents.mem_list x).mp hx
  obtain ⟨sgc, hsgc, hcs⟩ := hc.1
  have hsg' := h.segment hsg
  have hxr := hwf.apart ⟨sg, hsg, hxs⟩ ⟨sgc, hsgc, hwf.runStart_mem hsgc hcs⟩
  have hend := hwf.runEnd_eq hsgc hcs
  have hcpos := (hwf.fills hsgc).within hcs
  obtain ⟨hxs', hf', hz⟩ := (h.free_iff hwf hc hsg (w := s.size x) (by omega)).mpr ⟨hxs, hf, rfl⟩
  refine ⟨hz, ?_⟩
  rcases hwf.prevSize_of_free hsg hxs hf with ⟨hstart, hp⟩ | ⟨d, hd, hlive, hdx, hp⟩
  · rcases h.wellFormed.prevSize_of_free hsg' hxs' hf' with ⟨-, hp'⟩ | ⟨d', hd', -, hdx', -⟩
    · rw [hp, hp']
    · have := (h.wellFormed.fills hsg').within hd'
      omega
  · rcases h.wellFormed.prevSize_of_free hsg' hxs' hf' with ⟨hstart, -⟩ | ⟨d', hd', hlive', hdx', hp'⟩
    · have := (hwf.fills hsg).within hd
      omega
    · -- the live block before `x` is the same one
      obtain ⟨hold, hne⟩ := (h.taken hwf hsg).mp ⟨hd', hlive'⟩
      have hz' := h.size_eq hwf hc ⟨⟨sg, hsg, hold.1⟩, hold.2⟩ hne
      have := (hwf.fills hsg).within hd
      have := (hwf.fills hsg).within hold.1
      have := (hwf.fills hsg).apart hd hold.1
      omega

theorem prevSize_after (h : Freed s s' blocks blocks' fl fl' c) (hwf : WellFormed s blocks fl) (hc : IsLive s blocks c)
    (hd : Follows s blocks c d) : s'.prevSize d = runSize s c := by
  obtain ⟨sg, hsg, hcs, hds, rfl⟩ := hd
  have hsg' := h.segment hsg
  obtain ⟨hend, hlo, hhi⟩ := hwf.runEnd_eq hsg hcs
  have hcpos := (hwf.fills hsg).within hcs
  obtain ⟨hrun, -, hz⟩ := h.run hwf hc hsg hcs
  have hmem : runEnd s c ∈ blocks' sg := by
    rcases hwf.run_right hsg hcs with hstop | ⟨hmem, hf⟩
    · have := (hwf.fills hsg).within hds
      omega
    · exact ((h.taken hwf hsg).mpr ⟨⟨hmem, hf⟩, by omega⟩).1
  rcases h.wellFormed.prevSize hsg' hmem with ⟨hstart, -⟩ | ⟨d, hd, hdx, hp⟩
  · omega
  · have := (h.wellFormed.fills hsg').within hd
    have := (h.wellFormed.fills hsg').apart hd hrun
    omega

end Freed

/-- `s'` is the heap `s` with the live block `c` and its free neighbours joined to one free block. -/
structure Coalesces (s s' : Heap) (blocks blocks' : Segment → List ℕ) (fl fl' : List ℕ) (c : ℕ) : Prop where
  wellFormed : WellFormed s' blocks' fl'
  live : ∀ d, IsLive s' blocks' d ↔ IsLive s blocks d ∧ d ≠ c
  header : ∀ d, IsLive s blocks d → d ≠ c → s'.magic d = s.magic d ∧ s'.size d = s.size d ∧
    s'.isFree d = s.isFree d ∧ (¬Follows s blocks c d → s'.prevSize d = s.prevSize d)
  payload : ∀ d, IsLive s blocks d → d ≠ c → ∀ a, d + metaSize ≤ a → a < d + s.size d → s'.mem a = s.mem a
  run : IsBlock s' blocks' (runStart s c) ∧ s'.isFree (runStart s c) = true ∧ s'.size (runStart s c) = runSize s c
  others : ∀ x ∈ fl, x < runStart s c ∨ runEnd s c ≤ x → s'.magic x = s.magic x ∧ s'.size x = s.size x ∧
    s'.isFree x = s.isFree x ∧ s'.prevSize x = s.prevSize x
  after : ∀ d, Follows s blocks c d → s'.prevSize d = runSize s c
  list : ∀ x, x ∈ fl' ↔ x = runStart s c ∨ x ∈ fl ∧ (x < runStart s c ∨ runEnd s c ≤ x)
  segments : s'.segments = s.segments
  pages : s'.pages = s.pages

theorem Freed.coalesces {s s' : Heap} {fl fl' : List ℕ} {blocks blocks' : Segment → List ℕ} {c : ℕ}
    (h : Freed s s' blocks blocks' fl fl' c) (hwf : WellFormed s blocks fl) (hc : IsLive s blocks c) :
    Coalesces s s' blocks blocks' fl fl' c := by
  have hword : ∀ d, IsLive s blocks d → d ≠ c → ∀ k < blockSpan, (k = 8 → ¬Follows s blocks c d) →
      s'.fld d k = s.fld d k := by
    intro d hd hne k hk hstamp
    have hspan := hwf.size_ge hd.1
    exact h.mem hwf hc hd hne (by omega) (by omega) fun ha => hstamp (by omega)
  refine ⟨h.wellFormed, h.live, fun d hd hne => ⟨?_, ?_, ?_, fun hnot => ?_⟩, fun d hd hne a hlo hhi => ?_, ?_,
    fun x hx hout => ⟨?_, ?_, ?_, ?_⟩, fun d => h.prevSize_after hwf hc, fun x => h.mem_list hwf hc,
    h.kept.segments, h.kept.pages⟩
  · exact hword d hd hne 0 (by decide) (by simp)
  · exact hword d hd hne 4 (by decide) (by simp)
  · rw [Heap.isFree, hword d hd hne 12 (by decide) (by simp)]
    rfl
  · exact hword d hd hne 8 (by decide) fun _ => hnot
  · unfold metaSize at hlo
    exact h.mem hwf hc hd hne (by omega) hhi (by omega)
  · obtain ⟨sg, hsg, hcs⟩ := hc.1
    obtain ⟨h1, h2, h3⟩ := h.run hwf hc hsg hcs
    exact ⟨⟨sg, h.segment hsg, h1⟩, h2, h3⟩
  · have hx' := (h.mem_list hwf hc).mpr (Or.inr ⟨hx, hout⟩)
    rw [hwf.magic (hwf.block_of_mem hx), h.wellFormed.magic (h.wellFormed.block_of_mem hx')]
  · exact (h.other_free hwf hc hx hout).1
  · have hx' := (h.mem_list hwf hc).mpr (Or.inr ⟨hx, hout⟩)
    rw [((hwf.represents.mem_list x).mp hx).2, ((h.wellFormed.represents.mem_list x).mp hx').2]
  · exact (h.other_free hwf hc hx hout).2

/-- `kfree` of a live block of a well-formed heap, when its run has at most 64 KiB or ends its segment. -/
theorem kfree_coalesces {s : Heap} {fl : List ℕ} {blocks : Segment → List ℕ} {c : ℕ} (h : WellFormed s blocks fl)
    (hc : IsLive s blocks c) (hrun : RunStays s blocks c) :
    ∃ s' blocks' fl', kfree (c + metaSize) s = some s' ∧ Coalesces s s' blocks blocks' fl fl' c := by
  obtain ⟨s', blocks', fl', hcall, hf⟩ := kfree_freed h hc (h.not_givesBack hrun)
  exact ⟨s', blocks', fl', hcall, hf.coalesces h hc⟩

/-- The second of three blocks is freed after the first: 120 and 216 bytes are joined, and the third block
learns of it. -/
theorem kfree_coalesces_second :
    ∃ s blocks fl, WellFormed s blocks fl ∧ IsLive s blocks 0x101078 ∧ RunStays s blocks 0x101078 ∧
      runStart s 0x101078 = 0x101000 ∧ runSize s 0x101078 = 336 ∧
      ∃ s' blocks' fl', kfree 0x101088 s = some s' ∧ Coalesces s s' blocks blocks' fl fl' 0x101078 := by
  obtain ⟨w, -, hw, hp⟩ := System.exists_reachableIf Sound bootWorld_init
    [.heapInit, .kmalloc 100, .kmalloc 200, .kmalloc 300, .kfree 0x101010]
    (fun w => 0x101088 ∈ w.live ∧ runStart w.heap 0x101078 = 0x101000 ∧ runSize w.heap 0x101078 = 336)
    (by decide +kernel)
  obtain ⟨hlive, hstart, hsize⟩ := of_decide_eq_true hp
  obtain ⟨blocks, fl, hwf, hiff⟩ := reachable_wellFormed hw
  have hc := (hiff 0x101078).mp hlive
  have hrun : RunStays w.heap blocks 0x101078 := Or.inl (by rw [hsize]; decide)
  exact ⟨w.heap, blocks, fl, hwf, hc, hrun, hstart, hsize, kfree_coalesces hwf hc hrun⟩

end Novium.Mm
