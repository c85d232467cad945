import Mathlib.Data.List.Perm.Lattice
import Novium.Mm.KfreeExact

/-! Several calls of `kfree`. A well-formed heap is determined by its segments and its live
blocks, so that the order of the calls does not matter; and what was freed once stays freed,
on its own or inside a larger block. -/

namespace Novium.Mm

open Novium.Lib

/-- `s'` has the blocks of `s`, with the same headers, and the same free list. -/
structure SameLayout (s s' : Heap) (blocks : Segment → List ℕ) (fl : List ℕ) : Prop where
  wellFormed : WellFormed s' blocks fl
  segments : s'.segments = s.segments
  header : ∀ d, IsBlock s blocks d → s'.magic d = s.magic d ∧ s'.size d = s.size d ∧ s'.prevSize d = s.prevSize d ∧
    s'.isFree d = s.isFree d

theorem eq_of_increasing {l l' : List ℕ} (h : l.Pairwise (· < ·)) (h' : l'.Pairwise (· < ·))
    (hmem : ∀ x, x ∈ l ↔ x ∈ l') : l = l' := by
  have hperm : l.Perm l' := (List.perm_ext_iff_of_nodup (h.imp Nat.ne_of_lt) (h'.imp Nat.ne_of_lt)).mpr hmem
  exact hperm.eq_of_pairwise (fun a b _ _ hab hba => absurd hab (Nat.lt_asymm hba)) h h'

section

variable {s s' : Heap} {fl fl' : List ℕ} {blocks blocks' : Segment → List ℕ}

theorem WellFormed.prevSize_eq (h : WellFormed s blocks fl) (h' : WellFormed s' blocks fl') {sg : Segment}
    (hsg : sg ∈ s.segments) (hsg' : sg ∈ s'.segments) (hsize : ∀ d ∈ blocks sg, s'.size d = s.size d) {x : ℕ}
    (hx : x ∈ blocks sg) : s'.prevSize x = s.prevSize x := by
  rcases h.prevSize hsg hx with ⟨hstart, hp⟩ | ⟨d, hd, hdx, hp⟩
  · rcases h'.prevSize hsg' hx with ⟨-, hp'⟩ | ⟨d', hd', hdx', -⟩
    · rw [hp, hp']
    · have := (h'.fills hsg').within hd'
      omega
  · have hdpos := (h.fills hsg).within hd
    rcases h'.prevSize hsg' hx with ⟨hstart, -⟩ | ⟨d', hd', hdx', hp'⟩
    · omega
    · have hz := hsize d' hd'
      have := (h.fills hsg).within hd'
      have := (h.fills hsg).apart hd hd'
      omega

/-- Two well-formed heaps with the same segments and the same live blocks have the same layout. -/
theorem WellFormed.sameLayout (h : WellFormed s blocks fl) (h' : WellFormed s' blocks' fl')
    (hsegs : s'.segments = s.segments) (hlive : ∀ d, IsLive s' blocks' d ↔ IsLive s blocks d)
    (hsize : ∀ d, IsLive s blocks d → s'.size d = s.size d) : SameLayout s s' blocks fl := by
  have hsg' : ∀ {sg}, sg ∈ s.segments → sg ∈ s'.segments := fun hsg => hsegs ▸ hsg
  have hrow : ∀ sg ∈ s.segments,
      blocks' sg = blocks sg ∧ ∀ d ∈ blocks sg, s'.size d = s.size d ∧ s'.isFree d = s.isFree d := by
    intro sg hsg
    refine (h.fills hsg).unique (h.coalesced hsg) (h'.fills (hsg' hsg)) (h'.coalesced (hsg' hsg)) (fun d => ?_)
      fun d hd hf => hsize d ⟨⟨sg, hsg, hd⟩, hf⟩
    constructor
    · rintro ⟨hd, hf⟩
      obtain ⟨hd', hf'⟩ := (hlive d).mpr ⟨⟨sg, hsg, hd⟩, hf⟩
      exact ⟨h'.mem_segment h (hsg' hsg) hsg hd hd', hf'⟩
    · rintro ⟨hd, hf⟩
      obtain ⟨hd', hf'⟩ := (hlive d).mp ⟨⟨sg, hsg' hsg, hd⟩, hf⟩
      exact ⟨h.mem_segment h' hsg (hsg' hsg) hd hd', hf'⟩
  have hblock : ∀ d, IsBlock s' blocks' d ↔ IsBlock s blocks d := by
    intro d
    unfold IsBlock
    rw [hsegs]
    exact exists_congr fun sg => and_congr_right fun hsg => by rw [(hrow sg hsg).1]
  have hfl : fl' = fl := by
    refine eq_of_increasing h'.represents.increasing h.represents.increasing fun x => ?_
    rw [h'.represents.mem_list, h.represents.mem_list, hblock]
    refine and_congr_right ?_
    rintro ⟨sg, hsg, hx⟩
    rw [((hrow sg hsg).2 x hx).2]
  have hwf : WellFormed s' blocks fl := by
    obtain ⟨⟨htiled, hcoal, hlinked, hinc, hmem⟩, hplaced, hused⟩ := h'
    refine ⟨⟨fun sg hsg => ?_, fun sg hsg => ?_, hfl ▸ hlinked, hfl ▸ hinc, fun x => ?_⟩, hplaced, hused⟩
    · rw [← (hrow sg (hsegs ▸ hsg)).1]
      exact htiled sg hsg
    · rw [← (hrow sg (hsegs ▸ hsg)).1]
      exact hcoal sg hsg
    · rw [← hfl, hmem, hblock, IsBlock, IsBlock, hsegs]
  refine ⟨hwf, hsegs, ?_⟩
  rintro d ⟨sg, hsg, hd⟩
  obtain ⟨hz, hf⟩ := (hrow sg hsg).2 d hd
  refine ⟨?_, hz, ?_, hf⟩
  · rw [h.magic ⟨sg, hsg, hd⟩, hwf.magic ⟨sg, hsg' hsg, hd⟩]
  · exact h.prevSize_eq hwf hsg (hsg' hsg) (fun c hc => ((hrow sg hsg).2 c hc).1) hd

end

def kfreeAll : List ℕ → Heap → Option Heap
  | [], s => some s
  | c :: cs, s => (kfree (c + metaSize) s).bind (kfreeAll cs)

/-- None of these calls gives pages back. -/
def NoReturns : List ℕ → Heap → Prop
  | [], _ => True
  | c :: cs, s => ¬GivesBack s c ∧ ∀ s' ∈ kfree (c + metaSize) s, NoReturns cs s'

instance decidableNoReturns : (cs : List ℕ) → (s : Heap) → Decidable (NoReturns cs s)
  | [], _ => isTrue trivial
  | c :: cs, s =>
    have := decidableNoReturns cs
    inferInstanceAs (Decidable (¬GivesBack s c ∧ ∀ s' ∈ kfree (c + metaSize) s, NoReturns cs s'))

/-- What is left of the heap `s` when the blocks `cs` are freed. -/
structure Remains (s s' : Heap) (blocks blocks' : Segment → List ℕ) (fl' cs : List ℕ) : Prop where
  wellFormed : WellFormed s' blocks' fl'
  kept : Kept s s'
  live : ∀ d, IsLive s' blocks' d ↔ IsLive s blocks d ∧ d ∉ cs
  size : ∀ d, IsLive s' blocks' d → s'.size d = s.size d

theorem kfreeAll_remains {s : Heap} {fl : List ℕ} {blocks : Segment → List ℕ} {cs : List ℕ} (h : WellFormed s blocks fl)
    (hlive : ∀ c ∈ cs, IsLive s blocks c) (hnd : cs.Nodup) (hok : NoReturns cs s) :
    ∃ s' blocks' fl', kfreeAll cs s = some s' ∧ Remains s s' blocks blocks' fl' cs := by
  induction cs generalizing s fl blocks with
  | nil => exact ⟨s, blocks, fl, rfl, h, ⟨rfl, rfl⟩, by simp, fun _ _ => rfl⟩
  | cons c cs ih =>
    obtain ⟨hgive, hrest⟩ := hok
    obtain ⟨hc, hnd⟩ := List.nodup_cons.mp hnd
    obtain ⟨s₁, blocks₁, fl₁, hcall, hf⟩ := kfree_freed h (hlive c (by simp)) hgive
    obtain ⟨s', blocks', fl', hall, hr⟩ := ih hf.wellFormed (hf.live_rest hlive hc) hnd (hrest s₁ hcall)
    refine ⟨s', blocks', fl', by rw [kfreeAll, hcall, Option.bind_some, hall], hr.wellFormed, hf.kept.trans hr.kept,
      fun d => ?_, fun d hd => ?_⟩
    · rw [hr.live, hf.live, List.mem_cons, not_or, and_assoc]
    · obtain ⟨hd₁, -⟩ := (hr.live d).mp hd
      obtain ⟨hd₀, hne⟩ := (hf.live d).mp hd₁
      rw [hr.size d hd, hf.size_eq h (hlive c (by simp)) hd₀ hne]

/-- The order of the calls does not matter: both orders leave the same blocks, with the same headers, and the
same free list. -/
theorem kfree_order {s : Heap} {fl : List ℕ} {blocks : Segment → List ℕ} {cs cs' : List ℕ} (h : WellFormed s blocks fl)
    (hlive : ∀ c ∈ cs, IsLive s blocks c) (hnd : cs.Nodup) (hperm : cs.Perm cs') (hok : NoReturns cs s)
    (hok' : NoReturns cs' s) :
    ∃ s₁ s₂ blocks' fl', kfreeAll cs s = some s₁ ∧ kfreeAll cs' s = some s₂ ∧ WellFormed s₁ blocks' fl' ∧
      SameLayout s₁ s₂ blocks' fl' := by
  obtain ⟨s₁, blocks₁, fl₁, hall₁, hr₁⟩ := kfreeAll_remains h hlive hnd hok
  obtain ⟨s₂, blocks₂, fl₂, hall₂, hr₂⟩ :=
    kfreeAll_remains h (fun c hc => hlive c (hperm.mem_iff.mpr hc)) (hperm.nodup_iff.mp hnd) hok'
  have hlive₁₂ : ∀ d, IsLive s₂ blocks₂ d ↔ IsLive s₁ blocks₁ d := by
    intro d
    rw [hr₁.live, hr₂.live, hperm.mem_iff]
  refine ⟨s₁, s₂, blocks₁, fl₁, hall₁, hall₂, hr₁.wellFormed, hr₁.wellFormed.sameLayout hr₂.wellFormed ?_ hlive₁₂ ?_⟩
  · rw [hr₂.kept.segments, hr₁.kept.segments]
  · intro d hd
    rw [hr₁.size d hd, hr₂.size d ((hlive₁₂ d).mpr hd)]

/-- Three neighbours, freed from left to right and from the outside in. -/
theorem kfree_order_three :
    ∃ s blocks fl, WellFormed s blocks fl ∧ (∀ c ∈ [0x101000, 0x101078, 0x101150], IsLive s blocks c) ∧
      ∃ s₁ s₂ blocks' fl', kfreeAll [0x101000, 0x101078, 0x101150] s = some s₁ ∧
        kfreeAll [0x101000, 0x101150, 0x101078] s = some s₂ ∧ WellFormed s₁ blocks' fl' ∧
        SameLayout s₁ s₂ blocks' fl' := by
  obtain ⟨w, -, hw, hp⟩ := System.exists_reachableIf Sound bootWorld_init
    [.heapInit, .kmalloc 100, .kmalloc 200, .kmalloc 300, .kmalloc 400]
    (fun w => (0x101010 ∈ w.live ∧ 0x101088 ∈ w.live ∧ 0x101160 ∈ w.live) ∧
      NoReturns [0x101000, 0x101078, 0x101150] w.heap ∧ NoReturns [0x101000, 0x101150, 0x101078] w.heap)
    (by decide +kernel)
  obtain ⟨hlive, hok, hok'⟩ := of_decide_eq_true hp
  obtain ⟨blocks, fl, hwf, hiff⟩ := reachable_wellFormed hw
  have hlive : ∀ c ∈ [0x101000, 0x101078, 0x101150], IsLive w.heap blocks c := by
    simp only [List.mem_cons, List.not_mem_nil, or_false, forall_eq_or_imp, forall_eq]
    exact ⟨(hiff _).mp hlive.1, (hiff _).mp hlive.2.1, (hiff _).mp hlive.2.2⟩
  exact ⟨w.heap, blocks, fl, hwf, hlive, kfree_order hwf hlive (by decide) (by decide) hok hok'⟩

/-- `kfree` of the block `b` does nothing: it is a free block, or no block and without a header. -/
def Spent (s : Heap) (blocks : Segment → List ℕ) (b : ℕ) : Prop :=
  IsBlock s blocks b ∧ s.isFree b = true ∨
    s.magic b ≠ heapMagic ∧ ∀ x, IsBlock s blocks x → b < x ∨ x + blockSpan ≤ b

theorem Spent.kfree {s : Heap} {blocks : Segment → List ℕ} {b : ℕ} (h : Spent s blocks b) (hlt : b < 2 ^ 32) :
    kfree (b + metaSize) s = some s := by
  have hb : sub32 (b + metaSize) metaSize = b := by
    unfold sub32 u32 metaSize
    omega
  unfold Mm.kfree
  rw [hb]
  simp only
  rcases h with ⟨-, hf⟩ | ⟨hm, -⟩
  · rw [if_pos (Or.inr hf)]
  · rw [if_pos (Or.inl hm)]

namespace Freed

variable {s s' : Heap} {fl fl' : List ℕ} {blocks blocks' : Segment → List ℕ} {b c x : ℕ}

theorem block_old (h : Freed s s' blocks blocks' fl fl' c) (hwf : WellFormed s blocks fl) (hc : IsLive s blocks c)
    (hx : IsBlock s' blocks' x) : IsBlock s blocks x ∧ (x ≤ runStart s c ∨ runEnd s c ≤ x) := by
  obtain ⟨sg, hsg, hcs⟩ := hc.1
  cases hf : s'.isFree x with
  | true =>
    have hfl := (h.wellFormed.represents.mem_list x).mpr ⟨hx, hf⟩
    rcases (h.mem_list hwf hc).mp hfl with rfl | ⟨hold, hout⟩
    · exact ⟨⟨sg, hsg, hwf.runStart_mem hsg hcs⟩, Or.inl (Nat.le_refl _)⟩
    · exact ⟨hwf.block_of_mem hold, by omega⟩
  | false =>
    obtain ⟨hrun, hfree, hz⟩ := h.run hwf hc hsg hcs
    have hend := hwf.runEnd_eq hsg hcs
    have := h.wellFormed.apart hx ⟨sg, h.segment hsg, hrun⟩
    have hpos := h.wellFormed.size_ge hx
    unfold blockSpan at hpos
    exact ⟨((h.live x).mp ⟨hx, hf⟩).1.1, by omega⟩

theorem spent_inside (h : Freed s s' blocks blocks' fl fl' c) (hwf : WellFormed s blocks fl) (hc : IsLive s blocks c)
    (hb : IsBlock s blocks b) (hlo : runStart s c < b) (hhi : b < runEnd s c) (hwiped : s'.magic b = 0) :
    Spent s' blocks' b := by
  refine Or.inr ⟨by rw [hwiped]; decide, fun x hx => ?_⟩
  obtain ⟨hold, hout⟩ := h.block_old hwf hc hx
  have hspan := hwf.size_ge hold
  have := (hwf.apart hold hb).resolve_left (by omega)
  have := hwf.size_ge hb
  unfold blockSpan at *
  omega

theorem spent_self (h : Freed s s' blocks blocks' fl fl' c) (hwf : WellFormed s blocks fl) (hc : IsLive s blocks c) :
    Spent s' blocks' c := by
  obtain ⟨sg, hsg, hcs⟩ := hc.1
  obtain ⟨hend, hlo, hhi⟩ := hwf.runEnd_eq hsg hcs
  have hpos := (hwf.fills hsg).within hcs
  by_cases h0 : freeBefore s c = 0
  · obtain ⟨hrun, hfree, -⟩ := h.run hwf hc hsg hcs
    have hstart : runStart s c = c := by rw [runStart, h0, Nat.sub_zero]
    rw [hstart] at hrun hfree
    exact Or.inl ⟨⟨sg, h.segment hsg, hrun⟩, hfree⟩
  · refine h.spent_inside hwf hc hc.1 ?_ (by omega) (h.writes.self h0)
    unfold runStart at *
    rcases hwf.before_cases hsg hcs with ⟨hb, -⟩ | ⟨d, hd, -, hdc, hb⟩
    · exact absurd hb h0
    · have := (hwf.fills hsg).within hd
      omega

theorem spent (h : Freed s s' blocks blocks' fl fl' c) (hwf : WellFormed s blocks fl) (hc : IsLive s blocks c)
    (hb : Spent s blocks b) : Spent s' blocks' b := by
  obtain ⟨sg, hsg, hcs⟩ := hc.1
  obtain ⟨hend, hlo, hhi⟩ := hwf.runEnd_eq hsg hcs
  have hpos := (hwf.fills hsg).within hcs
  rcases hb with ⟨hb, hf⟩ | ⟨hm, hout⟩
  · by_cases hin : runStart s c < b ∧ b < runEnd s c
    · -- `b` is the free block after `c`
      have hbs : b ∈ blocks sg := by
        have hstart := (hwf.fills hsg).within (hwf.runStart_mem hsg hcs)
        refine hwf.mem_of_within hsg hb (by omega) ?_
        rcases hwf.run_right hsg hcs with hstop | ⟨hmem, -⟩
        · omega
        · have := (hwf.fills hsg).within hmem
          omega
      rcases hwf.run_blocks hsg hcs hbs (by omega) hin.2 with rfl | ⟨-, ⟨hbe, -⟩ | ⟨rfl, h0⟩⟩
      · rw [hc.2] at hf
        cases hf
      · omega
      · exact h.spent_inside hwf hc hb hin.1 hin.2 (h.writes.next h0)
    · refine Or.inl ((h.wellFormed.represents.mem_list b).mp ((h.mem_list hwf hc).mpr ?_))
      by_cases hbe : b = runStart s c
      · exact Or.inl hbe
      · exact Or.inr ⟨(hwf.represents.mem_list b).mpr ⟨hb, hf⟩, by omega⟩
  · refine Or.inr ⟨?_, fun x hx => hout x (h.block_old hwf hc hx).1⟩
    have hmem : s'.mem b = s.mem b := by
      refine h.writes.mem b (fun he seg hseg => ?_) fun x hx => ?_
      · -- the stamp is in the header of a block
        rw [hwf.heapFindSegment hsg hcs] at hseg
        cases hseg
        rcases hwf.run_right hsg hcs with hstop | ⟨hmem, -⟩
        · exact Nat.le_of_eq hstop.symm
        · have hb := hout _ ⟨_, hsg, hmem⟩
          have he : b = runEnd s c + 8 := he
          unfold blockSpan at hb
          omega
      · rcases List.mem_cons.mp hx with rfl | hx
        · exact hout x hc.1
        · exact hout x (hwf.block_of_mem hx)
    intro hmagic
    exact hm (hmem.symm.trans hmagic)

end Freed

theorem kfreeAll_spent {s : Heap} {fl : List ℕ} {blocks : Segment → List ℕ} {cs : List ℕ} {b : ℕ}
    (h : WellFormed s blocks fl) (hlive : ∀ c ∈ cs, IsLive s blocks c) (hnd : cs.Nodup) (hok : NoReturns cs s)
    (hb : Spent s blocks b) : ∃ s' blocks', kfreeAll cs s = some s' ∧ Spent s' blocks' b := by
  induction cs generalizing s fl blocks with
  | nil => exact ⟨s, blocks, rfl, hb⟩
  | cons c cs ih =>
    obtain ⟨hgive, hrest⟩ := hok
    obtain ⟨hc, hnd⟩ := List.nodup_cons.mp hnd
    obtain ⟨s₁, blocks₁, fl₁, hcall, hf⟩ := kfree_freed h (hlive c (by simp)) hgive
    obtain ⟨s', blocks', hall, hs'⟩ :=
      ih hf.wellFormed (hf.live_rest hlive hc) hnd (hrest s₁ hcall) (hf.spent h (hlive c (by simp)) hb)
    exact ⟨s', blocks', by rw [kfreeAll, hcall, Option.bind_some, hall], hs'⟩

/-- After `b` was freed and then the other live blocks `cs`, a second `kfree` of `b` changes nothing. -/
theorem kfree_twice {s : Heap} {fl : List ℕ} {blocks : Segment → List ℕ} {cs : List ℕ} {b : ℕ}
    (h : WellFormed s blocks fl) (hlive : ∀ c ∈ b :: cs, IsLive s blocks c) (hnd : (b :: cs).Nodup)
    (hok : NoReturns (b :: cs) s) : ∃ s', kfreeAll (b :: cs) s = some s' ∧ kfree (b + metaSize) s' = some s' := by
  obtain ⟨hgive, hrest⟩ := hok
  obtain ⟨hb, hnd⟩ := List.nodup_cons.mp hnd
  have hlb := hlive b (by simp)
  obtain ⟨s₁, blocks₁, fl₁, hcall, hf⟩ := kfree_freed h hlb hgive
  obtain ⟨s', blocks', hall, hs'⟩ :=
    kfreeAll_spent hf.wellFormed (hf.live_rest hlive hb) hnd (hrest s₁ hcall) (hf.spent_self h hlb)
  obtain ⟨sg, hsg, -, hhi, -⟩ := h.within hlb.1
  have hlt := h.placed.lt sg hsg
  exact ⟨s', by rw [kfreeAll, hcall, Option.bind_some, hall], hs'.kfree (by omega)⟩

/-- The middle block of three is freed first and then absorbed by the one before it. -/
theorem kfree_twice_absorbed :
    ∃ s blocks fl, WellFormed s blocks fl ∧ (∀ c ∈ [0x101078, 0x101000, 0x101150], IsLive s blocks c) ∧
      ∃ s', kfreeAll [0x101078, 0x101000, 0x101150] s = some s' ∧ kfree 0x101088 s' = some s' := by
  obtain ⟨w, -, hw, hp⟩ := System.exists_reachableIf Sound bootWorld_init
    [.heapInit, .kmalloc 100, .kmalloc 200, .kmalloc 300, .kmalloc 400]
    (fun w => (0x101088 ∈ w.live ∧ 0x101010 ∈ w.live ∧ 0x101160 ∈ w.live) ∧
      NoReturns [0x101078, 0x101000, 0x101150] w.heap) (by decide +kernel)
  obtain ⟨hlive, hok⟩ := of_decide_eq_true hp
  obtain ⟨blocks, fl, hwf, hiff⟩ := reachable_wellFormed hw
  have hlive : ∀ c ∈ [0x101078, 0x101000, 0x101150], IsLive w.heap blocks c := by
    simp only [List.mem_cons, List.not_mem_nil, or_false, forall_eq_or_imp, forall_eq]
    exact ⟨(hiff _).mp hlive.1, (hiff _).mp hlive.2.1, (hiff _).mp hlive.2.2⟩
  exact ⟨w.heap, blocks, fl, hwf, hlive, kfree_twice hwf hlive (by decide) hok⟩

end Novium.Mm
