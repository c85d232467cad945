import Novium.Mm.Steps

/-! `kfree` keeps the heap laid out, as long as it gives no pages back. -/

namespace Novium.Mm

open Novium.Lib

/-- The bytes of the free block before `b`, 0 if there is none. -/
def freeBefore (s : Heap) (b : ℕ) : ℕ :=
  if s.prevSize b ≠ 0 ∧ s.isFree (b - s.prevSize b) = true then s.prevSize b else 0

/-- The bytes of the free block after `b` in its segment, 0 if there is none. -/
def freeAfter (s : Heap) (b : ℕ) : ℕ :=
  if (heapFindSegment b s).any (fun seg => b + s.size b < seg.stop) ∧ s.isFree (b + s.size b) = true then
    s.size (b + s.size b)
  else 0

/-- The block `b` and its free neighbours are at least a page over the keep threshold,
and a live block follows them in their segment. -/
def GivesBack (s : Heap) (b : ℕ) : Prop :=
  heapKeepPages * pageSize + pageSize ≤ freeBefore s b + s.size b + freeAfter s b ∧
    (heapFindSegment b s).any (fun seg => b + s.size b + freeAfter s b < seg.stop) = true

/-- The joined block starts on a page boundary, so that the pages given back are whole
pages. Otherwise `PageFreePages` refuses them. -/
def HandsOver (s : Heap) (b : ℕ) : Prop := GivesBack s b ∧ (b - freeBefore s b) % pageSize = 0

def firstFree (s : Heap) : List ℕ → ℕ
  | [] => 0
  | n :: _ => if s.isFree n = true then s.size n else 0

section Merge

variable {s : Heap} {live fl : List ℕ} {blocks : Segment → List ℕ} {seg : Segment} {l r : List ℕ} {b : ℕ}
  {g listed : Bool} {t : ℕ × Bool}

theorem Focus.freeAfter_eq (h : Focus s live fl blocks seg l b r g t listed) :
    freeAfter s b = firstFree s r := by
  obtain ⟨q, hq⟩ := h.after
  rw [freeAfter, h.heapFindSegment]
  cases r with
  | nil => simp [hq.1, firstFree]
  | cons n r =>
    obtain rfl : n = b + s.size b := hq.1
    have hin := hq.within List.mem_cons_self
    have hlt : b + s.size b < seg.stop := by
      unfold blockSpan at hin
      omega
    simp [hlt, firstFree]

theorem mergeLeft_spec (h : Focus s live fl blocks seg l b r g t false) :
    ∃ s' l' b' m, mergeLeft b s = (s', b', m) ∧ Focus s' live fl blocks seg l' b' r false t m ∧ Kept s s' ∧
      b' + freeBefore s b = b ∧ s'.size b' = freeBefore s b + s.size b ∧ (∀ c ∈ r, s'.header c = s.header c) ∧
      Quiet (b :: fl) s s' ∧ b' ∈ b :: fl ∧ (freeBefore s b ≠ 0 → s'.magic b = 0) := by
  have hlt := h.lt
  rcases List.eq_nil_or_concat l with rfl | ⟨l', x, rfl⟩
  · obtain ⟨-, hpg⟩ := h.before
    obtain ⟨hp, rfl⟩ := Prod.mk.inj hpg
    have hl : mergeLeft b s = (s, b, false) := by simp [mergeLeft, hp]
    have hf : freeBefore s b = 0 := by simp [freeBefore, hp]
    rw [hl, hf]
    exact ⟨s, [], b, false, rfl, h, ⟨rfl, rfl⟩, rfl, (Nat.zero_add _).symm, fun _ _ => rfl, .refl _ s, by simp, by simp⟩
  · rw [List.concat_eq_append] at h
    obtain ⟨hxb, hpg, hmagic, -, hspan, -⟩ := h.before.last
    obtain ⟨hp, hg⟩ := Prod.mk.inj hpg
    have hp0 : s.prevSize b ≠ 0 := by
      unfold blockSpan at hspan
      omega
    have hsub : sub32 b (s.prevSize b) = x := by
      rw [sub32_of_le (by omega) (by omega)]
      omega
    have hx : b - s.prevSize b = x := by omega
    by_cases hfree : s.isFree x = true
    · have hl : mergeLeft b s = (wipe b (s.set x 4 (s.size x + s.size b)), x, true) := by
        unfold mergeLeft
        rw [if_pos hp0, hsub]
        simp only [hmagic, hfree, and_self, if_true]
        rw [u32_of_lt (by omega)]
      have hf : freeBefore s b = s.size x := by
        rw [freeBefore, hx, if_pos ⟨hp0, hfree⟩, hp]
      obtain ⟨h', hk, hz, hr⟩ := h.absorbLeft hfree
      have hxfl : x ∈ fl := (h.mem_list x).mpr (Or.inr ⟨Or.inl (by simp), hfree⟩)
      have hquiet : Quiet (b :: fl) s (wipe b (s.set x 4 (s.size x + s.size b))) :=
        ((Quiet.refl (b :: fl) s).set (by simp [hxfl]) (by decide)).wipe (by simp)
      rw [hl, hf]
      exact ⟨_, l', x, true, rfl, h', hk, hxb, hz, hr, hquiet, by simp [hxfl],
        fun _ => congrArg Prod.fst (header_setMeta _ b 0 0 0 0)⟩
    · have hl : mergeLeft b s = (s, b, false) := by
        unfold mergeLeft
        rw [if_pos hp0, hsub]
        simp [hfree]
      have hf : freeBefore s b = 0 := by
        rw [freeBefore, hx, if_neg fun hc => hfree hc.2]
      obtain rfl : g = false := hg.trans (Bool.not_eq_true _ ▸ hfree)
      rw [hl, hf]
      exact ⟨s, _, b, false, rfl, h, ⟨rfl, rfl⟩, rfl, (Nat.zero_add _).symm, fun _ _ => rfl, .refl _ s, by simp, by simp⟩

theorem mergeNext_spec (h : Focus s live fl blocks seg l b r g t listed) :
    ∃ fl' r' v, Focus (mergeNext b s) live fl' blocks seg l b r' g (v, true) listed ∧ Kept s (mergeNext b s) ∧
      (mergeNext b s).size b = s.size b + freeAfter s b ∧ Quiet (b :: fl) s (mergeNext b s) ∧ (∀ x ∈ fl', x ∈ fl) ∧
      (freeAfter s b ≠ 0 → (mergeNext b s).magic (b + s.size b) = 0 ∧ b + s.size b ∈ fl ∧ b + s.size b ∉ fl') := by
  obtain ⟨q, hq⟩ := h.after
  have hlt := h.lt
  rw [h.freeAfter_eq]
  unfold mergeNext
  rw [h.heapFindSegment]
  simp only [u32_of_lt hlt]
  cases r with
  | nil =>
    rw [if_neg (by rw [hq.1]; simp)]
    exact ⟨fl, [], t.1, ⟨{ h.toAround with after := ⟨_, hq.1, rfl⟩ }, h.list, h.mem_list, h.mem_live⟩,
      ⟨rfl, rfl⟩, rfl, .refl _ s, fun _ hx => hx, fun h0 => absurd rfl h0⟩
  | cons n r =>
    obtain rfl : n = b + s.size b := hq.1
    have hin := hq.within List.mem_cons_self
    have hstop := h.placed.lt seg h.mem
    by_cases hfree : s.isFree (b + s.size b) = true
    · obtain ⟨s', fl', rfl, h', hk, hz, hquiet, hwiped, hnfl, hfl⟩ := h.absorbRight hfree
      rw [if_pos ⟨by unfold blockSpan at hin; omega, hfree⟩, firstFree, if_pos hfree]
      exact ⟨fl', r, _, h', hk, hz, hquiet, fun x hx => (hfl x hx).2, fun _ => ⟨hwiped, hnfl, fun hx => (hfl _ hx).1 rfl⟩⟩
    · rw [if_neg fun hc => hfree hc.2]
      refine ⟨fl, _, t.1, ⟨{ h.toAround with after := ⟨q, ?_⟩ }, h.list, h.mem_list, h.mem_live⟩, ⟨rfl, rfl⟩,
        by simp [firstFree, hfree], .refl _ s, fun _ hx => hx, by simp [firstFree, hfree]⟩
      obtain ⟨h1, h2, h3, -, h5⟩ := hq
      exact ⟨h1, h2, h3, fun hc => hfree hc.2, h5⟩

/-- The block `b` is marked free, stamped and put on the list if it is not there. -/
def settle (b : ℕ) (merged : Bool) (s : Heap) : Option Heap :=
  let s := (stampPrevSize b (u32 (b + s.size b)) (s.size b) s).set b 12 1
  if merged then some s else heapListInsert b s

theorem settle_spec {v : ℕ} (h : Focus s live fl blocks seg l b r false (v, true) listed) :
    ∃ s' fl', settle b listed s = some s' ∧ Focus s' live fl' blocks seg l b r false (s.size b, true) true ∧
      Kept s s' ∧ s'.size b = s.size b ∧ s'.isFree b = true ∧
      ∀ a, (a = b + s.size b + 8 → seg.stop ≤ b + s.size b) → (∀ x ∈ b :: fl, a < x ∨ x + blockSpan ≤ a) →
        s'.mem a = s.mem a := by
  obtain ⟨h₁, hk₁, hframe⟩ := h.stamp (s.size b)
  have hspan := h.span
  unfold settle
  simp only [u32_of_lt h.lt]
  set s₁ := stampPrevSize b (b + s.size b) (s.size b) s
  have h₂ := h₁.set (k := 12) (v := 1) (Or.inr rfl)
  have hz : (s₁.set b 12 1).size b = s.size b := by
    rw [Heap.size, fld_set, if_neg (by omega)]
    exact hframe (b + 4) (by unfold blockSpan at hspan; omega)
  have hfree : (s₁.set b 12 1).isFree b = true := by simp [Heap.isFree, fld_set]
  have hmem : ∀ a, (a = b + s.size b + 8 → seg.stop ≤ b + s.size b) → (∀ x ∈ b :: fl, a < x ∨ x + blockSpan ≤ a) →
      (s₁.set b 12 1).mem a = s.mem a := by
    intro a ha hout
    have hb := hout b (by simp)
    unfold blockSpan at hb
    rw [set_mem (by omega)]
    refine stampPrevSize_inside fun he sg hsg => ?_
    rw [h.heapFindSegment] at hsg
    cases hsg
    exact ha he
  cases listed with
  | true => exact ⟨_, fl, rfl, h₂, ⟨hk₁.segments, hk₁.pages⟩, hz, hfree, hmem⟩
  | false =>
    obtain ⟨s', fl', hins, h₃, hk₃, hhead, hquiet⟩ := h₂.enlist
    refine ⟨s', fl', hins, h₃, hk₁.trans ⟨hk₃.segments, hk₃.pages⟩, ?_, ?_, fun a ha hout => ?_⟩
    · rw [size_of_header hhead, hz]
    · rw [isFree_of_header hhead, hfree]
    · rw [hquiet a hout, hmem a ha hout]

theorem kfree_eq {p : ℕ} (hm : s.magic (sub32 p metaSize) = heapMagic) (hf : s.isFree (sub32 p metaSize) = false) :
    kfree p s = (settle (mergeLeft (sub32 p metaSize) s).2.1 (mergeLeft (sub32 p metaSize) s).2.2
      (mergeNext (mergeLeft (sub32 p metaSize) s).2.1 (mergeLeft (sub32 p metaSize) s).1)).bind
        (giveBack (mergeLeft (sub32 p metaSize) s).2.1) := by
  unfold kfree settle
  simp [hm, hf]

end Merge

/-- What a `kfree` of the block `c` writes before it looks at the keep threshold: the block
itself, the free blocks of the list `fl`, and the `PrevSize` behind the joined block. The
headers that were absorbed are no headers any more. -/
structure FreeWrites (s s' : Heap) (fl : List ℕ) (c : ℕ) : Prop where
  mem : ∀ a, (a = c + s.size c + freeAfter s c + 8 → ∀ seg ∈ heapFindSegment c s, seg.stop ≤ c + s.size c + freeAfter s c) →
    (∀ x ∈ c :: fl, a < x ∨ x + blockSpan ≤ a) → s'.mem a = s.mem a
  self : freeBefore s c ≠ 0 → s'.magic c = 0
  next : freeAfter s c ≠ 0 → s'.magic (c + s.size c) = 0

section Call

variable {s : Heap} {live fl : List ℕ} {blocks : Segment → List ℕ} {p : ℕ}

/-- `kfree` up to the keep threshold: the block of `p` joined with its free neighbours is
free and on the list, and `GivesBack` looks at its size and its end. -/
theorem kfree_joins (h : Laid s live fl blocks) (hp : p ∈ live) :
    ∃ s' fl' seg l b r, kfree p s = giveBack b s' ∧
      Focus s' (live.filter (· ≠ p)) fl' blocks seg l b r false (s'.size b, true) true ∧ Kept s s' ∧
      s'.isFree b = true ∧ b + freeBefore s (p - metaSize) = p - metaSize ∧ (GivesBack s (p - metaSize) ↔
        heapKeepPages * pageSize + pageSize ≤ s'.size b ∧ b + s'.size b < seg.stop) ∧
      FreeWrites s s' fl (p - metaSize) := by
  obtain ⟨seg, l, b, r, g, rfl, hfree, hf, -⟩ := h.focusLive hp
  have hspan := hf.span
  have hlt := hf.lt
  have hb : sub32 (b + metaSize) metaSize = b := by
    rw [sub32_of_le (by omega) (by unfold metaSize blockSpan at *; omega), Nat.add_sub_cancel]
  rw [Nat.add_sub_cancel, kfree_eq (by rw [hb]; exact hf.magic) (by rw [hb]; exact hfree), hb]
  obtain ⟨s₁, l₁, b₁, m, hleft, hf₁, hk₁, hstart, hz₁, hr₁, hq₁, hb₁, hw₁⟩ := mergeLeft_spec hf
  rw [hleft]
  simp only
  obtain ⟨fl₂, r₂, v, hf₂, hk₂, hz₂, hq₂, hfl₂, hw₂⟩ := mergeNext_spec hf₁
  obtain ⟨s₃, fl₃, hset, hf₃, hk₃, hz₃, hfree₃, hq₃⟩ := settle_spec hf₂
  have hafter : freeAfter s₁ b₁ = freeAfter s b := by
    rw [hf₁.freeAfter_eq, hf.freeAfter_eq]
    cases r with
    | nil => rfl
    | cons n r =>
      have hn := hr₁ n (by simp)
      rw [firstFree, firstFree, isFree_of_header hn, size_of_header hn]
  rw [hafter] at hz₂ hw₂
  rw [hset, Option.bind_some]
  refine ⟨s₃, fl₃, seg, l₁, b₁, r₂, rfl, hz₃ ▸ hf₃, (hk₁.trans hk₂).trans hk₃, hfree₃, hstart, ?_, ?_⟩
  · rw [GivesBack, hf.heapFindSegment]
    simp only [Option.any_some, decide_eq_true_eq]
    omega
  · have hend : b₁ + (mergeNext b₁ s₁).size b₁ = b + s.size b + freeAfter s b := by omega
    have hsub : ∀ x ∈ b₁ :: fl, x ∈ b :: fl := by
      intro x hx
      rcases List.mem_cons.mp hx with rfl | hx
      · exact hb₁
      · exact List.mem_cons_of_mem b hx
    have hsub₂ : ∀ x ∈ b₁ :: fl₂, x ∈ b₁ :: fl := by
      intro x hx
      rcases List.mem_cons.mp hx with rfl | hx
      · exact List.mem_cons_self
      · exact List.mem_cons_of_mem b₁ (hfl₂ x hx)
    rw [hend] at hq₃
    refine ⟨fun a ha hout => ?_, fun h0 => ?_, fun h0 => ?_⟩
    · rw [hq₃ a (fun he => ha he seg hf.heapFindSegment) fun x hx => hout x (hsub x (hsub₂ x hx)),
        hq₂ a fun x hx => hout x (hsub x hx), hq₁ a hout]
    · -- the left block starts before `b`, and so is a node of the list
      have hout : ∀ x ∈ b₁ :: fl, b < x ∨ x + blockSpan ≤ b := by
        intro x hx
        have hx : x ∈ fl := by
          rcases List.mem_cons.mp (hsub x hx) with rfl | hx
          · rcases List.mem_cons.mp hx with he | hx
            · omega
            · exact hx
          · exact hx
        have hne : x ≠ b := by
          have hO := (hf.mem_list x).mp hx
          simp only [Bool.false_eq_true, and_false, false_or] at hO
          exact hf.other_ne hO.1
        have := (hf.node_spaced hx (Or.inl rfl)).resolve_left hne
        unfold blockSpan at *
        omega
      have hw : s₁.mem b = 0 := hw₁ h0
      show s₃.mem b = 0
      rw [hq₃ b (by omega) fun x hx => hout x (hsub₂ x hx), hq₂ b hout, hw]
    · obtain ⟨hw, hmem, hnot⟩ := hw₂ h0
      have hn : b₁ + s₁.size b₁ = b + s.size b := by omega
      rw [hn] at hw hmem hnot
      have hw : (mergeNext b₁ s₁).mem (b + s.size b) = 0 := hw
      show s₃.mem (b + s.size b) = 0
      rw [hq₃ _ (by omega) fun x hx => ?_, hw]
      rcases List.mem_cons.mp hx with rfl | hx
      · have := hf₁.span
        omega
      · have hne : x ≠ b + s.size b := fun he => hnot (he ▸ hx)
        have := (hf₁.list.apart (hfl₂ x hx) hmem).resolve_left hne
        unfold blockSpan at *
        omega

/-- `kfree` of a live pointer returns, keeps the heap laid out and takes the pointer from
the live ones. -/
theorem kfree_spec (h : Laid s live fl blocks) (hp : p ∈ live) (hok : ¬GivesBack s (p - metaSize)) :
    ∃ s', kfree p s = some s' ∧ Kept s s' ∧ FreeWrites s s' fl (p - metaSize) ∧
      ∃ fl' blocks', Laid s' (live.filter (· ≠ p)) fl' blocks' := by
  obtain ⟨s', fl', seg, l, b, r, hcall, hf, hk, hfree, -, hgives, hw⟩ := kfree_joins h hp
  have hkeep : giveBack b s' = some s' := by
    rw [hgives] at hok
    unfold giveBack
    rw [hf.heapFindSegment]
    simp only [Option.any_some, decide_eq_true_eq, u32_of_lt hf.lt]
    split_ifs with hend hbig hpages
    · rfl
    · rfl
    · exfalso
      unfold heapKeepPages heapGrowPages pageSize at *
      omega
    · rfl
  refine ⟨s', hcall.trans hkeep, hk, hw, fl', _, hf.close hfree (by simp) rfl (by simp) fun x => ?_⟩
  simp

end Call

section GiveBack

variable {s : Heap} {live fl : List ℕ} {blocks : Segment → List ℕ} {seg : Segment} {l r : List ℕ} {b : ℕ}
  {g : Bool} {t : ℕ × Bool}

/-- What the give-back branch makes of the free block `b`: two free blocks side by side,
both on the list `fl'`, of which the second is given back as far as it has whole pages. -/
structure Halved (s s' : Heap) (fl fl' : List ℕ) (blocks : Segment → List ℕ) (seg : Segment) (l : List ℕ) (b : ℕ)
    (r : List ℕ) : Prop where
  segments : s'.segments = s.segments
  pages : s'.pages =
    pageFreePages (b + heapKeepPages * pageSize) ((s.size b - heapKeepPages * pageSize) / pageSize) s.pages
  list : FreeList s' fl'
  mem_list : ∀ x, x ∈ fl' ↔ x = b + heapKeepPages * pageSize ∨ x ∈ fl
  before : ∃ q, Tiles s' seg.base (0, false) l q b
  other : ∀ c, Other s blocks seg l r c → ∃ sg ∈ s.segments, sg.base ≤ c ∧ c + s'.size c ≤ sg.stop
  size : s'.size b = heapKeepPages * pageSize
  free : s'.isFree b = true
  restSize : s'.size (b + heapKeepPages * pageSize) = s.size b - heapKeepPages * pageSize
  restFree : s'.isFree (b + heapKeepPages * pageSize) = true

theorem giveBack_halves (h : Focus s live fl blocks seg l b r g t true) (hfree : s.isFree b = true)
    (hsize : heapKeepPages * pageSize + pageSize ≤ s.size b) (hend : b + s.size b < seg.stop) :
    ∃ s' fl', giveBack b s = some s' ∧ Halved s s' fl fl' blocks seg l b r := by
  have hlt := h.lt
  have hpos := h.pos
  obtain ⟨keep, hkeep⟩ : ∃ keep, keep = heapKeepPages * pageSize := ⟨_, rfl⟩
  obtain ⟨give, hgive⟩ : ∃ give, s.size b = keep + give := ⟨s.size b - keep, by omega⟩
  have hk : blockSpan + pageSize ≤ keep ∧ blockSpan ≤ give ∧ give / pageSize ≠ 0 := by
    unfold heapKeepPages heapGrowPages blockSpan pageSize at *
    omega
  unfold giveBack
  rw [h.heapFindSegment]
  simp only [Option.any_some, decide_eq_true_eq, u32_of_lt hlt, ← hkeep]
  rw [if_neg (by omega), if_pos (by unfold pageSize at *; omega), hgive, Nat.add_sub_cancel_left, if_neg hk.2.2,
    u32_of_lt (show b + keep < 2 ^ 32 by omega), u32_of_lt (show b + keep + give < 2 ^ 32 by omega),
    Nat.add_assoc, ← hgive]
  obtain ⟨s₁, hs₁, h₁, hk₁, hb₁, hrest₁⟩ := h.inner (show blockSpan ≤ keep by omega) (by omega) heapMagic give keep 1 keep
  obtain ⟨s₂, fl₂, hins, hlist, hmem, hk₂, hother, hb₂, hrest₂⟩ :=
    h₁.shrink (by rw [size_of_header hb₁, hgive]) (by omega) hk.2.1
  rw [hs₁, Option.bind_eq_bind, hins, Option.bind_some]
  have hfree₁ : s₁.fld b 12 ≠ 0 := of_decide_eq_true ((isFree_of_header hb₁).trans hfree)
  have hrest := hrest₂.trans hrest₁
  refine ⟨_, fl₂, rfl, hk₂.segments.trans hk₁.segments, ?_, ⟨hlist.linked, hlist.spaced, hlist.lt⟩, ?_, ?_,
    fun c hc => ?_, ?_, ?_, ?_, ?_⟩
  · rw [← hkeep, hgive, Nat.add_sub_cancel_left, ← hk₁.pages, ← hk₂.pages]
  · rw [← hkeep]
    exact hmem
  · exact ⟨_, h₁.before.congr fun c hc => hother c (Or.inl hc)⟩
  · have hc₁ : Other s₁ blocks seg l r c := by
      unfold Other
      rwa [hk₁.segments]
    obtain ⟨sg, hsg, hlo, hhi, -⟩ := h₁.other_within hc₁
    rw [← size_of_header (hother c hc₁)] at hhi
    exact ⟨sg, hk₁.segments ▸ hsg, hlo, hhi⟩
  · rw [← hkeep]
    exact congrArg (fun x => x.2.1) hb₂
  · have hf : s₂.isFree b = decide (s₁.fld b 12 ≠ 0) :=
      congrArg (fun x : ℕ × ℕ × ℕ × ℕ => decide (x.2.2.2 ≠ 0)) hb₂
    exact hf.trans (decide_eq_true hfree₁)
  · rw [← hkeep, hgive, Nat.add_sub_cancel_left]
    exact congrArg (fun x => x.2.1) hrest
  · rw [← hkeep]
    exact congrArg (fun x : ℕ × ℕ × ℕ × ℕ => decide (x.2.2.2 ≠ 0)) hrest

end GiveBack

end Novium.Mm
