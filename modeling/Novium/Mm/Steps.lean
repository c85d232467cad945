import Novium.Mm.Focus

/-! What the pieces of `kmalloc` and `kfree` do to the heap around the block that they
work on: link it in or out, stamp the block after it, cut it, join it with a
neighbour. -/

namespace Novium.Mm

open Novium.Lib

section Writes

variable {s s' : Heap} {b c k v : ℕ} {fl : List ℕ}

theorem header_set_apart (hk : k < blockSpan) (hc : c + blockSpan ≤ b ∨ b + blockSpan ≤ c) :
    (s.set b k v).header c = s.header c := by
  refine header_congr fun j hj => ?_
  unfold blockSpan metaSize at *
  rw [fld_set, if_neg (by omega)]

theorem header_setMeta_apart {m z p f : ℕ} (hc : c + blockSpan ≤ b ∨ b + blockSpan ≤ c) :
    (s.setMeta b m z p f).header c = s.header c := by
  unfold Heap.setMeta
  rw [header_set_apart (by decide) hc, header_set_apart (by decide) hc, header_set_apart (by decide) hc,
    header_set_apart (by decide) hc]

theorem header_setMeta (s : Heap) (b m z p f : ℕ) : (s.setMeta b m z p f).header b = (m, z, p, f) := by
  simp [Heap.setMeta, Heap.header, fld_set]

theorem header_set_size (s : Heap) (b v : ℕ) :
    (s.set b 4 v).header b = (s.magic b, v, s.prevSize b, s.fld b 12) := by
  simp [Heap.header, fld_set, Heap.magic, Heap.prevSize]

theorem header_set_prevSize (s : Heap) (b v : ℕ) :
    (s.set b 8 v).header b = (s.magic b, s.size b, v, s.fld b 12) := by
  simp [Heap.header, fld_set, Heap.magic, Heap.size]

@[simp] theorem setMeta_segments (s : Heap) (b m z p f : ℕ) : (s.setMeta b m z p f).segments = s.segments := rfl
/-- The list does not see a write to the header of a block. -/
theorem FreeList.set (h : FreeList s fl) (hk : k < metaSize)
    (hb : ∀ x ∈ fl, x = b ∨ x + blockSpan ≤ b ∨ b + blockSpan ≤ x) : FreeList (s.set b k v) fl := by
  unfold metaSize blockSpan at *
  refine h.congr rfl (fun x hx => ?_) fun x hx => ?_
  · have := hb x hx
    rw [Heap.next, fld_set, if_neg (by omega)]
    rfl
  · have := hb x hx
    rw [Heap.prev, fld_set, if_neg (by omega)]
    rfl

theorem FreeList.setMeta {m z p f : ℕ} (h : FreeList s fl)
    (hb : ∀ x ∈ fl, x = b ∨ x + blockSpan ≤ b ∨ b + blockSpan ≤ x) : FreeList (s.setMeta b m z p f) fl :=
  (((h.set (by decide) hb).set (by decide) hb).set (by decide) hb).set (by decide) hb

theorem Relinked.mem {l : List ℕ} {a : ℕ} (h : Relinked s s' l) (ha : ∀ x ∈ l, a ≠ x + 16 ∧ a ≠ x + 20) :
    s'.mem a = s.mem a := by
  have hf := h.frame a 0 (by simpa using ha)
  simpa [Heap.fld] using hf

theorem set_mem {a : ℕ} (ha : a ≠ b + k) : (s.set b k v).mem a = s.mem a := Function.update_of_ne ha _ _

theorem setMeta_mem {m z p f a : ℕ} (ha : a < b ∨ b + metaSize ≤ a) : (s.setMeta b m z p f).mem a = s.mem a := by
  unfold metaSize at ha
  rw [Heap.setMeta, set_mem (by omega), set_mem (by omega), set_mem (by omega), set_mem (by omega)]

theorem stampPrevSize_eq (b n v : ℕ) (s : Heap) : stampPrevSize b n v s = s ∨ stampPrevSize b n v s = s.set n 8 v := by
  unfold stampPrevSize
  split
  · exact .inl rfl
  · split_ifs
    · exact .inr rfl
    · exact .inl rfl

theorem stampPrevSize_mem {n v a : ℕ} (ha : a ≠ n + 8) : (stampPrevSize b n v s).mem a = s.mem a := by
  rcases stampPrevSize_eq b n v s with h | h
  · rw [h]
  · rw [h, set_mem ha]

theorem stampPrevSize_inside {n v a : ℕ} (ha : a = n + 8 → ∀ seg ∈ heapFindSegment b s, seg.stop ≤ n) :
    (stampPrevSize b n v s).mem a = s.mem a := by
  by_cases hn : a = n + 8
  · unfold stampPrevSize
    cases hseg : heapFindSegment b s with
    | none => rfl
    | some seg =>
      have hstop := ha hn seg hseg
      simp only
      rw [if_neg (by omega)]
  · exact stampPrevSize_mem hn

end Writes

/-- `s'` differs from `s` in the headers and the links of the blocks `l` only. -/
def Quiet (l : List ℕ) (s s' : Heap) : Prop := ∀ a, (∀ x ∈ l, a < x ∨ x + blockSpan ≤ a) → s'.mem a = s.mem a

namespace Quiet

variable {s s' : Heap} {l l' : List ℕ} {b k v : ℕ}

theorem refl (l : List ℕ) (s : Heap) : Quiet l s s := fun _ _ => rfl

theorem mono (h : Quiet l s s') (hsub : ∀ x ∈ l, x ∈ l') : Quiet l' s s' := fun a ha => h a fun x hx => ha x (hsub x hx)

theorem set (h : Quiet l s s') (hb : b ∈ l) (hk : k < blockSpan) : Quiet l s (s'.set b k v) := by
  intro a ha
  have hout := ha b hb
  rw [set_mem (by omega), h a ha]

theorem wipe (h : Quiet l s s') (hb : b ∈ l) : Quiet l s (wipe b s') :=
  (((h.set hb (by decide)).set hb (by decide)).set hb (by decide)).set hb (by decide)

end Quiet

theorem Relinked.quiet {s s' : Heap} {l : List ℕ} (h : Relinked s s' l) : Quiet l s s' := by
  intro a ha
  refine h.mem fun x hx => ?_
  have hout := ha x hx
  unfold blockSpan at hout
  omega

/-- Neither the segments nor the pages have changed. -/
structure Kept (s s' : Heap) : Prop where
  segments : s'.segments = s.segments
  pages : s'.pages = s.pages

theorem Kept.trans {s₁ s₂ s₃ : Heap} (h : Kept s₁ s₂) (h' : Kept s₂ s₃) : Kept s₁ s₃ :=
  ⟨h'.segments.trans h.segments, h'.pages.trans h.pages⟩

namespace Focus

variable {s s' : Heap} {live fl fl' : List ℕ} {blocks : Segment → List ℕ} {seg : Segment} {l r : List ℕ} {b : ℕ}
  {g listed listed' : Bool} {t : ℕ × Bool}

theorem node_block (h : Focus s live fl blocks seg l b r g t listed) {x : ℕ} (hx : x ∈ fl) :
    x = b ∨ Other s blocks seg l r x := by
  rcases (h.mem_list x).mp hx with ⟨hx, -⟩ | ⟨hx, -⟩
  · exact Or.inl hx
  · exact Or.inr hx

theorem node_spaced (h : Focus s live fl blocks seg l b r g t listed) {x c : ℕ} (hx : x ∈ fl)
    (hc : c = b ∨ Other s blocks seg l r c) : x = c ∨ x + blockSpan ≤ c ∨ c + blockSpan ≤ x :=
  h.spaced (h.node_block hx) hc

theorem carry (h : Focus s live fl blocks seg l b r g t listed) (hsegs : s'.segments = s.segments)
    (hother : ∀ c, Other s blocks seg l r c → s'.header c = s.header c) (hm : s'.magic b = s.magic b)
    (hp : s'.prevSize b = s.prevSize b) (hz : s'.size b = s.size b) (hlist : FreeList s' fl')
    (hmem : ∀ x, x ∈ fl' ↔ x = b ∧ listed' = true ∨ Other s blocks seg l r x ∧ s.isFree x = true) :
    Focus s' live fl' blocks seg l b r g t listed' := by
  obtain ⟨q, hq⟩ := h.after
  have hO : ∀ x, Other s' blocks seg l r x ↔ Other s blocks seg l r x := by
    intro x
    rw [Other, hsegs, Other]
  have hfree : ∀ x, Other s blocks seg l r x → s'.isFree x = s.isFree x := fun x hx => isFree_of_header (hother x hx)
  refine ⟨⟨by rw [hsegs]; exact h.placed, by rw [hsegs]; exact h.mem, ?_, hm.trans h.magic, ?_, ?_, ?_, ?_⟩,
    hlist, fun x => ?_, fun x => ?_⟩
  · rw [hp]
    exact h.before.congr fun c hc => hother c (Or.inl hc)
  · rw [hz]
    exact h.dvd
  · rw [hz]
    exact h.span
  · rw [hz]
    exact ⟨q, hq.congr fun c hc => hother c (Or.inr (Or.inl hc))⟩
  · rw [hsegs]
    intro sg hsg hne
    obtain ⟨q', hq'⟩ := h.elsewhere sg hsg hne
    exact ⟨q', hq'.congr fun c hc => hother c (Or.inr (Or.inr ⟨sg, hsg, hne, hc⟩))⟩
  · rw [hmem, hO]
    exact or_congr_right (and_congr_right fun hx => by rw [hfree x hx])
  · rw [h.mem_live]
    refine exists_congr fun c => ?_
    rw [hO]
    exact and_congr_right fun hc => by rw [hfree c hc]

theorem set (h : Focus s live fl blocks seg l b r g t listed) {k v : ℕ} (hk : k = 0 ∧ v = heapMagic ∨ k = 12) :
    Focus (s.set b k v) live fl blocks seg l b r g t listed := by
  have hks : k < metaSize := by
    unfold metaSize
    omega
  refine h.carry rfl (fun c hc => ?_) ?_ ?_ ?_ (h.list.set hks fun x hx => h.node_spaced hx (Or.inl rfl)) h.mem_list
  · refine header_set_apart (Nat.lt_trans hks (by decide)) ?_
    exact (h.spaced (Or.inr hc) (Or.inl rfl)).resolve_left (h.other_ne hc)
  · rw [Heap.magic, fld_set]
    split_ifs with he
    · rcases hk with ⟨rfl, rfl⟩ | rfl
      · exact h.magic.symm
      · omega
    · rfl
  · rw [Heap.prevSize, fld_set, if_neg (by omega)]
    rfl
  · rw [Heap.size, fld_set, if_neg (by omega)]
    rfl

theorem enlist (h : Focus s live fl blocks seg l b r g t false) :
    ∃ s' fl', heapListInsert b s = some s' ∧ Focus s' live fl' blocks seg l b r g t true ∧ Kept s s' ∧
      s'.header b = s.header b ∧ Quiet (b :: fl) s s' := by
  have hO : ∀ x ∈ fl, Other s blocks seg l r x ∧ s.isFree x = true := by
    intro x hx
    simpa using (h.mem_list x).mp hx
  have hlt := h.lt
  obtain ⟨s', fl', hins, hlist, hmem, hrel⟩ := heapListInsert_spec h.list (Nat.ne_of_gt h.pos)
    (by omega) fun x hx => (h.node_spaced hx (Or.inl rfl)).resolve_left (h.other_ne (hO x hx).1)
  have hhead : ∀ c, c = b ∨ Other s blocks seg l r c → s'.header c = s.header c := by
    intro c hc
    refine hrel.header fun x hx => ?_
    rcases List.mem_cons.mp hx with rfl | hx
    · exact h.spaced hc (Or.inl rfl)
    · exact h.spaced hc (Or.inr (hO x hx).1)
  have hb := hhead b (Or.inl rfl)
  refine ⟨s', fl', hins, ?_, ⟨hrel.segments, hrel.pages⟩, hb, hrel.quiet⟩
  refine h.carry hrel.segments (fun c hc => hhead c (Or.inr hc)) (magic_of_header hb) (prevSize_of_header hb)
    (size_of_header hb) hlist fun x => ?_
  rw [hmem, h.mem_list]
  simp

theorem unlist (h : Focus s live fl blocks seg l b r g t true) :
    ∃ fl', Focus (heapListRemove b s) live fl' blocks seg l b r g t false ∧ Kept s (heapListRemove b s) ∧
      (heapListRemove b s).header b = s.header b := by
  have hb : b ∈ fl := (h.mem_list b).mpr (Or.inl ⟨rfl, rfl⟩)
  obtain ⟨fl', hlist, hmem, hrel⟩ := heapListRemove_spec h.list hb
  have hhead : ∀ c, c = b ∨ Other s blocks seg l r c → (heapListRemove b s).header c = s.header c := by
    intro c hc
    refine hrel.header fun x hx => ?_
    rcases h.node_spaced hx hc with he | hap
    · exact Or.inl he.symm
    · exact Or.inr hap.symm
  have hb' := hhead b (Or.inl rfl)
  refine ⟨fl', ?_, ⟨hrel.segments, hrel.pages⟩, hb'⟩
  refine h.carry hrel.segments (fun c hc => hhead c (Or.inr hc)) (magic_of_header hb') (prevSize_of_header hb')
    (size_of_header hb') hlist fun x => ?_
  rw [hmem, h.mem_list]
  constructor
  · rintro ⟨hne, ⟨rfl, -⟩ | hx⟩
    · exact absurd rfl hne
    · exact Or.inr hx
  · rintro (⟨-, hf⟩ | hx)
    · cases hf
    · exact ⟨h.other_ne hx.1, Or.inr hx⟩

theorem stamp (h : Focus s live fl blocks seg l b r g t listed) (v : ℕ) :
    Focus (stampPrevSize b (b + s.size b) v s) live fl blocks seg l b r g (v, t.2) listed ∧
      Kept s (stampPrevSize b (b + s.size b) v s) ∧
      ∀ a, a < b + s.size b → (stampPrevSize b (b + s.size b) v s).mem a = s.mem a := by
  obtain ⟨q, hq⟩ := h.after
  unfold stampPrevSize
  rw [h.heapFindSegment]
  simp only
  cases r with
  | nil =>
    obtain ⟨hstop, rfl⟩ := hq
    rw [if_neg (by omega)]
    exact ⟨⟨{ h.toAround with after := ⟨_, hstop, rfl⟩ }, h.list, h.mem_list, h.mem_live⟩, ⟨rfl, rfl⟩,
      fun _ _ => rfl⟩
  | cons n r =>
    obtain rfl : n = b + s.size b := hq.1
    have hn : Other s blocks seg l ((b + s.size b) :: r) (b + s.size b) := Or.inr (Or.inl (by simp))
    have hin := hq.within List.mem_cons_self
    have hspan := h.other_span hn
    have hbspan := h.span
    rw [if_pos (by unfold blockSpan at hspan; omega)]
    generalize hN : b + s.size b = N at *
    have hother : ∀ c, c = b ∨ Other s blocks seg l (N :: r) c → c ≠ N → (s.set N 8 v).header c = s.header c :=
      fun c hc hne => header_set_apart (by decide) ((h.spaced hc (Or.inr hn)).resolve_left hne)
    have hb := hother b (Or.inl rfl) (h.other_ne hn).symm
    have hfree : ∀ c, Other s blocks seg l (N :: r) c → (s.set N 8 v).isFree c = s.isFree c := by
      intro c hc
      have hsp := h.spaced (Or.inr hc) (Or.inr hn)
      unfold blockSpan at hsp
      have he : (s.set N 8 v).fld c 12 = s.fld c 12 := by rw [fld_set, if_neg (by omega)]
      simp only [Heap.isFree, he]
    refine ⟨⟨⟨h.placed, h.mem, ?_, ?_, ?_, ?_, ?_, ?_⟩, ?_, fun x => ?_, fun x => ?_⟩, ⟨rfl, rfl⟩, ?_⟩
    · rw [prevSize_of_header hb]
      refine h.before.congr fun c hc => hother c (Or.inr (Or.inl hc)) ?_
      have := h.before.within hc
      unfold blockSpan at *
      omega
    · exact (magic_of_header hb).trans h.magic
    · rw [size_of_header hb]
      exact h.dvd
    · rw [size_of_header hb]
      exact h.span
    · rw [size_of_header hb, hN]
      exact hq.restamp (fun c hc hne => hother c (Or.inr (Or.inr (Or.inl hc))) hne)
        fun _ => header_set_prevSize s N v
    · intro sg hsg hne
      obtain ⟨q', hq'⟩ := h.elsewhere sg hsg hne
      have hlo := h.lo
      exact ⟨q', hq'.congr fun c hc => hother c (Or.inr (Or.inr (Or.inr ⟨sg, hsg, hne, hc⟩)))
        (h.elsewhere_ne hsg hne hc (by omega) (by omega))⟩
    · exact h.list.set (by decide) fun x hx => h.node_spaced hx (Or.inr hn)
    · rw [h.mem_list]
      exact or_congr_right (and_congr_right fun hx => by rw [hfree x hx])
    · rw [h.mem_live]
      exact exists_congr fun c => and_congr_right fun hc => by rw [hfree c hc]
    · intro a ha
      have hne : a ≠ N + 8 := by omega
      simp only [Heap.set, Function.update_of_ne hne]

theorem elsewhere_congr (h : Focus s live fl blocks seg l b r g t listed) (hsegs : s'.segments = s.segments)
    (hother : ∀ c, Other s blocks seg [] [] c → s'.header c = s.header c) :
    ∀ sg ∈ s'.segments, sg ≠ seg → ∃ q, Tiles s' sg.base (0, false) (blocks sg) q sg.stop := by
  rw [hsegs]
  intro sg hsg hne
  obtain ⟨q, hq⟩ := h.elsewhere sg hsg hne
  exact ⟨q, hq.congr fun c hc => hother c (Or.inr (Or.inr ⟨sg, hsg, hne, hc⟩))⟩

theorem other_cons (n c : ℕ) : Other s blocks seg l (n :: r) c ↔ c = n ∨ Other s blocks seg l r c := by
  rw [Other, Other, List.mem_cons, or_assoc, or_left_comm]

theorem other_concat (x c : ℕ) : Other s blocks seg (l ++ [x]) r c ↔ c = x ∨ Other s blocks seg l r c := by
  rw [Other, Other, List.mem_append, List.mem_singleton, or_assoc, or_left_comm]

theorem free_insert {P Q : ℕ → Prop} {f f' : ℕ → Bool} {z : ℕ} (hQ : ∀ c, Q c ↔ c = z ∨ P c) (hz : f' z = true)
    (hf : ∀ c, P c → f' c = f c) (y : ℕ) : Q y ∧ f' y = true ↔ y = z ∨ P y ∧ f y = true := by
  rw [hQ]
  constructor
  · rintro ⟨rfl | hy, hfree⟩
    · exact Or.inl rfl
    · exact Or.inr ⟨hy, (hf y hy).symm.trans hfree⟩
  · rintro (rfl | ⟨hy, hfree⟩)
    · exact ⟨Or.inl rfl, hz⟩
    · exact ⟨Or.inr hy, (hf y hy).trans hfree⟩

theorem live_insert {P Q : ℕ → Prop} {f f' : ℕ → Bool} {z : ℕ} (hQ : ∀ c, Q c ↔ c = z ∨ P c) (hz : f' z = true)
    (hf : ∀ c, P c → f' c = f c) (y : ℕ) :
    (∃ c, Q c ∧ f' c = false ∧ y = c + metaSize) ↔ ∃ c, P c ∧ f c = false ∧ y = c + metaSize := by
  constructor
  · rintro ⟨c, hc, hlive, rfl⟩
    rcases (hQ c).mp hc with rfl | hc
    · rw [hz] at hlive
      cases hlive
    · exact ⟨c, hc, (hf c hc).symm.trans hlive, rfl⟩
  · rintro ⟨c, hc, hlive, rfl⟩
    exact ⟨c, (hQ c).mpr (Or.inr hc), (hf c hc).trans hlive, rfl⟩

theorem inner_apart (h : Focus s live fl blocks seg l b r g t listed) {k c : ℕ} (hk : blockSpan ≤ k)
    (hkz : k + blockSpan ≤ s.size b) (hc : c = b ∨ Other s blocks seg l r c) :
    c + blockSpan ≤ b + k ∨ b + k + blockSpan ≤ c := by
  rcases hc with rfl | hc
  · omega
  · have := h.other_beside hc
    have := h.other_span hc
    omega

theorem inner (h : Focus s live fl blocks seg l b r g t listed) {k : ℕ} (hk : blockSpan ≤ k)
    (hkz : k + blockSpan ≤ s.size b) (m z p f v : ℕ) :
    ∃ s', stampPrevSize b (b + s.size b) v (s.setMeta (b + k) m z p f) = s' ∧
      Focus s' live fl blocks seg l b r g (v, t.2) listed ∧ Kept s s' ∧
      s'.header b = s.header b ∧ s'.header (b + k) = (m, z, p, f) := by
  have hkeep : ∀ c, c = b ∨ Other s blocks seg l r c → (s.setMeta (b + k) m z p f).header c = s.header c :=
    fun c hc => header_setMeta_apart (h.inner_apart hk hkz hc)
  have hb := hkeep b (Or.inl rfl)
  have h₁ : Focus (s.setMeta (b + k) m z p f) live fl blocks seg l b r g t listed :=
    h.carry rfl (fun c hc => hkeep c (Or.inr hc)) (magic_of_header hb) (prevSize_of_header hb) (size_of_header hb)
      (h.list.setMeta fun x hx => Or.inr (h.inner_apart hk hkz (h.node_block hx))) h.mem_list
  obtain ⟨h₂, hk₂, hframe⟩ := h₁.stamp v
  rw [size_of_header hb] at h₂ hk₂ hframe
  have hbelow : ∀ c, c + metaSize ≤ b + s.size b →
      (stampPrevSize b (b + s.size b) v (s.setMeta (b + k) m z p f)).header c =
        (s.setMeta (b + k) m z p f).header c :=
    fun c hc => header_congr fun j hj => hframe (c + j) (by omega)
  have hms : metaSize ≤ blockSpan := by decide
  refine ⟨_, rfl, h₂, ⟨hk₂.segments, hk₂.pages⟩, ?_, ?_⟩
  · rw [hbelow b (by omega), hb]
  · rw [hbelow (b + k) (by omega), header_setMeta]

theorem shrink {size leftOver : ℕ} (h : Focus s live fl blocks seg l b r g t listed)
    (hz : s.size b = size + leftOver) (hs : blockSpan ≤ size) (hl : blockSpan ≤ leftOver) :
    ∃ s' fl', heapListInsert (b + size) (s.set b 4 size) = some s' ∧ FreeList s' fl' ∧
      (∀ x, x ∈ fl' ↔ x = b + size ∨ x ∈ fl) ∧ Kept s s' ∧
      (∀ c, Other s blocks seg l r c → s'.header c = s.header c) ∧
      s'.header b = (s.magic b, size, s.prevSize b, s.fld b 12) ∧ s'.header (b + size) = s.header (b + size) := by
  have hlt := h.lt
  have hpos := h.pos
  have hin : ∀ {c}, c = b ∨ Other s blocks seg l r c → c + blockSpan ≤ b + size ∨ b + size + blockSpan ≤ c :=
    fun hc => h.inner_apart hs (by omega) hc
  obtain ⟨s', fl', hins, hlist, hmem, hrel⟩ := heapListInsert_spec (b := b + size)
    (h.list.set (v := size) (show 4 < metaSize by decide) fun x hx => h.node_spaced hx (Or.inl rfl))
    (by omega) (by unfold blockSpan at hl; omega) fun x hx => hin (h.node_block hx)
  have hhead : ∀ c, c = b + size ∨ (c = b ∨ Other s blocks seg l r c) →
      s'.header c = (s.set b 4 size).header c := by
    intro c hc
    refine hrel.header fun x hx => ?_
    rcases List.mem_cons.mp hx with rfl | hfl
    · exact hc.imp_right hin
    · have hx' := hin (h.node_block hfl)
      rcases hc with rfl | hc
      · exact Or.inr hx'.symm
      · exact h.spaced hc (h.node_block hfl)
  refine ⟨s', fl', hins, hlist, hmem, ⟨hrel.segments, hrel.pages⟩, fun c hc => ?_, ?_, ?_⟩
  · rw [hhead c (Or.inr (Or.inr hc))]
    refine header_set_apart (by decide) ?_
    exact (h.spaced (Or.inr hc) (Or.inl rfl)).resolve_left (h.other_ne hc)
  · rw [hhead b (Or.inr (Or.inl rfl)), header_set_size]
  · rw [hhead _ (Or.inl rfl), header_set_apart (by decide) (Or.inr (by omega))]

theorem cut {size leftOver : ℕ} (h : Focus s live fl blocks seg l b r g (leftOver, true) false)
    (hz : s.size b = size + leftOver) (hd : 8 ∣ size) (hs : blockSpan ≤ size) (hl : blockSpan ≤ leftOver)
    (hrest : s.header (b + size) = (heapMagic, leftOver, size, 1)) :
    ∃ s' fl', heapListInsert (b + size) (s.set b 4 size) = some s' ∧
      Focus s' live fl' blocks seg l b ((b + size) :: r) g (size, false) false ∧ Kept s s' ∧
      s'.size b = size := by
  obtain ⟨q, hq⟩ := h.after
  obtain ⟨s', fl', hins, hlist, hmem, hk, hother, hb, hr⟩ := h.shrink hz hs hl
  rw [hrest] at hr
  have hbz : s'.size b = size := congrArg (fun x => x.2.1) hb
  have hrz : s'.size (b + size) = leftOver := congrArg (fun x => x.2.1) hr
  have hrf : s'.isFree (b + size) = true :=
    congrArg (fun x : ℕ × ℕ × ℕ × ℕ => decide (x.2.2.2 ≠ 0)) hr
  have hO' : ∀ x, Other s' blocks seg l ((b + size) :: r) x ↔ x = b + size ∨ Other s blocks seg l r x := by
    intro x
    rw [other_cons, Other, hk.segments, Other]
  have hfree : ∀ c, Other s blocks seg l r c → s'.isFree c = s.isFree c := fun c hc => isFree_of_header (hother c hc)
  refine ⟨s', fl', hins, ⟨⟨?_, ?_, ?_, ?_, ?_, ?_, ?_, ?_⟩, hlist, fun x => ?_, fun x => ?_⟩, hk, hbz⟩
  · rw [hk.segments]
    exact h.placed
  · rw [hk.segments]
    exact h.mem
  · rw [show s'.prevSize b = s.prevSize b from congrArg (fun x => x.2.2.1) hb]
    exact h.before.congr fun c hc => hother c (Or.inl hc)
  · exact (congrArg Prod.fst hb).trans h.magic
  · rw [hbz]
    exact hd
  · rw [hbz]
    exact hs
  · rw [hbz]
    refine ⟨q, rfl, congrArg Prod.fst hr, congrArg (fun x => x.2.2.1) hr, by simp, ?_, by rw [hrz]; exact hl, ?_⟩
    · have := h.dvd
      rw [hrz]
      omega
    · rw [hrz, hrf, Nat.add_assoc, ← hz]
      exact hq.congr fun c hc => hother c (Or.inr (Or.inl hc))
  · exact h.elsewhere_congr hk.segments fun c hc => hother c (by simpa [Other] using Or.inr (Or.inr hc))
  · rw [hmem, h.mem_list, free_insert hO' hrf hfree]
    simp
  · rw [h.mem_live, live_insert hO' hrf hfree]

theorem absorbLeft {x : ℕ} (h : Focus s live fl blocks seg (l ++ [x]) b r g t false) (hx : s.isFree x = true) :
    Focus (wipe b (s.set x 4 (s.size x + s.size b))) live fl blocks seg l x r false t true ∧
      Kept s (wipe b (s.set x 4 (s.size x + s.size b))) ∧
      (wipe b (s.set x 4 (s.size x + s.size b))).size x = s.size x + s.size b ∧
      ∀ c ∈ r, (wipe b (s.set x 4 (s.size x + s.size b))).header c = s.header c := by
  obtain ⟨hxb, hpg, hmagic, hdvd, hspan, g', hbefore, hg'⟩ := h.before.last
  obtain rfl : g' = false := by
    rw [hx] at hg'
    simpa using hg'
  obtain ⟨q, hq⟩ := h.after
  have hO : ∀ c, Other s blocks seg (l ++ [x]) r c ↔ c = x ∨ Other s blocks seg l r c := other_concat x
  have hOx : Other s blocks seg (l ++ [x]) r x := (hO x).mpr (Or.inl rfl)
  have hbspan := h.span
  have hhi := h.hi
  have hne : ∀ c, Other s blocks seg l r c → c ≠ x := by
    rintro c (hc | hc | ⟨sg, hsg, hne, hc⟩)
    · have := hbefore.within hc
      unfold blockSpan at *
      omega
    · have := hq.within hc
      unfold blockSpan at *
      omega
    · exact h.elsewhere_ne hsg hne hc hbefore.le (by omega)
  have hother : ∀ c, Other s blocks seg l r c → (wipe b (s.set x 4 (s.size x + s.size b))).header c = s.header c := by
    intro c hc
    have hc' := (hO c).mpr (Or.inr hc)
    rw [wipe, header_setMeta_apart ((h.spaced (Or.inr hc') (Or.inl rfl)).resolve_left (h.other_ne hc')),
      header_set_apart (by decide) ((h.spaced (Or.inr hc') (Or.inr hOx)).resolve_left (hne c hc))]
  have hxh : (wipe b (s.set x 4 (s.size x + s.size b))).header x =
      (s.magic x, s.size x + s.size b, s.prevSize x, s.fld x 12) := by
    rw [wipe, header_setMeta_apart (Or.inl (by omega)), header_set_size]
  have hz : (wipe b (s.set x 4 (s.size x + s.size b))).size x = s.size x + s.size b :=
    congrArg (fun x => x.2.1) hxh
  have hfree : ∀ c, Other s blocks seg l r c →
      (wipe b (s.set x 4 (s.size x + s.size b))).isFree c = s.isFree c := fun c hc => isFree_of_header (hother c hc)
  refine ⟨⟨⟨h.placed, h.mem, ?_, ?_, ?_, ?_, ?_, ?_⟩, ?_, fun y => ?_, fun y => ?_⟩, ⟨rfl, rfl⟩, hz,
    fun c hc => hother c (Or.inr (Or.inl hc))⟩
  · rw [show (wipe b (s.set x 4 (s.size x + s.size b))).prevSize x = s.prevSize x from
      congrArg (fun x => x.2.2.1) hxh]
    exact hbefore.congr fun c hc => hother c (Or.inl hc)
  · exact (congrArg Prod.fst hxh).trans hmagic
  · rw [hz]
    have := h.dvd
    omega
  · rw [hz]
    omega
  · rw [hz, ← Nat.add_assoc, hxb]
    exact ⟨q, hq.congr fun c hc => hother c (Or.inr (Or.inl hc))⟩
  · exact h.elsewhere_congr rfl fun c hc => hother c (by simpa [Other] using Or.inr (Or.inr hc))
  · refine FreeList.setMeta (h.list.set (by decide) fun y hy => ?_) fun y hy => ?_
    · exact h.node_spaced hy (Or.inr hOx)
    · exact h.node_spaced hy (Or.inl rfl)
  · rw [h.mem_list, free_insert hO hx fun c hc => (hfree c hc).symm]
    simp only [Bool.false_eq_true, and_false, false_or, and_true]
    rfl
  · rw [h.mem_live, live_insert hO hx fun c hc => (hfree c hc).symm]
    rfl

theorem absorbRight {n : ℕ} (h : Focus s live fl blocks seg l b (n :: r) g t listed) (hn : s.isFree n = true) :
    ∃ s' fl', wipe n ((heapListRemove n s).set b 4 (u32 ((heapListRemove n s).size b + s.size n))) = s' ∧
      Focus s' live fl' blocks seg l b r g (s.size n, true) listed ∧ Kept s s' ∧
      s'.size b = s.size b + s.size n ∧ Quiet (b :: fl) s s' ∧ s'.magic n = 0 ∧ n ∈ fl ∧
      ∀ x ∈ fl', x ≠ n ∧ x ∈ fl := by
  obtain ⟨q, rfl, hmagic, hprev, hflag, hdvd, hnspan, hq⟩ := h.after
  have hO : ∀ c, Other s blocks seg l ((b + s.size b) :: r) c ↔ c = b + s.size b ∨ Other s blocks seg l r c :=
    other_cons (b + s.size b)
  have hOn := (hO (b + s.size b)).mpr (Or.inl rfl)
  have hspan := h.span
  have hin : ∀ c ∈ r, b + s.size b + s.size (b + s.size b) ≤ c := fun c hc => (hq.within hc).1
  have hstop := hq.le
  generalize hN : b + s.size b = n at *
  have hlo := h.lo
  have hne : ∀ c, Other s blocks seg l r c → c ≠ n := by
    rintro c (hc | hc | ⟨sg, hsg, hne, hc⟩)
    · have := h.before.within hc
      unfold blockSpan at *
      omega
    · have := hin c hc
      unfold blockSpan at *
      omega
    · exact h.elsewhere_ne hsg hne hc (by omega) (by omega)
  have hnfl : n ∈ fl := (h.mem_list n).mpr (Or.inr ⟨hOn, hn⟩)
  obtain ⟨fl', hlist, hmem, hrel⟩ := heapListRemove_spec h.list hnfl
  have hhead : ∀ c, c = b ∨ Other s blocks seg l (n :: r) c → (heapListRemove n s).header c = s.header c := by
    intro c hc
    refine hrel.header fun x hx => ?_
    rcases h.node_spaced hx hc with he | hap
    · exact Or.inl he.symm
    · exact Or.inr hap.symm
  have hb₁ := hhead b (Or.inl rfl)
  have hsum : s.size b + s.size n < 2 ^ 32 := by
    have := h.placed.lt seg h.mem
    omega
  rw [size_of_header hb₁, u32_of_lt hsum]
  set s₁ := heapListRemove n s with hs₁
  have hbn : b ≠ n := (h.other_ne hOn).symm
  have hother : ∀ c, Other s blocks seg l r c → (wipe n (s₁.set b 4 (s.size b + s.size n))).header c = s.header c := by
    intro c hc
    have hc' := (hO c).mpr (Or.inr hc)
    rw [wipe, header_setMeta_apart ((h.spaced (Or.inr hc') (Or.inr hOn)).resolve_left (hne c hc)),
      header_set_apart (by decide) ((h.spaced (Or.inr hc') (Or.inl rfl)).resolve_left (h.other_ne hc')),
      hhead c (Or.inr hc')]
  have hbh : (wipe n (s₁.set b 4 (s.size b + s.size n))).header b =
      (s.magic b, s.size b + s.size n, s.prevSize b, s₁.fld b 12) := by
    rw [wipe, header_setMeta_apart (Or.inl (by omega)), header_set_size, magic_of_header hb₁, prevSize_of_header hb₁]
  have hz : (wipe n (s₁.set b 4 (s.size b + s.size n))).size b = s.size b + s.size n :=
    congrArg (fun x => x.2.1) hbh
  have hfree : ∀ c, Other s blocks seg l r c →
      (wipe n (s₁.set b 4 (s.size b + s.size n))).isFree c = s.isFree c := fun c hc => isFree_of_header (hother c hc)
  have hsegs : (wipe n (s₁.set b 4 (s.size b + s.size n))).segments = s.segments := hrel.segments
  have hO' : ∀ c, Other (wipe n (s₁.set b 4 (s.size b + s.size n))) blocks seg l r c ↔ Other s blocks seg l r c := by
    intro c
    rw [Other, hsegs, Other]
  have hquiet₁ : Quiet (b :: fl) s s₁ := hrel.quiet.mono fun x hx => by simp [hx]
  have hquiet : Quiet (b :: fl) s (wipe n (s₁.set b 4 (s.size b + s.size n))) :=
    (hquiet₁.set (by simp) (by decide)).wipe (by simp [hnfl])
  refine ⟨_, fl', rfl, ⟨⟨?_, ?_, ?_, ?_, ?_, ?_, ?_, ?_⟩, ?_, fun y => ?_, fun y => ?_⟩, ⟨hsegs, hrel.pages⟩, hz, hquiet,
    congrArg Prod.fst (header_setMeta _ n 0 0 0 0), hnfl, fun x => (hmem x).mp⟩
  · rw [hsegs]
    exact h.placed
  · rw [hsegs]
    exact h.mem
  · rw [show (wipe n (s₁.set b 4 (s.size b + s.size n))).prevSize b = s.prevSize b from
      congrArg (fun x => x.2.2.1) hbh]
    exact h.before.congr fun c hc => hother c (Or.inl hc)
  · exact (congrArg Prod.fst hbh).trans h.magic
  · rw [hz]
    have := h.dvd
    omega
  · rw [hz]
    omega
  · rw [hz, ← Nat.add_assoc, hN, ← hn]
    exact ⟨q, hq.congr fun c hc => hother c (Or.inr (Or.inl hc))⟩
  · exact h.elsewhere_congr hsegs fun c hc => hother c (by simpa [Other] using Or.inr (Or.inr hc))
  · have hlist' : ∀ x ∈ fl', x ∈ fl := fun x hx => ((hmem x).mp hx).2
    refine FreeList.setMeta (hlist.set (by decide) fun y hy => ?_) fun y hy => ?_
    · exact h.node_spaced (hlist' y hy) (Or.inl rfl)
    · exact h.node_spaced (hlist' y hy) (Or.inr hOn)
  · rw [hmem, h.mem_list, free_insert hO hn fun c hc => (hfree c hc).symm, hO']
    constructor
    · rintro ⟨hyn, hy | hy | hy⟩
      · exact Or.inl hy
      · exact absurd hy hyn
      · exact Or.inr hy
    · rintro (⟨rfl, hl⟩ | hy)
      · exact ⟨hbn, Or.inl ⟨rfl, hl⟩⟩
      · exact ⟨hne y hy.1, Or.inr (Or.inr hy)⟩
  · rw [h.mem_live, live_insert hO hn fun c hc => (hfree c hc).symm]
    simp only [hO']

end Focus

end Novium.Mm
