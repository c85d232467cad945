import Mathlib.Data.List.Chain
import Mathlib.Tactic.Common

/-! An interval filled by blocks, some of them free and no two free ones side by side. The
free blocks are then the gaps between the others, so that the blocks that are not free and
their sizes determine all blocks. -/

namespace Novium.Lib

/-- The blocks `l` fill the interval from `a` to `e`, each with its `size`. -/
def Fills (size : ℕ → ℕ) : ℕ → List ℕ → ℕ → Prop
  | a, [], e => a = e
  | a, b :: l, e => b = a ∧ 0 < size b ∧ Fills size (b + size b) l e

/-- No two free blocks of `l` are neighbours. -/
def Coalesced (free : ℕ → Bool) (l : List ℕ) : Prop := l.IsChain fun x y => ¬(free x = true ∧ free y = true)

/-- The `w` units from `x` on are a gap of the interval from `a` to `e`: they have the end of
a `taken` block, or of the interval, on either side and no such block among them. -/
structure Gap (taken : ℕ → Prop) (size : ℕ → ℕ) (a e x w : ℕ) : Prop where
  pos : 0 < w
  lo : a ≤ x
  hi : x + w ≤ e
  left : x = a ∨ ∃ d, taken d ∧ d + size d = x
  right : x + w = e ∨ taken (x + w)
  empty : ∀ d, taken d → d < x ∨ x + w ≤ d

theorem Gap.congr {taken taken' : ℕ → Prop} {size size' : ℕ → ℕ} {a e x w : ℕ} (h : Gap taken size a e x w)
    (hleft : ∀ d, taken d → d + size d = x → taken' d ∧ size' d = size d) (hright : taken (x + w) → taken' (x + w))
    (hempty : ∀ d, taken' d → ¬taken d → d < x ∨ x + w ≤ d) : Gap taken' size' a e x w := by
  refine ⟨h.pos, h.lo, h.hi, ?_, h.right.imp_right hright, fun d hd => ?_⟩
  · rcases h.left with hstart | ⟨d, hd, hdx⟩
    · exact Or.inl hstart
    · obtain ⟨hd', hz⟩ := hleft d hd hdx
      exact Or.inr ⟨d, hd', by rw [hz]; exact hdx⟩
  · by_cases hold : taken d
    · exact h.empty d hold
    · exact hempty d hd hold

namespace Fills

variable {size size' : ℕ → ℕ} {free free' : ℕ → Bool} {a e x w : ℕ} {l l' : List ℕ}

theorem le (h : Fills size a l e) : a ≤ e := by
  induction l generalizing a with
  | nil => exact Nat.le_of_eq h
  | cons b l ih =>
    obtain ⟨rfl, -, hr⟩ := h
    exact Nat.le_trans (Nat.le_add_right _ _) (ih hr)

theorem within (h : Fills size a l e) (hx : x ∈ l) : a ≤ x ∧ 0 < size x ∧ x + size x ≤ e := by
  induction l generalizing a with
  | nil => cases hx
  | cons b l ih =>
    obtain ⟨rfl, hpos, hr⟩ := h
    rcases List.mem_cons.mp hx with rfl | hx
    · exact ⟨Nat.le_refl _, hpos, hr.le⟩
    · have := ih hr hx
      omega

theorem apart {y : ℕ} (h : Fills size a l e) (hx : x ∈ l) (hy : y ∈ l) :
    x = y ∨ x + size x ≤ y ∨ y + size y ≤ x := by
  induction l generalizing a with
  | nil => cases hx
  | cons b l ih =>
    obtain ⟨rfl, -, hr⟩ := h
    rcases List.mem_cons.mp hx with rfl | hx'
    · rcases List.mem_cons.mp hy with rfl | hy'
      · exact Or.inl rfl
      · exact Or.inr (Or.inl (hr.within hy').1)
    · rcases List.mem_cons.mp hy with rfl | hy'
      · exact Or.inr (Or.inr (hr.within hx').1)
      · exact ih hr hx' hy'

theorem next (h : Fills size a l e) (hc : Coalesced free l) (hx : x ∈ l) :
    x + size x = e ∨ x + size x ∈ l ∧ ¬(free x = true ∧ free (x + size x) = true) := by
  induction l generalizing a with
  | nil => cases hx
  | cons b l ih =>
    obtain ⟨rfl, -, hr⟩ := h
    rcases List.mem_cons.mp hx with rfl | hx'
    · cases l with
      | nil => exact Or.inl hr
      | cons d l =>
        obtain rfl : d = x + size x := hr.1
        exact Or.inr ⟨by simp, (List.isChain_cons_cons.mp hc).1⟩
    · rcases ih hr hc.tail hx' with hend | ⟨hmem, hnot⟩
      · exact Or.inl hend
      · exact Or.inr ⟨List.mem_cons_of_mem b hmem, hnot⟩

theorem prev (h : Fills size a l e) (hc : Coalesced free l) (hx : x ∈ l) :
    x = a ∨ ∃ d ∈ l, d + size d = x ∧ ¬(free d = true ∧ free x = true) := by
  induction l generalizing a with
  | nil => cases hx
  | cons b l ih =>
    obtain ⟨rfl, -, hr⟩ := h
    rcases List.mem_cons.mp hx with rfl | hx'
    · exact Or.inl rfl
    · right
      rcases ih hr hc.tail hx' with rfl | ⟨d, hd, hdx, hnot⟩
      · cases l with
        | nil => cases hx'
        | cons d l =>
          obtain rfl : d = b + size b := hr.1
          exact ⟨b, by simp, rfl, (List.isChain_cons_cons.mp hc).1⟩
      · exact ⟨d, List.mem_cons_of_mem b hd, hdx, hnot⟩

theorem start_mem (h : Fills size a l e) (hlt : a < e) : a ∈ l := by
  cases l with
  | nil => exact absurd h (Nat.ne_of_lt hlt)
  | cons b l => exact h.1 ▸ List.mem_cons_self

/-- A gap does not start before another one that it meets: a taken block would reach into it. -/
theorem gap_start_le {taken : ℕ → Prop} {x' w' : ℕ} (h : Fills size a l e) (hsub : ∀ d, taken d → d ∈ l)
    (hg : Gap taken size a e x w) (hg' : Gap taken size a e x' w') (hmeet : x' < x + w) : x' ≤ x := by
  by_contra hlt
  have hlo := hg.lo
  rcases hg'.left with hstart | ⟨d, hd, hdx'⟩
  · omega
  · have hdpos := h.within (hsub d hd)
    have hdx := hg.empty d hd
    rcases hg.left with hstart | ⟨c, hc, hcx⟩
    · omega
    · have hcpos := h.within (hsub c hc)
      rcases h.apart (hsub d hd) (hsub c hc) with rfl | hapart
      · omega
      · omega

theorem gap_unique {taken : ℕ → Prop} {x' w' : ℕ} (h : Fills size a l e) (hsub : ∀ d, taken d → d ∈ l)
    (hg : Gap taken size a e x w) (hg' : Gap taken size a e x' w') (hlo : x < x' + w') (hhi : x' < x + w) :
    x = x' ∧ w = w' := by
  have hstart : x = x' := Nat.le_antisymm (h.gap_start_le hsub hg' hg hlo) (h.gap_start_le hsub hg hg' hhi)
  subst hstart
  have hend := hg.hi
  have hend' := hg'.hi
  refine ⟨rfl, Nat.le_antisymm ?_ ?_⟩
  · rcases hg'.right with hstop | hright
    · omega
    · have := hg.empty _ hright
      have := hg'.pos
      omega
  · rcases hg.right with hstop | hright
    · omega
    · have := hg'.empty _ hright
      have := hg.pos
      omega

theorem free_iff_gap (h : Fills size a l e) (hc : Coalesced free l) :
    (x ∈ l ∧ free x = true ∧ size x = w) ↔ Gap (fun d => d ∈ l ∧ free d = false) size a e x w := by
  constructor
  · rintro ⟨hx, hf, rfl⟩
    obtain ⟨hlo, hpos, hhi⟩ := h.within hx
    refine ⟨hpos, hlo, hhi, ?_, ?_, fun d hd => ?_⟩
    · rcases h.prev hc hx with hstart | ⟨d, hd, hdx, hnot⟩
      · exact Or.inl hstart
      · exact Or.inr ⟨d, ⟨hd, by simpa [hf] using hnot⟩, hdx⟩
    · rcases h.next hc hx with hend | ⟨hmem, hnot⟩
      · exact Or.inl hend
      · exact Or.inr ⟨hmem, by simpa [hf] using hnot⟩
    · have hne : x ≠ d := by
        rintro rfl
        rw [hf] at hd
        cases hd.2
      have := (h.apart hx hd.1).resolve_left hne
      have := (h.within hd.1).2.1
      omega
  · intro hg
    have hpos := hg.pos
    have hhi := hg.hi
    have hx : x ∈ l := by
      rcases hg.left with rfl | ⟨d, hd, rfl⟩
      · exact h.start_mem (by omega)
      · rcases h.next hc hd.1 with hend | ⟨hmem, -⟩
        · omega
        · exact hmem
    have hf : free x = true := by
      by_contra hnot
      have := hg.empty x ⟨hx, by simpa using hnot⟩
      omega
    refine ⟨hx, hf, Nat.le_antisymm ?_ ?_⟩
    · -- a taken block at the right end of the gap would lie inside `x`
      by_contra hlt
      rcases hg.right with hend | hright
      · have := (h.within hx).2.2
        omega
      · have := h.apart hx hright.1
        omega
    · by_contra hlt
      rcases h.next hc hx with hend | ⟨hmem, hnot⟩
      · omega
      · have := hg.empty (x + size x) ⟨hmem, by simpa [hf] using hnot⟩
        omega

theorem eq_of_size (h : Fills size a l e) (h' : Fills size' a l' e) (hs : ∀ d ∈ l, size' d = size d) : l' = l := by
  induction l generalizing a l' with
  | nil =>
    obtain rfl : a = e := h
    cases l' with
    | nil => rfl
    | cons b l' =>
      obtain ⟨rfl, hpos, hr⟩ := h'
      have := hr.le
      omega
  | cons b l ih =>
    obtain ⟨rfl, hpos, hr⟩ := h
    cases l' with
    | nil =>
      obtain rfl : b = e := h'
      have := hr.le
      omega
    | cons b' l' =>
      obtain ⟨rfl, -, hr'⟩ := h'
      rw [hs b' (by simp)] at hr'
      rw [ih hr hr' fun d hd => hs d (by simp [hd])]

/-- The taken blocks and their sizes determine the rest. -/
theorem unique (h : Fills size a l e) (hc : Coalesced free l) (h' : Fills size' a l' e) (hc' : Coalesced free' l')
    (htaken : ∀ d, d ∈ l ∧ free d = false ↔ d ∈ l' ∧ free' d = false)
    (hsize : ∀ d ∈ l, free d = false → size' d = size d) :
    l' = l ∧ ∀ d ∈ l, size' d = size d ∧ free' d = free d := by
  have hfree : ∀ d ∈ l, free d = true → size' d = size d ∧ free' d = true := by
    intro d hd hf
    have hg := (h.free_iff_gap hc).mp ⟨hd, hf, rfl⟩
    have hg' : Gap (fun d => d ∈ l' ∧ free' d = false) size' a e d (size d) :=
      hg.congr (fun c hc _ => ⟨(htaken c).mp hc, hsize c hc.1 hc.2⟩) (htaken _).mp
        fun c hc hnot => absurd ((htaken c).mpr hc) hnot
    obtain ⟨-, hf', hz'⟩ := (h'.free_iff_gap hc').mpr hg'
    exact ⟨hz', hf'⟩
  have hboth : ∀ d ∈ l, size' d = size d ∧ free' d = free d := by
    intro d hd
    cases hf : free d with
    | true => exact hfree d hd hf
    | false => exact ⟨hsize d hd hf, ((htaken d).mp ⟨hd, hf⟩).2⟩
  exact ⟨h.eq_of_size h' fun d hd => (hboth d hd).1, hboth⟩

end Fills

end Novium.Lib
