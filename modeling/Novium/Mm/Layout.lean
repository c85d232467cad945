import Novium.Mm.FreeList

/-! The blocks of the heap. A segment is a row of blocks in which each header names
the size of the block before it. `Laid` is the heap between two calls. Inside a call
one block is being worked on: `Focus` is the heap around it, with a row on either side
that need not fit to it yet. -/

namespace Novium.Mm

open Novium.Lib

def Heap.header (s : Heap) (b : ℕ) : ℕ × ℕ × ℕ × ℕ := (s.fld b 0, s.fld b 4, s.fld b 8, s.fld b 12)

section Header

variable {s s' : Heap} {b c : ℕ}

theorem header_congr (h : ∀ k < metaSize, s'.fld c k = s.fld c k) : s'.header c = s.header c := by
  unfold metaSize at h
  rw [Heap.header, Heap.header, h 0 (by omega), h 4 (by omega), h 8 (by omega), h 12 (by omega)]

theorem magic_of_header (h : s'.header c = s.header c) : s'.magic c = s.magic c := congrArg Prod.fst h

theorem size_of_header (h : s'.header c = s.header c) : s'.size c = s.size c :=
  congrArg (fun x => x.2.1) h

theorem prevSize_of_header (h : s'.header c = s.header c) : s'.prevSize c = s.prevSize c :=
  congrArg (fun x => x.2.2.1) h

theorem isFree_of_header (h : s'.header c = s.header c) : s'.isFree c = s.isFree c :=
  congrArg (fun x : ℕ × ℕ × ℕ × ℕ => decide (x.2.2.2 ≠ 0)) h

theorem Relinked.header {l : List ℕ} (h : Relinked s s' l)
    (hc : ∀ x ∈ l, c = x ∨ c + blockSpan ≤ x ∨ x + blockSpan ≤ c) : s'.header c = s.header c := by
  refine header_congr fun k hk => h.frame c k fun x hx => ?_
  have := hc x hx
  unfold blockSpan metaSize at *
  omega

end Header

/-- The blocks `l` from the address `a` to the address `e`. The pair `p` is the size of
the block before them and whether it is free, `q` the same for their last. -/
def Tiles (s : Heap) : ℕ → ℕ × Bool → List ℕ → ℕ × Bool → ℕ → Prop
  | a, p, [], q, e => a = e ∧ q = p
  | a, p, b :: l, q, e => b = a ∧ s.magic b = heapMagic ∧ s.prevSize b = p.1 ∧
      ¬(p.2 = true ∧ s.isFree b = true) ∧ 8 ∣ s.size b ∧ blockSpan ≤ s.size b ∧
      Tiles s (b + s.size b) (s.size b, s.isFree b) l q e

namespace Tiles

variable {s s' : Heap} {a e : ℕ} {p q : ℕ × Bool} {l l₁ l₂ : List ℕ}

theorem append {m : ℕ} {t : ℕ × Bool} (h₁ : Tiles s a p l₁ t m) (h₂ : Tiles s m t l₂ q e) :
    Tiles s a p (l₁ ++ l₂) q e := by
  induction l₁ generalizing a p with
  | nil =>
    obtain ⟨rfl, rfl⟩ := h₁
    exact h₂
  | cons b l ih =>
    obtain ⟨h1, h2, h3, h4, h5, h6, hr⟩ := h₁
    exact ⟨h1, h2, h3, h4, h5, h6, ih hr⟩

theorem split (h : Tiles s a p (l₁ ++ l₂) q e) : ∃ t m, Tiles s a p l₁ t m ∧ Tiles s m t l₂ q e := by
  induction l₁ generalizing a p with
  | nil => exact ⟨p, a, ⟨rfl, rfl⟩, h⟩
  | cons b l ih =>
    obtain ⟨h1, h2, h3, h4, h5, h6, hr⟩ := h
    obtain ⟨t, m, ht₁, ht₂⟩ := ih hr
    exact ⟨t, m, ⟨h1, h2, h3, h4, h5, h6, ht₁⟩, ht₂⟩

theorem congr (h : Tiles s a p l q e) (hs : ∀ c ∈ l, s'.header c = s.header c) : Tiles s' a p l q e := by
  induction l generalizing a p with
  | nil => exact h
  | cons b l ih =>
    have hb := hs b (by simp)
    simp only [Tiles, magic_of_header hb, prevSize_of_header hb, isFree_of_header hb, size_of_header hb]
    obtain ⟨h1, h2, h3, h4, h5, h6, hr⟩ := h
    exact ⟨h1, h2, h3, h4, h5, h6, ih hr fun c hc => hs c (by simp [hc])⟩

theorem le (h : Tiles s a p l q e) : a ≤ e := by
  induction l generalizing a p with
  | nil => exact Nat.le_of_eq h.1
  | cons b l ih =>
    obtain ⟨rfl, -, -, -, -, -, hr⟩ := h
    have := ih hr
    omega

theorem within (h : Tiles s a p l q e) {c : ℕ} (hc : c ∈ l) :
    a ≤ c ∧ c + s.size c ≤ e ∧ blockSpan ≤ s.size c := by
  induction l generalizing a p with
  | nil => cases hc
  | cons b l ih =>
    obtain ⟨rfl, -, -, -, -, hspan, hr⟩ := h
    rcases List.mem_cons.mp hc with rfl | hc
    · exact ⟨Nat.le_refl _, hr.le, hspan⟩
    · have := ih hr hc
      omega

theorem apart (h : Tiles s a p l q e) {c d : ℕ} (hc : c ∈ l) (hd : d ∈ l) :
    c = d ∨ c + s.size c ≤ d ∨ d + s.size d ≤ c := by
  induction l generalizing a p with
  | nil => cases hc
  | cons b l ih =>
    obtain ⟨rfl, -, -, -, -, hspan, hr⟩ := h
    rcases List.mem_cons.mp hc with hcb | hc <;> rcases List.mem_cons.mp hd with hdb | hd
    · exact Or.inl (hcb.trans hdb.symm)
    · have := (hr.within hd).1
      rw [hcb]
      exact Or.inr (Or.inl this)
    · have := (hr.within hc).1
      rw [hdb]
      exact Or.inr (Or.inr this)
    · exact ih hr hc hd

theorem weaken {v : ℕ} {f f' : Bool} (h : Tiles s a (v, f) l q e) (hf : f' = true → f = true) :
    ∃ q', Tiles s a (v, f') l q' e := by
  cases l with
  | nil => exact ⟨(v, f'), h.1, rfl⟩
  | cons b l =>
    obtain ⟨h1, h2, h3, h4, h5, h6, hr⟩ := h
    exact ⟨q, h1, h2, h3, fun hc => h4 ⟨hf hc.1, hc.2⟩, h5, h6, hr⟩

theorem restamp {v : ℕ} (h : Tiles s a p l q e) (hs : ∀ c ∈ l, c ≠ a → s'.header c = s.header c)
    (ha : l ≠ [] → s'.header a = (s.magic a, s.size a, v, s.fld a 12)) :
    ∃ q', Tiles s' a (v, p.2) l q' e := by
  cases l with
  | nil => exact ⟨(v, p.2), h.1, rfl⟩
  | cons b l =>
    obtain ⟨rfl, h2, h3, h4, h5, h6, hr⟩ := h
    have hb := ha (by simp)
    have hm : s'.magic b = s.magic b := congrArg Prod.fst hb
    have hz : s'.size b = s.size b := congrArg (fun x => x.2.1) hb
    have hv : s'.prevSize b = v := congrArg (fun x => x.2.2.1) hb
    have hf : s'.isFree b = s.isFree b := congrArg (fun x : ℕ × ℕ × ℕ × ℕ => decide (x.2.2.2 ≠ 0)) hb
    refine ⟨q, rfl, by rw [hm, h2], hv, by rw [hf]; exact h4, by rw [hz]; exact h5, by rw [hz]; exact h6, ?_⟩
    rw [hz, hf]
    refine hr.congr fun c hc => hs c (by simp [hc]) fun hcb => ?_
    have := (hr.within hc).1
    unfold blockSpan at h6
    omega

theorem last {x : ℕ} (h : Tiles s a p (l ++ [x]) q e) :
    x + s.size x = e ∧ q = (s.size x, s.isFree x) ∧ s.magic x = heapMagic ∧ 8 ∣ s.size x ∧ blockSpan ≤ s.size x ∧
      ∃ g, Tiles s a p l (s.prevSize x, g) x ∧ ¬(g = true ∧ s.isFree x = true) := by
  obtain ⟨t, m, h₁, rfl, hm, hp, hg, h8, hspan, he, hq⟩ := h.split
  exact ⟨he, hq, hm, h8, hspan, t.2, by rw [hp]; exact h₁, hg⟩

end Tiles

/-- Where the segments lie. -/
structure Placed (segs : List Segment) : Prop where
  pos : ∀ sg ∈ segs, 0 < sg.base
  lt_stop : ∀ sg ∈ segs, sg.base < sg.stop
  lt : ∀ sg ∈ segs, sg.stop < 2 ^ 32
  aligned : ∀ sg ∈ segs, sg.base % pageSize = 0 ∧ sg.stop % pageSize = 0
  apart : ∀ x ∈ segs, ∀ y ∈ segs, x = y ∨ x.stop ≤ y.base ∨ y.stop ≤ x.base

theorem Placed.heapFindSegment {s : Heap} {seg : Segment} {b : ℕ} (h : Placed s.segments)
    (hm : seg ∈ s.segments) (hlo : seg.base ≤ b) (hhi : b < seg.stop) : heapFindSegment b s = some seg := by
  have hpos := h.pos seg hm
  unfold Mm.heapFindSegment
  rw [if_neg (by omega)]
  cases hfind : s.segments.find? fun sg => b ≥ sg.base ∧ b < sg.stop with
  | none =>
    have := List.find?_eq_none.mp hfind seg hm
    simp [hlo, hhi] at this
  | some sg =>
    have hsg := List.mem_of_find?_eq_some hfind
    have hin := List.find?_some hfind
    simp only [decide_eq_true_eq] at hin
    rcases h.apart sg hsg seg hm with rfl | hap
    · rfl
    · omega

end Novium.Mm
