import Mathlib.Data.List.Nodup
import Mathlib.Tactic.Common

/-! Doubly linked lists threaded through two link functions, ended by a null node.
The working notion is a piece of such a list; the whole list is the piece from null
to null. -/

namespace Novium.Lib

variable {ι : Type*} {next prev next' prev' : ι → ι} {null : ι}

/-- The nodes `l` from `h`, whose back link is `p`, up to `m`; the node before `m` is `q`. -/
def DSeg (next prev : ι → ι) (null : ι) : ι → ι → List ι → ι → ι → Prop
  | p, h, [], q, m => h = m ∧ q = p
  | p, h, a :: l, q, m => h = a ∧ a ≠ null ∧ prev a = p ∧ DSeg next prev null a (next a) l q m

def DLinked (next prev : ι → ι) (null h : ι) (l : List ι) : Prop :=
  ∃ q, DSeg next prev null null h l q null

variable {p h q m : ι} {l l₁ l₂ : List ι}

theorem DSeg.ne_null (hl : DSeg next prev null p h l q m) {a : ι} (ha : a ∈ l) : a ≠ null := by
  induction l generalizing p h with
  | nil => cases ha
  | cons b l ih =>
    obtain ⟨-, hb, -, hr⟩ := hl
    rcases List.mem_cons.mp ha with rfl | ha
    · exact hb
    · exact ih hr ha

theorem DSeg.append (h₁ : DSeg next prev null p h l₁ q m) {q' m' : ι} (h₂ : DSeg next prev null q m l₂ q' m') :
    DSeg next prev null p h (l₁ ++ l₂) q' m' := by
  induction l₁ generalizing p h with
  | nil =>
    obtain ⟨rfl, rfl⟩ := h₁
    exact h₂
  | cons a l ih => exact ⟨h₁.1, h₁.2.1, h₁.2.2.1, ih h₁.2.2.2⟩

theorem DSeg.split (hl : DSeg next prev null p h (l₁ ++ l₂) q m) :
    ∃ q₁ m₁, DSeg next prev null p h l₁ q₁ m₁ ∧ DSeg next prev null q₁ m₁ l₂ q m := by
  induction l₁ generalizing p h with
  | nil => exact ⟨p, h, ⟨rfl, rfl⟩, hl⟩
  | cons a l ih =>
    obtain ⟨q₁, m₁, h₁, h₂⟩ := ih hl.2.2.2
    exact ⟨q₁, m₁, ⟨hl.1, hl.2.1, hl.2.2.1, h₁⟩, h₂⟩

theorem DSeg.head_mem (hl : DSeg next prev null p h l q m) (hne : l ≠ []) : h ∈ l := by
  cases l with
  | nil => exact absurd rfl hne
  | cons a l => simp [hl.1]

theorem DSeg.last_mem (hl : DSeg next prev null p h l q m) (hne : l ≠ []) : q ∈ l := by
  induction l generalizing p h with
  | nil => exact absurd rfl hne
  | cons a l ih =>
    obtain ⟨-, -, -, hr⟩ := hl
    cases l with
    | nil =>
      obtain ⟨-, rfl⟩ := hr
      simp
    | cons b l => exact List.mem_cons_of_mem a (ih hr (by simp))

theorem DSeg.retarget (hl : DSeg next prev null p h l q m) (hnd : l.Nodup) (m' : ι)
    (hp : ∀ a ∈ l, prev' a = prev a) (hn : ∀ a ∈ l, a ≠ q → next' a = next a)
    (hq : l ≠ [] → next' q = m') : ∃ h', DSeg next' prev' null p h' l q m' ∧
      (l = [] → h' = m') ∧ (l ≠ [] → h' = h) := by
  induction l generalizing p h with
  | nil => exact ⟨m', ⟨rfl, hl.2⟩, fun _ => rfl, fun hne => absurd rfl hne⟩
  | cons a l ih =>
    obtain ⟨rfl, ha, hpa, hr⟩ := hl
    refine ⟨h, ⟨rfl, ha, by rw [hp h (by simp), hpa], ?_⟩, fun e => absurd e (by simp), fun _ => rfl⟩
    obtain ⟨h', hseg, hnil, hcons⟩ := ih hr (List.nodup_cons.mp hnd).2
      (fun b hb => hp b (by simp [hb])) (fun b hb => hn b (by simp [hb])) (fun _ => hq (by simp))
    have hnext : next' h = h' := by
      cases hl : l with
      | nil =>
        subst hl
        obtain ⟨-, rfl⟩ := hr
        rw [hnil rfl]
        exact hq (by simp)
      | cons b l' =>
        have hne : l ≠ [] := by simp [hl]
        have hhq : h ≠ q := fun e => (List.nodup_cons.mp hnd).1 (e ▸ hr.last_mem hne)
        rw [hn h (by simp) hhq, hcons hne]
    rw [hnext]
    exact hseg

theorem DSeg.congr (hl : DSeg next prev null p h l q m) (hn : ∀ a ∈ l, next' a = next a)
    (hp : ∀ a ∈ l, prev' a = prev a) : DSeg next' prev' null p h l q m := by
  induction l generalizing p h with
  | nil => exact hl
  | cons a l ih =>
    obtain ⟨rfl, ha, hpa, hr⟩ := hl
    refine ⟨rfl, ha, by rw [hp h (by simp), hpa], ?_⟩
    rw [hn h (by simp)]
    exact ih hr (fun b hb => hn b (by simp [hb])) fun b hb => hp b (by simp [hb])

theorem DSeg.reback (hl : DSeg next prev null p h l q m) (hnd : l.Nodup) (p' : ι)
    (hn : ∀ a ∈ l, next' a = next a) (hp : ∀ a ∈ l, a ≠ h → prev' a = prev a)
    (hh : l ≠ [] → prev' h = p') : ∃ q', DSeg next' prev' null p' h l q' m := by
  cases l with
  | nil => exact ⟨p', hl.1, rfl⟩
  | cons a l =>
    obtain ⟨rfl, ha, -, hr⟩ := hl
    refine ⟨q, rfl, ha, hh (by simp), ?_⟩
    rw [hn h (by simp)]
    refine hr.congr (fun b hb => hn b (by simp [hb])) fun b hb => hp b (by simp [hb]) ?_
    rintro rfl
    exact (List.nodup_cons.mp hnd).1 hb

theorem DSeg.eq_null_iff (hl : DSeg next prev null p h l q null) : h = null ↔ l = [] := by
  cases l with
  | nil => simp [hl.1]
  | cons a l =>
    obtain ⟨rfl, ha, -⟩ := hl
    simp [ha]

theorem DSeg.next_mem (hl : DSeg next prev null p h l q null) {b : ι} (hb : b ∈ l) (hn : next b ≠ null) :
    next b ∈ l := by
  induction l generalizing p h with
  | nil => cases hb
  | cons a l ih =>
    obtain ⟨rfl, -, -, hr⟩ := hl
    rcases List.mem_cons.mp hb with rfl | hb
    · refine List.mem_cons_of_mem _ (hr.head_mem fun he => ?_)
      exact hn (hr.eq_null_iff.mpr he)
    · exact List.mem_cons_of_mem _ (ih hr hb)

theorem DSeg.last_eq_null_iff (hl : DSeg next prev null null h l q m) : q = null ↔ l = [] := by
  cases l with
  | nil => simp [hl.2]
  | cons a l =>
    have := hl.ne_null (hl.last_mem (by simp))
    simp [this]

/-- Linking the node `b` in between `q` and `m`; the head moves if `b` becomes first. -/
theorem DLinked.insert {b q₂ h' : ι} (h₁ : DSeg next prev null null h l₁ q m)
    (h₂ : DSeg next prev null q m l₂ q₂ null) (hnd : (l₁ ++ l₂).Nodup) (hb : b ≠ null)
    (hbn : next' b = m) (hbp : prev' b = q) (hq : q ≠ null → next' q = b) (hm : m ≠ null → prev' m = b)
    (hn : ∀ a ∈ l₁ ++ l₂, a ≠ q → next' a = next a) (hp : ∀ a ∈ l₁ ++ l₂, a ≠ m → prev' a = prev a)
    (hfirst : q = null → h' = b) (hkeep : q ≠ null → h' = h) :
    DLinked next' prev' null h' (l₁ ++ b :: l₂) := by
  obtain ⟨hnd₁, hnd₂, hdisj⟩ := List.nodup_append.mp hnd
  have hq_iff := h₁.last_eq_null_iff
  have hm_iff := h₂.eq_null_iff
  have hne₁ : ∀ a ∈ l₁, a ≠ m := by
    rintro a ha rfl
    by_cases hl : l₂ = []
    · exact h₁.ne_null ha (hm_iff.mpr hl)
    · exact hdisj _ ha _ (h₂.head_mem hl) rfl
  have hne₂ : ∀ a ∈ l₂, a ≠ q := by
    rintro a ha rfl
    by_cases hl : l₁ = []
    · exact h₂.ne_null ha (hq_iff.mpr hl)
    · exact hdisj _ (h₁.last_mem hl) _ ha rfl
  obtain ⟨h'', hs₁, hnil, hcons⟩ := h₁.retarget hnd₁ b (fun a ha => hp a (by simp [ha]) (hne₁ a ha))
    (fun a ha => hn a (by simp [ha])) fun hne => hq fun e => hne (hq_iff.mp e)
  obtain ⟨q', hs₂⟩ := h₂.reback hnd₂ b (fun a ha => hn a (by simp [ha]) (hne₂ a ha))
    (fun a ha => hp a (by simp [ha])) fun hne => hm fun e => hne (hm_iff.mp e)
  have hh : h' = h'' := by
    by_cases hl : l₁ = []
    · rw [hnil hl, hfirst (hq_iff.mpr hl)]
    · rw [hcons hl, hkeep (fun e => hl (hq_iff.mp e))]
  refine ⟨q', ?_⟩
  rw [hh]
  exact hs₁.append ⟨rfl, hb, hbp, by rw [hbn]; exact hs₂⟩

/-- Linking over the node `b`; the head moves if `b` was first. -/
theorem DLinked.unlink {b q₂ h' : ι} (h₁ : DSeg next prev null null h l₁ (prev b) b)
    (h₂ : DSeg next prev null b (next b) l₂ q₂ null) (hnd : (l₁ ++ b :: l₂).Nodup)
    (hq : prev b ≠ null → next' (prev b) = next b) (hm : next b ≠ null → prev' (next b) = prev b)
    (hn : ∀ a ∈ l₁ ++ l₂, a ≠ prev b → next' a = next a)
    (hp : ∀ a ∈ l₁ ++ l₂, a ≠ next b → prev' a = prev a)
    (hfirst : prev b = null → h' = next b) (hkeep : prev b ≠ null → h' = h) :
    DLinked next' prev' null h' (l₁ ++ l₂) := by
  obtain ⟨hnd₁, hnd₂, hdisj⟩ := List.nodup_append.mp hnd
  have hq_iff := h₁.last_eq_null_iff
  have hm_iff := h₂.eq_null_iff
  have hne₁ : ∀ a ∈ l₁, a ≠ next b := by
    intro a ha e
    by_cases hl : l₂ = []
    · exact h₁.ne_null ha (e.trans (hm_iff.mpr hl))
    · exact hdisj _ ha _ (by simp [e, h₂.head_mem hl]) rfl
  have hne₂ : ∀ a ∈ l₂, a ≠ prev b := by
    intro a ha e
    by_cases hl : l₁ = []
    · exact h₂.ne_null ha (e.trans (hq_iff.mpr hl))
    · exact hdisj _ (h₁.last_mem hl) _ (by simp [← e, ha]) rfl
  obtain ⟨h'', hs₁, hnil, hcons⟩ := h₁.retarget hnd₁ (next b)
    (fun a ha => hp a (by simp [ha]) (hne₁ a ha)) (fun a ha => hn a (by simp [ha]))
    fun hne => hq fun e => hne (hq_iff.mp e)
  obtain ⟨q', hs₂⟩ := h₂.reback (List.nodup_cons.mp hnd₂).2 (prev b)
    (fun a ha => hn a (by simp [ha]) (hne₂ a ha)) (fun a ha => hp a (by simp [ha]))
    fun hne => hm fun e => hne (hm_iff.mp e)
  have hh : h' = h'' := by
    by_cases hl : l₁ = []
    · rw [hnil hl, hfirst (hq_iff.mpr hl)]
    · rw [hcons hl, hkeep (fun e => hl (hq_iff.mp e))]
  refine ⟨q', ?_⟩
  rw [hh]
  exact hs₁.append hs₂

theorem DLinked.around {b : ι} (hl : DLinked next prev null h (l₁ ++ b :: l₂)) :
    ∃ q₂, DSeg next prev null null h l₁ (prev b) b ∧ DSeg next prev null b (next b) l₂ q₂ null := by
  obtain ⟨q₂, hseg⟩ := hl
  obtain ⟨q₁, m₁, h₁, h₂⟩ := hseg.split
  obtain ⟨rfl, -, hp, hr⟩ := h₂
  exact ⟨q₂, hp ▸ h₁, hr⟩

end Novium.Lib
