import Mathlib.Data.List.Pairwise
import Mathlib.Logic.Function.Basic

/-! Copies within one memory, location by location, in a given order. What they come to does
not depend on how the ranges lie, only on no location being written before it is read. -/

namespace Novium.Lib

variable {α β : Type*} [DecidableEq α]

/-- Each pair is a destination and its source. -/
def copyAll (ps : List (α × α)) (m : α → β) : α → β := ps.foldl (fun m p => Function.update m p.1 (m p.2)) m

@[simp] theorem copyAll_cons (p : α × α) (ps : List (α × α)) (m : α → β) :
    copyAll (p :: ps) m = copyAll ps (Function.update m p.1 (m p.2)) := rfl

theorem copyAll_frame (ps : List (α × α)) (m : α → β) {a : α} (ha : ∀ p ∈ ps, a ≠ p.1) : copyAll ps m a = m a := by
  induction ps generalizing m with
  | nil => rfl
  | cons p ps ih =>
    rw [copyAll_cons, ih _ fun q hq => ha q (List.mem_cons_of_mem p hq)]
    exact Function.update_of_ne (ha p List.mem_cons_self) _ _

/-- A copy may go on over its own source: every later pair must have another source and another destination. -/
theorem copyAll_copied {ps : List (α × α)} (h : ps.Pairwise fun p q => q.2 ≠ p.1 ∧ q.1 ≠ p.1) (m : α → β) {p : α × α}
    (hp : p ∈ ps) : copyAll ps m p.1 = m p.2 := by
  induction ps generalizing m with
  | nil => simp at hp
  | cons q ps ih =>
    obtain ⟨hq, hps⟩ := List.pairwise_cons.mp h
    rw [copyAll_cons]
    rcases List.mem_cons.mp hp with rfl | hp
    · rw [copyAll_frame ps _ fun r hr => (hq r hr).2.symm, Function.update_self]
    · rw [ih hps _ hp, Function.update_of_ne (hq p hp).1]

end Novium.Lib
