import Novium.Lib.Runs
import Novium.Lib.Ring

/-! The scancode ring of `drivers/input/keyboard.c`. The interrupt handler puts scancodes in
and runs as a whole; `keyboard_pop` takes them out in three steps, between which the handler
may run. Beside the ring stand the scancodes accepted and those returned so far. -/

namespace Novium.Input

open Novium.Lib

def bufSize : ℕ := 32

structure Ring where
  buf : ℕ → UInt8
  head : ℕ
  tail : ℕ

def Ring.next (r : Ring) : ℕ := (r.head + 1) % bufSize % 256

def keyboardCallback (sc : UInt8) (r : Ring) : Ring :=
  if r.next ≠ r.tail then { r with buf := Function.update r.buf r.head sc, head := r.next } else r

def Ring.advance (r : Ring) : Ring := { r with tail := (r.tail + 1) % bufSize }

/-- Where the consumer is in `keyboard_pop`. -/
inductive PopPc where
  /-- before the comparison of `tail` with `head` -/
  | compare
  | read
  | advance (sc : UInt8)
  deriving DecidableEq, Repr

structure Keyboard where
  ring : Ring
  pc : PopPc
  accepted : List UInt8
  returned : List UInt8

inductive KeyEvent where
  /-- The interrupt, with the scancode that the controller holds. -/
  | irq (sc : UInt8)
  /-- The next step of `keyboard_pop`, which is called again whenever it has returned. -/
  | pop

def keyIrq (sc : UInt8) (k : Keyboard) : Keyboard :=
  { k with
    ring := keyboardCallback sc k.ring
    accepted := if k.ring.next ≠ k.ring.tail then k.accepted ++ [sc] else k.accepted }

/-- The comparison returns -1 when the ring is empty. -/
def keyboardPop (k : Keyboard) : Keyboard :=
  match k.pc with
  | .compare => if k.ring.tail = k.ring.head then k else { k with pc := .read }
  | .read => { k with pc := .advance (k.ring.buf k.ring.tail) }
  | .advance sc => { k with ring := k.ring.advance, pc := .compare, returned := k.returned ++ [sc] }

def keySystem : System Keyboard KeyEvent where
  init k := ∃ buf, k = ⟨⟨buf, 0, 0⟩, .compare, [], []⟩
  next k
    | .irq sc => some (keyIrq sc k)
    | .pop => some (keyboardPop k)

def Ring.count (r : Ring) : ℕ := (r.head + bufSize - r.tail) % bufSize

def Ring.contents (r : Ring) : List UInt8 := ringList bufSize r.tail r.count r.buf

structure KeyInv (k : Keyboard) : Prop where
  head : k.ring.head < bufSize
  tail : k.ring.tail < bufSize
  fifo : k.accepted = k.returned ++ k.ring.contents
  nonempty : k.pc ≠ .compare → k.ring.tail ≠ k.ring.head
  latched : ∀ sc, k.pc = .advance sc → sc = k.ring.buf k.ring.tail

section

variable {r : Ring}

theorem contents_length (r : Ring) : r.contents.length = r.count := by
  simp [Ring.contents, ringList]

theorem count_eq_zero (hh : r.head < bufSize) (ht : r.tail < bufSize) : r.count = 0 ↔ r.tail = r.head := by
  unfold Ring.count bufSize at *
  omega

theorem next_lt (r : Ring) : r.next < bufSize := by
  unfold Ring.next bufSize
  omega

/-- The handler finds the ring full at 31 scancodes. -/
theorem next_eq_tail (hh : r.head < bufSize) (ht : r.tail < bufSize) : r.next = r.tail ↔ r.count = 31 := by
  unfold Ring.next Ring.count bufSize at *
  omega

theorem callback_contents (hh : r.head < bufSize) (ht : r.tail < bufSize) (sc : UInt8) (hroom : r.next ≠ r.tail) :
    (keyboardCallback sc r).contents = r.contents ++ [sc] := by
  have hfull := (next_eq_tail hh ht).not.mp hroom
  have hcount : r.count < bufSize := Nat.mod_lt _ (by decide)
  have hslot : (r.tail + r.count) % bufSize = r.head := by
    unfold Ring.count bufSize at *
    omega
  have hnext : (keyboardCallback sc r).count = r.count + 1 := by
    rw [keyboardCallback, if_pos hroom]
    simp only [Ring.next, Ring.count, bufSize] at *
    omega
  rw [Ring.contents, hnext]
  simp only [keyboardCallback, if_pos hroom]
  rw [← hslot, ringList_push r.buf sc hcount, Ring.contents]

theorem callback_tail (sc : UInt8) (hne : r.tail ≠ r.head) : (keyboardCallback sc r).buf r.tail = r.buf r.tail := by
  unfold keyboardCallback
  split_ifs
  · exact Function.update_of_ne hne _ _
  · rfl

theorem callback_head (hh : r.head < bufSize) (sc : UInt8) : (keyboardCallback sc r).head < bufSize := by
  unfold keyboardCallback
  split_ifs
  · exact next_lt r
  · exact hh

theorem callback_same_tail (sc : UInt8) : (keyboardCallback sc r).tail = r.tail := by
  unfold keyboardCallback
  split_ifs <;> rfl

theorem callback_nonempty (sc : UInt8) (hne : r.tail ≠ r.head) :
    (keyboardCallback sc r).tail ≠ (keyboardCallback sc r).head := by
  unfold keyboardCallback
  split_ifs with hroom
  · exact hroom.symm
  · exact hne

theorem advance_contents (hh : r.head < bufSize) (ht : r.tail < bufSize) (hne : r.tail ≠ r.head) :
    r.contents = r.buf r.tail :: r.advance.contents := by
  have hpos : 0 < r.count := Nat.pos_of_ne_zero ((count_eq_zero hh ht).not.mpr hne)
  have hcount : r.advance.count = r.count - 1 := by
    simp only [Ring.count, Ring.advance, bufSize] at *
    omega
  rw [Ring.contents, ringList_pop bufSize r.tail r.buf hpos, Nat.mod_eq_of_lt ht, Ring.contents, hcount]
  rfl

end

theorem KeyInv.irq {k : Keyboard} (h : KeyInv k) (sc : UInt8) : KeyInv (keyIrq sc k) where
  head := callback_head h.head sc
  tail := by
    rw [keyIrq, callback_same_tail]
    exact h.tail
  fifo := by
    simp only [keyIrq]
    split_ifs with hroom
    · rw [callback_contents h.head h.tail sc hroom, ← List.append_assoc, ← h.fifo]
    · rw [keyboardCallback, if_neg hroom]
      exact h.fifo
  nonempty hpc := callback_nonempty sc (h.nonempty hpc)
  latched x hpc := by
    have hne := h.nonempty (fun e => by rw [show k.pc = .advance x from hpc] at e; cases e)
    rw [keyIrq, callback_same_tail, callback_tail sc hne]
    exact h.latched x hpc

theorem KeyInv.pop {k : Keyboard} (h : KeyInv k) : KeyInv (keyboardPop k) := by
  unfold keyboardPop
  cases hpc : k.pc with
  | compare =>
    simp only
    split_ifs with hempty
    · exact h
    · exact ⟨h.head, h.tail, h.fifo, fun _ => hempty, fun _ he => by cases he⟩
  | read =>
    have hne := h.nonempty (by rw [hpc]; decide)
    exact ⟨h.head, h.tail, h.fifo, fun _ => hne, fun sc he => by cases he; rfl⟩
  | advance sc =>
    have hne := h.nonempty (by rw [hpc]; exact fun e => by cases e)
    refine ⟨h.head, Nat.mod_lt _ (by decide), ?_, fun he => absurd rfl he, fun _ he => by cases he⟩
    have hfront := advance_contents h.head h.tail hne
    rw [h.fifo, hfront, ← h.latched sc hpc]
    simp

theorem key_inv {k : Keyboard} (h : keySystem.Reachable k) : KeyInv k := by
  refine h.invariant (I := KeyInv) ?_ fun k e k' hk hn => ?_
  · intro k hinit
    obtain ⟨buf, rfl⟩ := hinit
    have hempty : (⟨buf, 0, 0⟩ : Ring).contents = [] := by simp [Ring.contents, Ring.count, bufSize]
    exact ⟨Nat.zero_lt_succ 31, Nat.zero_lt_succ 31, hempty.symm, fun hpc => absurd rfl hpc, fun _ he => by cases he⟩
  · cases e with
    | irq sc =>
      cases hn
      exact hk.irq sc
    | pop =>
      cases hn
      exact hk.pop

def bootKeyboard : Keyboard := ⟨⟨fun _ => 0, 0, 0⟩, .compare, [], []⟩

end Novium.Input
