import Novium.Lib.Runs
import Mathlib.Data.Int.Basic
import Mathlib.Logic.Function.Basic

/-! The interrupt controllers and the handler table of `arch/x86_32/kernel/irq.c`. A port
keeps the last byte written to it, and the one at a data port is the mask register of its
controller. The slave's eight lines reach the processor through line 2 of the master. -/

namespace Novium.Arch

open Novium.Lib

def pic1Cmd : ℕ := 0x20
def pic1Data : ℕ := 0x21
def pic2Cmd : ℕ := 0xA0
def pic2Data : ℕ := 0xA1
def irqBase : ℕ := 0x20
def irqCount : ℕ := 16

/-- The machine as `irq.c` uses it: the two port instructions and the stores to `handlers`. -/
class Ports (σ : Type*) where
  outb (port : ℕ) (data : BitVec 8) (s : σ) : σ
  inb (port : ℕ) (s : σ) : BitVec 8
  setHandler (vec : ℕ) (h : BitVec 32) (s : σ) : σ

namespace Ports

variable {σ : Type*} [Ports σ]

def lineBit (line : ℕ) : BitVec 8 := 1#8 <<< (line &&& 7)

def dataPort (line : ℕ) : ℕ := if line < 8 then pic1Data else pic2Data

def cascadeLine : ℕ := 2

/-- `outb(port, inb(port) & ~bit)` -/
def unmask (line : ℕ) (s : σ) : σ := outb (dataPort line) (inb (dataPort line) s &&& ~~~lineBit line) s

/-- `outb(port, inb(port) | bit)` -/
def mask (line : ℕ) (s : σ) : σ := outb (dataPort line) (inb (dataPort line) s ||| lineBit line) s

/-- `irq_register` behind its tests. -/
def install (line : ℕ) (h : BitVec 32) (s : σ) : σ :=
  let s := unmask line (setHandler (irqBase + line) h s)
  if line ≥ 8 then unmask cascadeLine s else s

/-- `irq_unregister` behind its test. -/
def remove (line : ℕ) (s : σ) : σ := mask line (setHandler (irqBase + line) 0 s)

end Ports

open Ports

section

variable {σ : Type*} [Ports σ]

def picInit (s : σ) : σ :=
  let s := outb pic2Cmd 0x11 (outb pic1Cmd 0x11 s)
  let s := outb pic2Data (BitVec.ofNat 8 (irqBase + 8)) (outb pic1Data (BitVec.ofNat 8 irqBase) s)
  let s := outb pic2Data 0x02 (outb pic1Data 0x04 s)
  let s := outb pic2Data 0x01 (outb pic1Data 0x01 s)
  outb pic2Data 0xFF (outb pic1Data 0xFF s)

def irqRegister (irq : ℤ) (h : BitVec 32) (s : σ) : σ :=
  if irq < 0 ∨ irq ≥ irqCount ∨ h = 0 then s else install irq.toNat h s

def irqUnregister (irq : ℤ) (s : σ) : σ := if irq < 0 ∨ irq ≥ irqCount then s else remove irq.toNat s

end

structure Pic where
  ports : ℕ → BitVec 8
  /-- The `irq_handler_t` of each vector; 0 is null. -/
  handlers : ℕ → BitVec 32

instance : Ports Pic where
  outb port data p := { p with ports := Function.update p.ports port data }
  inb port p := p.ports port
  setHandler vec h p := { p with handlers := Function.update p.handlers vec h }

inductive PicCall where
  | register (irq : ℤ) (h : BitVec 32)
  | unregister (irq : ℤ)

/-- Any calls behind `pic_init`, which the boot code makes before anybody registers. -/
def picSystem : System Pic PicCall where
  init p := ∃ boot : Pic, (∀ v, boot.handlers v = 0) ∧ p = picInit boot
  next p
    | .register irq h => some (irqRegister irq h p)
    | .unregister irq => some (irqUnregister irq p)

namespace Pic

def handler (p : Pic) (line : ℕ) : BitVec 32 := p.handlers (irqBase + line)

def masked (p : Pic) (line : ℕ) : Bool := (p.ports (dataPort line)).getLsbD (line % 8)

/-- An interrupt on a line with a handler gets through, and no other does. -/
structure Deliverable (p : Pic) : Prop where
  registered : ∀ line < irqCount, p.handler line ≠ 0 → p.masked line = false
  cascade : ∀ line < irqCount, 8 ≤ line → p.handler line ≠ 0 → p.masked cascadeLine = false
  others : ∀ line < irqCount, line ≠ cascadeLine → p.handler line = 0 → p.masked line = true

end Pic

/-- Line 2 is not taken away while the slave has a handler to serve. -/
def KeepsCascade (p : Pic) : PicCall → Prop
  | .register _ _ => True
  | .unregister irq => irq = cascadeLine → ∀ line < irqCount, 8 ≤ line → p.handler line = 0

instance (p : Pic) : (e : PicCall) → Decidable (KeepsCascade p e)
  | .register _ _ => inferInstanceAs (Decidable True)
  | .unregister _ => inferInstanceAs (Decidable (_ → _))

theorem getLsbD_lineBit {i j : ℕ} (hj : j < 8) : (lineBit i).getLsbD j = decide (i % 8 = j) := by
  have hi : i &&& 7 = i % 8 := Nat.and_two_pow_sub_one_eq_mod i 3
  rw [lineBit, hi]
  have key : ∀ a b : Fin 8, (1#8 <<< a.val).getLsbD b.val = decide (a.val = b.val) := by decide
  exact key ⟨i % 8, by omega⟩ ⟨j, hj⟩

theorem same_line {i j : ℕ} (hi : i < irqCount) (hj : j < irqCount) :
    dataPort j = dataPort i ∧ i % 8 = j % 8 ↔ j = i := by
  unfold irqCount at hi hj
  unfold dataPort pic1Data pic2Data
  split_ifs <;> simp <;> omega

namespace Pic

variable (p : Pic)

theorem outb_masked (port : ℕ) (data : BitVec 8) (line : ℕ) :
    (outb port data p).masked line = if dataPort line = port then data.getLsbD (line % 8) else p.masked line := by
  show (Function.update p.ports port data (dataPort line)).getLsbD (line % 8) = _
  rw [Function.update_apply]
  split_ifs <;> rfl

theorem setHandler_handler (i : ℕ) (h : BitVec 32) (line : ℕ) :
    (setHandler (irqBase + i) h p).handler line = if line = i then h else p.handler line := by
  show Function.update p.handlers (irqBase + i) h (irqBase + line) = _
  rw [Function.update_apply]
  exact if_congr Nat.add_left_cancel_iff rfl rfl

theorem unmask_masked {i j : ℕ} (hi : i < irqCount) (hj : j < irqCount) :
    (unmask i p).masked j = if j = i then false else p.masked j := by
  have hsame := same_line hi hj
  rw [unmask, outb_masked, BitVec.getLsbD_and, BitVec.getLsbD_not, getLsbD_lineBit (Nat.mod_lt _ (by decide))]
  by_cases hport : dataPort j = dataPort i
  · rw [if_pos hport]
    by_cases hbit : i % 8 = j % 8
    · rw [if_pos (hsame.mp ⟨hport, hbit⟩)]
      simp [hbit]
    · rw [if_neg fun e => hbit (hsame.mpr e).2]
      simp [hbit, masked, hport, inb, Nat.mod_lt j (show 0 < 8 by decide)]
  · rw [if_neg hport, if_neg fun e => hport (hsame.mpr e).1]

theorem mask_masked {i j : ℕ} (hi : i < irqCount) (hj : j < irqCount) :
    (mask i p).masked j = if j = i then true else p.masked j := by
  have hsame := same_line hi hj
  rw [mask, outb_masked, BitVec.getLsbD_or, getLsbD_lineBit (Nat.mod_lt _ (by decide))]
  by_cases hport : dataPort j = dataPort i
  · rw [if_pos hport]
    by_cases hbit : i % 8 = j % 8
    · rw [if_pos (hsame.mp ⟨hport, hbit⟩)]
      simp [hbit]
    · rw [if_neg fun e => hbit (hsame.mpr e).2]
      simp [hbit, masked, hport, inb]
  · rw [if_neg hport, if_neg fun e => hport (hsame.mpr e).1]

theorem install_handler (i : ℕ) (h : BitVec 32) (line : ℕ) :
    (install i h p).handler line = if line = i then h else p.handler line := by
  rw [← setHandler_handler p]
  unfold install
  simp only
  split_ifs <;> rfl

theorem install_masked {i j : ℕ} (hi : i < irqCount) (hj : j < irqCount) (h : BitVec 32) :
    (install i h p).masked j = if j = i ∨ (8 ≤ i ∧ j = cascadeLine) then false else p.masked j := by
  have h2 : cascadeLine < irqCount := by decide
  have hset : (setHandler (irqBase + i) h p).masked j = p.masked j := rfl
  unfold install
  simp only
  by_cases h8 : i ≥ 8
  · rw [if_pos h8, unmask_masked _ h2 hj, unmask_masked _ hi hj, hset]
    by_cases hc : j = cascadeLine
    · rw [if_pos hc, if_pos (Or.inr ⟨h8, hc⟩)]
    · simp [hc]
  · rw [if_neg h8, unmask_masked _ hi hj, hset]
    simp [h8]

theorem remove_handler (i line : ℕ) : (remove i p).handler line = if line = i then 0 else p.handler line :=
  setHandler_handler p i 0 line

theorem remove_masked {i j : ℕ} (hi : i < irqCount) (hj : j < irqCount) :
    (remove i p).masked j = if j = i then true else p.masked j :=
  mask_masked (setHandler (irqBase + i) 0 p) hi hj

variable {p}

theorem deliverable_init {boot : Pic} (hnone : ∀ v, boot.handlers v = 0) : (picInit boot).Deliverable := by
  have hmask : ∀ line < irqCount, (picInit boot).masked line = true := by
    intro line hline
    have hbit : ∀ i : Fin 8, (0xFF#8).getLsbD i.val = true := by decide
    have hfull := hbit ⟨line % 8, Nat.mod_lt _ (by decide)⟩
    unfold picInit
    rw [outb_masked, outb_masked]
    by_cases h8 : line < 8
    · rw [if_neg (by rw [dataPort, if_pos h8]; decide), if_pos (by rw [dataPort, if_pos h8])]
      exact hfull
    · rw [if_pos (by rw [dataPort, if_neg h8])]
      exact hfull
  have hhandler : ∀ line, (picInit boot).handler line = 0 := fun line => hnone _
  exact ⟨fun line _ h => absurd (hhandler line) h, fun line _ _ h => absurd (hhandler line) h,
    fun line hline _ _ => hmask line hline⟩

theorem Deliverable.install {i : ℕ} {h : BitVec 32} (hp : p.Deliverable) (hi : i < irqCount) (hh : h ≠ 0) :
    (install i h p).Deliverable := by
  have h2 : cascadeLine < irqCount := by decide
  refine ⟨fun line hline hset => ?_, fun line hline h8 hset => ?_, fun line hline hne hnone => ?_⟩
  · rw [install_masked _ hi hline]
    rw [install_handler] at hset
    split_ifs with hc
    · rfl
    · rw [if_neg fun e => hc (Or.inl e)] at hset
      exact hp.registered line hline hset
  · rw [install_masked _ hi h2]
    rw [install_handler] at hset
    split_ifs with hc
    · rfl
    · have hli : line ≠ i := fun e => hc (Or.inr ⟨e ▸ h8, rfl⟩)
      rw [if_neg hli] at hset
      exact hp.cascade line hline h8 hset
  · rw [install_handler] at hnone
    have hli : line ≠ i := fun e => hh (by rwa [if_pos e] at hnone)
    rw [if_neg hli] at hnone
    rw [install_masked _ hi hline, if_neg fun hc => hc.elim hli fun h => hne h.2]
    exact hp.others line hline hne hnone

theorem Deliverable.remove_iff {i : ℕ} (hp : p.Deliverable) (hi : i < irqCount) :
    (remove i p).Deliverable ↔ (i = cascadeLine → ∀ line < irqCount, 8 ≤ line → p.handler line = 0) := by
  have h2 : cascadeLine < irqCount := by decide
  constructor
  · intro hp' hi2 line hline h8
    by_contra hset
    have hline2 : line ≠ i := by
      unfold cascadeLine at hi2
      omega
    have := hp'.cascade line hline h8 (by rwa [remove_handler, if_neg hline2])
    rw [remove_masked _ hi h2, if_pos hi2.symm] at this
    cases this
  · intro hkeep
    refine ⟨fun line hline hset => ?_, fun line hline h8 hset => ?_, fun line hline hne hnone => ?_⟩
    · rw [remove_handler] at hset
      have hli : line ≠ i := fun e => hset (if_pos e)
      rw [if_neg hli] at hset
      rw [remove_masked _ hi hline, if_neg hli]
      exact hp.registered line hline hset
    · rw [remove_handler] at hset
      have hli : line ≠ i := fun e => hset (if_pos e)
      rw [if_neg hli] at hset
      have hi2 : cascadeLine ≠ i := fun e => hset (hkeep e.symm line hline h8)
      rw [remove_masked _ hi h2, if_neg hi2]
      exact hp.cascade line hline h8 hset
    · rw [remove_masked _ hi hline]
      rw [remove_handler] at hnone
      split_ifs with hli
      · rfl
      · rw [if_neg hli] at hnone
        exact hp.others line hline hne hnone

end Pic

/-- What a call does: nothing, because it names no line or no handler, or it installs a handler, or it removes one. -/
inductive PicChange (p : Pic) : PicCall → Pic → Prop where
  | register {irq : ℤ} {h : BitVec 32} (bad : irq < 0 ∨ irq ≥ irqCount ∨ h = 0) : PicChange p (.register irq h) p
  | install {line : ℕ} {h : BitVec 32} (bound : line < irqCount) (set : h ≠ 0) :
      PicChange p (.register line h) (install line h p)
  | unregister {irq : ℤ} (bad : irq < 0 ∨ irq ≥ irqCount) : PicChange p (.unregister irq) p
  | remove {line : ℕ} (bound : line < irqCount) : PicChange p (.unregister line) (remove line p)

theorem next_change {p p' : Pic} {e : PicCall} (hn : picSystem.next p e = some p') : PicChange p e p' := by
  cases e with
  | register irq h =>
    obtain rfl : irqRegister irq h p = p' := Option.some.inj hn
    unfold irqRegister
    split_ifs with hbad
    · exact .register hbad
    · obtain ⟨line, rfl⟩ : ∃ line : ℕ, irq = line := ⟨irq.toNat, by omega⟩
      exact .install (by omega) fun h0 => hbad (Or.inr (Or.inr h0))
  | unregister irq =>
    obtain rfl : irqUnregister irq p = p' := Option.some.inj hn
    unfold irqUnregister
    split_ifs with hbad
    · exact .unregister hbad
    · obtain ⟨line, rfl⟩ : ∃ line : ℕ, irq = line := ⟨irq.toNat, by omega⟩
      exact .remove (by omega)

/-- A step keeps the law exactly if it meets the condition. -/
theorem next_deliverable_iff {p p' : Pic} {e : PicCall} (hp : p.Deliverable) (hn : picSystem.next p e = some p') :
    p'.Deliverable ↔ KeepsCascade p e := by
  cases next_change hn with
  | register _ => exact ⟨fun _ => trivial, fun _ => hp⟩
  | install hb hh => exact ⟨fun _ => trivial, fun _ => hp.install hb hh⟩
  | @unregister irq hbad =>
    refine ⟨fun _ h2 => ?_, fun _ => hp⟩
    -- line 2 is a line
    rw [h2] at hbad
    exact absurd hbad (by decide)
  | @remove line hb =>
    rw [hp.remove_iff hb]
    exact ⟨fun h h2 => h (Int.ofNat.inj h2), fun h h2 => h (congrArg Int.ofNat h2)⟩

/-- Lines with a handler are delivered and the others are not, in every run that leaves line 2 alone while the slave
has a handler; and a call that does not leave it alone breaks this. -/
theorem lines_deliverable {p : Pic} (h : picSystem.ReachableIf KeepsCascade p) :
    p.Deliverable ∧ ∀ e p', picSystem.next p e = some p' → (p'.Deliverable ↔ KeepsCascade p e) := by
  have hp : p.Deliverable := by
    refine h.invariant (I := Pic.Deliverable) ?_ fun p e p' hp hok hn => (next_deliverable_iff hp hn).mpr hok
    intro p hinit
    obtain ⟨boot, hnone, rfl⟩ := hinit
    exact Pic.deliverable_init hnone
  exact ⟨hp, fun e p' hn => next_deliverable_iff hp hn⟩

def bootPic : Pic := ⟨fun _ => 0, fun _ => 0⟩

theorem picSystem_init : picSystem.init (picInit bootPic) := ⟨bootPic, fun _ => rfl, rfl⟩

/-- A timer, a mouse on line 12, and line 2 taken and given back before the mouse came. -/
theorem lines_deliverable_mouse : ∃ p, picSystem.ReachableIf KeepsCascade p ∧ p.handler 12 ≠ 0 ∧ p.handler 0 ≠ 0 ∧
    p.Deliverable := by
  obtain ⟨p, -, hr, ht⟩ := System.exists_reachableIf KeepsCascade picSystem_init
    [.register 2 5, .unregister 2, .register 0 7, .register 12 9, .unregister 16]
    (fun p => p.handler 12 ≠ 0 ∧ p.handler 0 ≠ 0) (by decide)
  obtain ⟨h12, h0⟩ := of_decide_eq_true ht
  exact ⟨p, hr, h12, h0, (lines_deliverable hr).1⟩

/-- Unregistering line 2 cuts the mouse off. -/
theorem line_not_deliverable : ∃ p, picSystem.Reachable p ∧ p.handler 12 ≠ 0 ∧ ¬p.Deliverable := by
  obtain ⟨p, -, hr, ht⟩ := System.exists_reachableIf (fun _ _ => True) picSystem_init [.register 12 9, .unregister 2]
    (fun p => p.handler 12 ≠ 0 ∧ p.masked cascadeLine = true) (by decide)
  obtain ⟨h12, hmask⟩ := of_decide_eq_true ht
  refine ⟨p, hr, h12, fun hp => ?_⟩
  rw [hp.cascade 12 (by decide) (by decide) h12] at hmask
  cases hmask

end Novium.Arch
