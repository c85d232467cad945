import Mathlib.Algebra.Group.Nat.Defs
import Mathlib.Data.List.Nodup
import Mathlib.Logic.Function.Basic
import Mathlib.Tactic.Common

/-! The instructions a stack switch is made of, on a 32-bit x86 in ring 0. Memory is
addressed by words: an address names the word it lies in, and the words of a stack are
numbered upward. -/

namespace Novium.Lib.X86

inductive Reg where
  | eax | ebx | esi | edi | ebp | esp
  deriving DecidableEq

/-- The flags that `popfl` writes; it leaves the others as they are. -/
def flagMask : BitVec 32 := 0x247fd5#32

/-- EFLAGS between two instructions outside virtual-8086 mode: bit 1 is set, the
reserved bits, RF, VM, VIF and VIP are clear. -/
@[ext] structure Eflags where
  bits : BitVec 32
  fixed : bits &&& ~~~flagMask = 0x2#32
  deriving DecidableEq

structure Machine where
  gpr : Reg → BitVec 32
  eflags : Eflags
  eip : BitVec 32
  mem : ℕ → BitVec 32

inductive Instr where
  | pushfl
  | popfl
  | ret
  | pushl (r : Reg)
  | popl (r : Reg)
  | load (disp : BitVec 32) (base dst : Reg)
  | store (src base : Reg)

def wordOf (a : BitVec 32) : ℕ := a.toNat / 4

def storeWord (mem : ℕ → BitVec 32) (a v : BitVec 32) : ℕ → BitVec 32 := Function.update mem (wordOf a) v

namespace Eflags

/-- What `pushfl` stores: the flags with RF and VM cleared. -/
def image (f : Eflags) : BitVec 32 := f.bits &&& 0xfcffff#32

theorem and_not_or_and (b v k : BitVec 32) : ((b &&& ~~~k) ||| (v &&& k)) &&& ~~~k = b &&& ~~~k := by
  apply BitVec.eq_of_getLsbD_eq
  intro i hi
  simp only [BitVec.getLsbD_and, BitVec.getLsbD_or, BitVec.getLsbD_not, hi, decide_true, Bool.true_and]
  cases b.getLsbD i <;> cases v.getLsbD i <;> cases k.getLsbD i <;> rfl

def load (f : Eflags) (v : BitVec 32) : Eflags where
  bits := (f.bits &&& ~~~flagMask) ||| (v &&& flagMask)
  fixed := by rw [and_not_or_and, f.fixed]

theorem image_eq (f : Eflags) : f.image = f.bits := by
  have h0 : f.bits &&& ~~~0xfcffff#32 = 0#32 := by
    rw [show ~~~0xfcffff#32 = ~~~flagMask &&& ~~~0xfcffff#32 by decide, ← BitVec.and_assoc, f.fixed]
    decide
  apply BitVec.eq_of_getLsbD_eq
  intro i hi
  have hi' := congrArg (BitVec.getLsbD · i) h0
  simp only [BitVec.getLsbD_and, BitVec.getLsbD_not, hi, decide_true, Bool.true_and, BitVec.getLsbD_zero] at hi'
  rw [image, BitVec.getLsbD_and]
  revert hi'
  cases f.bits.getLsbD i <;> cases BitVec.getLsbD 0xfcffff#32 i <;> simp

/-- Flags that were pushed come back whole, whatever the flags are when they are popped. -/
theorem load_bits (f g : Eflags) : f.load g.bits = g := by
  apply Eflags.ext
  change (f.bits &&& ~~~flagMask) ||| (g.bits &&& flagMask) = g.bits
  rw [f.fixed, ← g.fixed]
  apply BitVec.eq_of_getLsbD_eq
  intro i hi
  simp only [BitVec.getLsbD_and, BitVec.getLsbD_or, BitVec.getLsbD_not, hi, decide_true, Bool.true_and]
  cases g.bits.getLsbD i <;> cases flagMask.getLsbD i <;> rfl

end Eflags

namespace Machine

def setReg (m : Machine) (r : Reg) (v : BitVec 32) : Machine := { m with gpr := Function.update m.gpr r v }

def store (m : Machine) (a v : BitVec 32) : Machine := { m with mem := storeWord m.mem a v }

def read (m : Machine) (a : BitVec 32) : BitVec 32 := m.mem (wordOf a)

def push (m : Machine) (v : BitVec 32) : Machine :=
  (m.setReg .esp (m.gpr .esp - 4#32)).store (m.gpr .esp - 4#32) v

/-- The word at the top of the stack, and the machine after it is taken off. -/
def pop (m : Machine) : BitVec 32 × Machine :=
  (m.read (m.gpr .esp), m.setReg .esp (m.gpr .esp + 4#32))

def exec (m : Machine) : Instr → Machine
  | .pushfl => m.push m.eflags.image
  | .popfl => { m.pop.2 with eflags := m.eflags.load m.pop.1 }
  | .ret => { m.pop.2 with eip := m.pop.1 }
  | .pushl r => m.push (m.gpr r)
  | .popl r => m.pop.2.setReg r m.pop.1
  | .load disp base dst => m.setReg dst (m.read (m.gpr base + disp))
  | .store src base => m.store (m.gpr base) (m.gpr src)

/-- Straight-line code; only `ret` sets `eip` to where the program continues. -/
def run (code : List Instr) (m : Machine) : Machine := code.foldl exec m

theorem setReg_gpr_self (m : Machine) (r : Reg) (v : BitVec 32) : (m.setReg r v).gpr r = v := by
  simp [setReg]

theorem setReg_gpr_of_ne (m : Machine) {r x : Reg} (v : BitVec 32) (h : x ≠ r) : (m.setReg r v).gpr x = m.gpr x := by
  simp [setReg, h]

theorem push_esp (m : Machine) (v : BitVec 32) : (m.push v).gpr .esp = m.gpr .esp - 4#32 :=
  m.setReg_gpr_self .esp _

theorem run_cons (i : Instr) (c : List Instr) (m : Machine) : m.run (i :: c) = (m.exec i).run c := rfl

theorem run_append (c d : List Instr) (m : Machine) : m.run (c ++ d) = (m.run c).run d := List.foldl_append

end Machine

/-- The words of the list lie in memory from the word `w` upward. -/
def Lies (mem : ℕ → BitVec 32) : ℕ → List (BitVec 32) → Prop
  | _, [] => True
  | w, v :: vs => mem w = v ∧ Lies mem (w + 1) vs

namespace Lies

theorem congr {mem mem' : ℕ → BitVec 32} {ws : List (BitVec 32)} {w : ℕ} (h : Lies mem w ws)
    (hm : ∀ x, w ≤ x → x < w + ws.length → mem' x = mem x) : Lies mem' w ws := by
  induction ws generalizing w with
  | nil => trivial
  | cons v vs ih =>
    rw [List.length_cons] at hm
    refine ⟨?_, ih h.2 fun x h1 h2 => hm x (by omega) (by omega)⟩
    rw [hm w (Nat.le_refl w) (by omega)]
    exact h.1

theorem get {mem : ℕ → BitVec 32} {ws : List (BitVec 32)} {v : BitVec 32} {w i : ℕ} (h : Lies mem w ws)
    (hi : ws[i]? = some v) : mem (w + i) = v := by
  induction ws generalizing w i with
  | nil => cases hi
  | cons u us ih =>
    cases i with
    | zero => exact h.1.trans (Option.some.inj hi)
    | succ i =>
      have hv := ih h.2 hi
      rwa [show w + 1 + i = w + (i + 1) by omega] at hv

theorem append {mem : ℕ → BitVec 32} {us vs : List (BitVec 32)} {w : ℕ} :
    Lies mem w (us ++ vs) ↔ Lies mem w us ∧ Lies mem (w + us.length) vs := by
  induction us generalizing w with
  | nil => simp [Lies]
  | cons u us ih =>
    rw [List.cons_append, Lies, Lies, ih, List.length_cons, and_assoc, show w + 1 + us.length = w + (us.length + 1) by omega]

end Lies

/-- `m'` is `m` with `n` more words on its stack. -/
structure Pushed (n : ℕ) (m m' : Machine) : Prop where
  esp : (m'.gpr .esp).toNat + 4 * n = (m.gpr .esp).toNat
  gpr (r : Reg) : r ≠ .esp → m'.gpr r = m.gpr r
  eflags : m'.eflags = m.eflags
  mem (w : ℕ) : w + n < wordOf (m.gpr .esp) ∨ wordOf (m.gpr .esp) ≤ w → m'.mem w = m.mem w

namespace Pushed

theorem refl (m : Machine) : Pushed 0 m m where
  esp := by omega
  gpr _ _ := rfl
  eflags := rfl
  mem _ _ := rfl

theorem trans {n k : ℕ} {m m' m'' : Machine} (h : Pushed n m m') (h' : Pushed k m' m'') : Pushed (n + k) m m'' where
  esp := by have := h.esp; have := h'.esp; omega
  gpr r hr := (h'.gpr r hr).trans (h.gpr r hr)
  eflags := h'.eflags.trans h.eflags
  mem w hw := by
    have he := h.esp
    have h1 : m''.mem w = m'.mem w := h'.mem w (by unfold wordOf at *; omega)
    exact h1.trans (h.mem w (by omega))

theorem word {n : ℕ} {m m' : Machine} (h : Pushed n m m') : wordOf (m'.gpr .esp) + n = wordOf (m.gpr .esp) := by
  have := h.esp
  unfold wordOf
  omega

end Pushed

namespace Machine

theorem push_pushed (m : Machine) (v : BitVec 32) (hroom : 4 ≤ (m.gpr .esp).toNat) : Pushed 1 m (m.push v) := by
  have hsub : (m.gpr .esp - 4#32).toNat = (m.gpr .esp).toNat - 4 := by bv_omega
  refine ⟨?_, fun r hr => m.setReg_gpr_of_ne _ hr, rfl, fun w hw => Function.update_of_ne ?_ _ _⟩
  · rw [push_esp, hsub]
    omega
  · unfold wordOf at *
    omega

theorem push_lies {m : Machine} {ws : List (BitVec 32)} (v : BitVec 32) (hroom : 4 ≤ (m.gpr .esp).toNat)
    (h : Lies m.mem (wordOf (m.gpr .esp)) ws) :
    Lies (m.push v).mem (wordOf ((m.push v).gpr .esp)) (v :: ws) := by
  have hp := m.push_pushed v hroom
  refine ⟨?_, ?_⟩
  · rw [push_esp]
    exact Function.update_self _ _ _
  · rw [hp.word]
    exact h.congr fun x hx _ => hp.mem x (.inr hx)

theorem run_pushl (rs : List Reg) {m : Machine} {ws : List (BitVec 32)} (hrs : .esp ∉ rs)
    (hroom : 4 * rs.length ≤ (m.gpr .esp).toNat) (h : Lies m.mem (wordOf (m.gpr .esp)) ws) :
    Pushed rs.length m (m.run (rs.map .pushl)) ∧
      Lies (m.run (rs.map .pushl)).mem (wordOf ((m.run (rs.map .pushl)).gpr .esp)) ((rs.map m.gpr).reverse ++ ws) := by
  induction rs generalizing m ws with
  | nil => exact ⟨.refl m, h⟩
  | cons r rs ih =>
    rw [List.length_cons] at hroom
    rw [List.mem_cons, not_or] at hrs
    have hp := m.push_pushed (m.gpr r) (by omega)
    have hl := push_lies (m.gpr r) (by omega) h
    have hr : rs.map (m.push (m.gpr r)).gpr = rs.map m.gpr :=
      List.map_congr_left fun x hx => hp.gpr x fun hx' => hrs.2 (hx' ▸ hx)
    obtain ⟨h1, h2⟩ := ih hrs.2 (by have := hp.esp; omega) hl
    refine ⟨?_, ?_⟩
    · rw [List.length_cons, Nat.add_comm]
      exact hp.trans h1
    · rw [hr] at h2
      rw [show (r :: rs).map m.gpr = m.gpr r :: rs.map m.gpr from rfl, List.reverse_cons, List.append_assoc]
      exact h2

theorem run_popl (rs : List Reg) {m : Machine} {vs : List (BitVec 32)} (hrs : rs.Nodup) (hesp : .esp ∉ rs)
    (hlen : vs.length = rs.length) (hroom : (m.gpr .esp).toNat + 4 * rs.length < 2 ^ 32)
    (h : Lies m.mem (wordOf (m.gpr .esp)) vs) :
    let m' := m.run (rs.map .popl)
    rs.map m'.gpr = vs ∧ (∀ r, r ∉ rs → r ≠ .esp → m'.gpr r = m.gpr r) ∧
      (m'.gpr .esp).toNat = (m.gpr .esp).toNat + 4 * rs.length ∧ m'.mem = m.mem ∧ m'.eflags = m.eflags := by
  induction rs generalizing m vs with
  | nil => exact ⟨(List.eq_nil_of_length_eq_zero hlen).symm, fun _ _ _ => rfl, rfl, rfl, rfl⟩
  | cons r rs ih =>
    obtain ⟨v, vs, rfl⟩ := List.exists_cons_of_length_eq_add_one hlen
    rw [List.length_cons] at hroom
    rw [List.mem_cons, not_or] at hesp
    rw [List.nodup_cons] at hrs
    set m₁ := m.exec (.popl r) with hm₁
    have hv : m.read (m.gpr .esp) = v := h.1
    have he : m₁.gpr .esp = m.gpr .esp + 4#32 := by
      rw [hm₁]
      exact (m.pop.2.setReg_gpr_of_ne _ hesp.1).trans (m.setReg_gpr_self .esp _)
    have he' : (m₁.gpr .esp).toNat = (m.gpr .esp).toNat + 4 := by
      rw [he]
      bv_omega
    have hw : wordOf (m₁.gpr .esp) = wordOf (m.gpr .esp) + 1 := by
      unfold wordOf
      omega
    have hlies : Lies m₁.mem (wordOf (m₁.gpr .esp)) vs := by
      rw [hw]
      exact h.2
    obtain ⟨h1, h2, h3, h4, h5⟩ := ih hrs.2 hesp.2 (by simpa using hlen) (by omega) hlies
    refine ⟨?_, ?_, ?_, h4, h5⟩
    · have hr : (m₁.run (rs.map .popl)).gpr r = v := by
        rw [h2 r hrs.1 (Ne.symm hesp.1), hm₁, ← hv]
        exact m.pop.2.setReg_gpr_self r _
      exact congrArg₂ List.cons hr h1
    · intro x hx hx'
      rw [List.mem_cons, not_or] at hx
      exact (h2 x hx.2 hx').trans ((m.pop.2.setReg_gpr_of_ne _ hx.1).trans (m.setReg_gpr_of_ne _ hx'))
    · change ((m₁.run (rs.map .popl)).gpr .esp).toNat = _
      rw [h3, he', List.length_cons]
      omega

end Machine

end Novium.Lib.X86
