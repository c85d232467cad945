import Novium.Lib.X86

/-! Interrupts on a 32-bit x86 that stays in ring 0: the frame that the processor pushes for a gate,
the instructions of an entry and exit path, and the return. A stack grows by whole words, so what
code has pushed is a list, the last word first. -/

namespace Novium.Lib.X86

inductive Seg where
  | ds | es | fs | gs
  deriving DecidableEq

/-- The machine with the registers that an interrupt frame holds beside its own. -/
structure Core extends Machine where
  ecx : BitVec 32
  edx : BitVec 32
  cs : BitVec 16
  seg : Seg → BitVec 16

/-- The word that a push of a selector leaves where `old` was. Its lower half is the selector, its
upper half depends on the processor. -/
structure SegPush where
  word : BitVec 32 → BitVec 16 → BitVec 32
  low (old : BitVec 32) (sel : BitVec 16) : (word old sel).setWidth 16 = sel

namespace SegPush

def zeroExtend : SegPush where
  word _ sel := sel.setWidth 32
  low _ sel := by
    apply BitVec.eq_of_getLsbD_eq
    intro i hi
    simp only [BitVec.getLsbD_setWidth, hi, decide_true, Bool.true_and, Bool.and_eq_right_iff_imp]
    exact fun _ => decide_eq_true (by omega)

def keepUpper : SegPush where
  word old sel := (old &&& 0xffff0000#32) ||| sel.setWidth 32
  low old sel := by
    apply BitVec.eq_of_getLsbD_eq
    intro i hi
    have hmask : ∀ j : Fin 16, BitVec.getLsbD 0xffff0000#32 j.val = false := by decide
    rw [BitVec.getLsbD_setWidth, BitVec.getLsbD_or, BitVec.getLsbD_and, hmask ⟨i, hi⟩, BitVec.getLsbD_setWidth]
    have hi' : i < 32 := by omega
    simp [hi, hi']

end SegPush

namespace Eflags

def clear (f : Eflags) (mask : BitVec 32) : Eflags := f.load (f.bits &&& ~~~mask)

def flag (b : Bool) (i : ℕ) : BitVec 32 := if b then 1#32 <<< i else 0#32

/-- CF, PF, AF, ZF, SF and OF behind `addl`. -/
def add (f : Eflags) (a b : BitVec 32) : Eflags :=
  let r := a + b
  let parity := ((List.range 8).filter r.getLsbD).length % 2 = 0
  f.load ((f.bits &&& ~~~0x8d5#32) ||| flag (2 ^ 32 ≤ a.toNat + b.toNat) 0 ||| flag parity 2 |||
    flag (16 ≤ a.toNat % 16 + b.toNat % 16) 4 ||| flag (r = 0#32) 6 ||| flag r.msb 7 |||
    flag (a.msb = b.msb ∧ r.msb ≠ a.msb) 11)

def interrupts (f : Eflags) : Bool := f.bits.getLsbD 9

def down (f : Eflags) : Bool := f.bits.getLsbD 10

def nested (f : Eflags) : Bool := f.bits.getLsbD 14

theorem load_getLsbD (f : Eflags) (v : BitVec 32) {i : ℕ} (hi : flagMask.getLsbD i = true) :
    (f.load v).bits.getLsbD i = v.getLsbD i := by
  have hlt : i < 32 := BitVec.lt_of_getLsbD hi
  simp only [load, BitVec.getLsbD_or, BitVec.getLsbD_and, BitVec.getLsbD_not, hi, hlt, decide_true, Bool.not_true,
    Bool.and_false, Bool.and_true, Bool.false_or]

theorem clear_getLsbD (f : Eflags) (mask : BitVec 32) {i : ℕ} (hi : flagMask.getLsbD i = true) :
    (f.clear mask).bits.getLsbD i = (f.bits.getLsbD i && !mask.getLsbD i) := by
  have hlt : i < 32 := BitVec.lt_of_getLsbD hi
  rw [clear, load_getLsbD f _ hi, BitVec.getLsbD_and, BitVec.getLsbD_not, decide_eq_true hlt, Bool.true_and]

theorem add_nested (f : Eflags) (a b : BitVec 32) : (f.add a b).nested = f.nested := by
  have hflag : ∀ c : Bool, (flag c 0).getLsbD 14 = false ∧ (flag c 2).getLsbD 14 = false ∧
      (flag c 4).getLsbD 14 = false ∧ (flag c 6).getLsbD 14 = false ∧ (flag c 7).getLsbD 14 = false ∧
      (flag c 11).getLsbD 14 = false := by decide
  rw [nested, add, load_getLsbD f _ (by decide)]
  simp only [BitVec.getLsbD_or, BitVec.getLsbD_and, BitVec.getLsbD_not, hflag, Bool.or_false]
  rw [show BitVec.getLsbD 0x8d5#32 14 = false by decide, Bool.not_false, decide_eq_true (by decide), Bool.and_true,
    Bool.and_true]
  rfl

end Eflags

/-- A present gate of the interrupt descriptor table. -/
structure Gate where
  offset : BitVec 32
  selector : BitVec 16
  /-- An interrupt gate clears IF, a trap gate does not. -/
  interrupt : Bool

inductive TrapInstr where
  | pushImm (v : BitVec 32)
  | pushEsp
  | pusha
  | popa
  | pushSeg (s : Seg)
  | popSeg (s : Seg)
  | movAx (v : BitVec 16)
  | movSeg (s : Seg)
  | cld
  | addEsp (n : BitVec 32)

namespace Core

def push (c : Core) (v : BitVec 32) : Core := { c with toMachine := c.toMachine.push v }

def word (c : Core) (i : ℕ) : BitVec 32 := c.read (c.gpr .esp + BitVec.ofNat 32 (4 * i))

def dropWords (c : Core) (n : ℕ) : Core :=
  { c with toMachine := c.toMachine.setReg .esp (c.gpr .esp + BitVec.ofNat 32 (4 * n)) }

def pushSel (P : SegPush) (c : Core) (sel : BitVec 16) : Core :=
  c.push (P.word (c.read (c.gpr .esp - 4#32)) sel)

/-- The registers from the stack: EDI, ESI, EBP, one word that is skipped, EBX, EDX, ECX and EAX. -/
def popAll (c : Core) : Core :=
  let m := ((((c.toMachine.setReg .edi (c.word 0)).setReg .esi (c.word 1)).setReg .ebp (c.word 2)).setReg .ebx
    (c.word 4)).setReg .eax (c.word 7)
  { c with toMachine := m.setReg .esp (c.gpr .esp + 32#32), edx := c.word 5, ecx := c.word 6 }

def exec (P : SegPush) (c : Core) : TrapInstr → Core
  | .pushImm v => c.push v
  | .pushEsp => c.push (c.gpr .esp)
  | .pusha => [c.gpr .eax, c.ecx, c.edx, c.gpr .ebx, c.gpr .esp, c.gpr .ebp, c.gpr .esi, c.gpr .edi].foldl push c
  | .popa => c.popAll
  | .pushSeg s => c.pushSel P (c.seg s)
  | .popSeg s => { c.dropWords 1 with seg := Function.update c.seg s ((c.word 0).setWidth 16) }
  | .movAx v =>
    { c with toMachine := c.toMachine.setReg .eax ((c.gpr .eax &&& 0xffff0000#32) ||| v.setWidth 32) }
  | .movSeg s => { c with seg := Function.update c.seg s ((c.gpr .eax).setWidth 16) }
  | .cld => { c with toMachine := { c.toMachine with eflags := c.eflags.clear 0x400#32 } }
  | .addEsp n =>
    { c with toMachine :=
        { c.toMachine.setReg .esp (c.gpr .esp + n) with eflags := c.eflags.add (c.gpr .esp) n } }

def run (P : SegPush) (code : List TrapInstr) (c : Core) : Core := code.foldl (exec P) c

/-- The processor goes through the gate: EFLAGS, CS, EIP and the error code of the vector, if it has
one, are pushed; RF, NT, TF and, at an interrupt gate, IF are cleared. -/
def deliver (P : SegPush) (g : Gate) (err : Option (BitVec 32)) (c : Core) : Core :=
  let c₁ := ((c.push c.eflags.image).pushSel P c.cs).push c.eip
  let c₂ := err.elim c₁ c₁.push
  { c₂ with
    cs := g.selector
    toMachine := { c₂.toMachine with
      eip := g.offset
      eflags := (c.eflags.clear 0x4100#32).clear (if g.interrupt then 0x200#32 else 0#32) } }

/-- The return to the same ring; with NT set it would be a return to another hardware task. -/
def iret (c : Core) : Option Core :=
  if c.eflags.nested then none
  else
    some { c.dropWords 3 with
      cs := (c.word 1).setWidth 16
      toMachine := { (c.dropWords 3).toMachine with eip := c.word 0, eflags := c.eflags.load (c.word 2) } }

theorem run_append (P : SegPush) (l l' : List TrapInstr) (c : Core) : c.run P (l ++ l') = (c.run P l).run P l' :=
  List.foldl_append

end Core

/-- `m'` has the words `ws` on the stack of `m`, and the memory elsewhere is that of `m`. -/
structure Stacked (ws : List (BitVec 32)) (m m' : Machine) : Prop where
  esp : (m'.gpr .esp).toNat + 4 * ws.length = (m.gpr .esp).toNat
  lies : Lies m'.mem (wordOf (m'.gpr .esp)) ws
  mem (w : ℕ) : w + ws.length < wordOf (m.gpr .esp) ∨ wordOf (m.gpr .esp) ≤ w → m'.mem w = m.mem w

namespace Stacked

variable {ws us : List (BitVec 32)} {m m' m'' : Machine}

theorem keep (hesp : m'.gpr .esp = m.gpr .esp) (hmem : m'.mem = m.mem) : Stacked [] m m' where
  esp := by rw [hesp]; rfl
  lies := trivial
  mem w _ := by rw [hmem]

theorem word (h : Stacked ws m m') : wordOf (m'.gpr .esp) + ws.length = wordOf (m.gpr .esp) := by
  have := h.esp
  unfold wordOf
  omega

theorem trans (h : Stacked ws m m') (h' : Stacked us m' m'') : Stacked (us ++ ws) m m'' where
  esp := by
    have := h.esp
    have := h'.esp
    rw [List.length_append]
    omega
  lies := by
    rw [Lies.append, h'.word]
    exact ⟨h'.lies, h.lies.congr fun w hw _ => h'.mem w (.inr hw)⟩
  mem w hw := by
    have hword := h.word
    rw [List.length_append] at hw
    rw [h'.mem w (by omega), h.mem w (by omega)]

theorem push (m : Machine) (v : BitVec 32) (hroom : 4 ≤ (m.gpr .esp).toNat) : Stacked [v] m (m.push v) := by
  have hp := m.push_pushed v hroom
  have hnone : Lies m.mem (wordOf (m.gpr .esp)) [] := trivial
  exact ⟨hp.esp, Machine.push_lies v hroom hnone, hp.mem⟩

theorem pushAll (vs : List (BitVec 32)) {c : Core} (hroom : 4 * vs.length ≤ (c.gpr .esp).toNat) :
    Stacked vs.reverse c.toMachine (vs.foldl Core.push c).toMachine := by
  induction vs generalizing c with
  | nil => exact .keep rfl rfl
  | cons v vs ih =>
    rw [List.length_cons] at hroom
    have hp := push c.toMachine v (by omega)
    have hesp := hp.esp
    simp only [List.length_cons, List.length_nil] at hesp
    rw [List.reverse_cons]
    exact hp.trans (ih (c := c.push v) (by change 4 * vs.length ≤ ((c.toMachine.push v).gpr .esp).toNat; omega))

end Stacked

namespace Core

theorem word_of_lies {c : Core} {ws : List (BitVec 32)} {v : BitVec 32} {i : ℕ} (h : Lies c.mem (wordOf (c.gpr .esp)) ws)
    (hi : ws[i]? = some v) (hlt : (c.gpr .esp).toNat + 4 * i < 2 ^ 32) : c.word i = v := by
  have hadd : (c.gpr .esp + BitVec.ofNat 32 (4 * i)).toNat = (c.gpr .esp).toNat + 4 * i := by
    rw [BitVec.toNat_add, BitVec.toNat_ofNat]
    omega
  rw [← h.get hi, word, Machine.read]
  refine congrArg c.mem ?_
  unfold wordOf
  omega

theorem dropWords_esp (c : Core) (n : ℕ) : (c.dropWords n).gpr .esp = c.gpr .esp + BitVec.ofNat 32 (4 * n) :=
  c.toMachine.setReg_gpr_self .esp _

end Core

end Novium.Lib.X86
