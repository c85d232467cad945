import Novium.Arch.Isr

/-! What an interrupt leaves behind. `isr_common` takes its frame off again whatever the handler has done to the
registers, and also when the handler's task was switched away from in the middle of it, by `SchedPreempt`. -/

namespace Novium.Arch

open Novium.Lib Novium.Lib.X86

/-- The frame of the interrupt, above the argument of `isr_dispatch` and below the stack of what was interrupted, is
the same in both memories. -/
def KeepsFrame (c c' : Core) (mem mem' : ℕ → BitVec 32) : Prop :=
  ∀ w, wordOf (c'.gpr .esp) < w → w < wordOf (c.gpr .esp) → mem' w = mem w

/-- `isr_dispatch` has returned: the stack is where it was, the frame is untouched, and NT, which C code has no means to
set, is clear. -/
structure Returned (c c' d : Core) : Prop where
  esp : d.gpr .esp = c'.gpr .esp
  frame : KeepsFrame c c' c'.mem d.mem
  nested : d.eflags.nested = false

variable {c c' d : Core} {r : Registers}

theorem isr_returns (P : SegPush) (hc : Calls c c' r) (hs : r.Saves c) (hd : Returned c c' d) :
    (d.run P isrReturn).iret = some { c with toMachine := { c.toMachine with mem := d.mem } } := by
  have hesp := hc.esp
  have hword := hc.word
  rw [List.length_cons, show r.words.length = 17 from rfl] at hesp hword
  refine hs.returns (by rw [hd.esp]; omega) ?_ hd.nested
  rw [hd.esp]
  refine hc.lies.2.congr fun w hlo hhi => hd.frame w (by omega) ?_
  rw [show r.words.length = 17 from rfl] at hhi
  omega

/-- An interrupt is invisible to what it interrupts: behind `iret` all registers, selectors, flags and the stack are
back, and memory is as the handler left it; up to the call of `isr_dispatch` only the stack below has been written. -/
theorem interrupt_transparent (P : SegPush) (stubTable : ℕ → BitVec 32) (stubPlaceholder : BitVec 32)
    (idt : ℕ → IdtEntry) {vector : ℕ} {err : Option (BitVec 32)} (hv : vector < stubVectors)
    (herr : err.isSome = hasErrorCode vector) (hroom : 72 ≤ (c.gpr .esp).toNat) :
    ∃ c₁, interrupt P (idtInit stubTable stubPlaceholder idt) vector err c = some c₁ ∧
      (∀ w, wordOf (c.gpr .esp) ≤ w → (c₁.run P (isrStub vector ++ isrCommon)).mem w = c.mem w) ∧
      ∀ d, Returned c (c₁.run P (isrStub vector ++ isrCommon)) d →
        (d.run P isrReturn).iret = some { c with toMachine := { c.toMachine with mem := d.mem } } := by
  obtain ⟨c₁, r, hint, -, hc, hs, -⟩ := interrupt_enters P stubTable stubPlaceholder idt hv herr hroom
  exact ⟨c₁, hint, fun w hw => hc.mem w (.inr hw), fun d hd => isr_returns P hc hs hd⟩

theorem placeholder_transparent (P : SegPush) (stubTable : ℕ → BitVec 32) (stubPlaceholder : BitVec 32)
    (idt : ℕ → IdtEntry) {vector : ℕ} (hlo : stubVectors ≤ vector) (hhi : vector < intVectors)
    (hroom : 16 ≤ (c.gpr .esp).toNat) :
    ∃ c₁, interrupt P (idtInit stubTable stubPlaceholder idt) vector none c = some c₁ ∧ c₁.eip = stubPlaceholder ∧
      c₁.iret = some { c with toMachine := { c.toMachine with mem := c₁.mem } } ∧
      ∀ w, wordOf (c.gpr .esp) ≤ w → c₁.mem w = c.mem w := by
  set g : Gate := ⟨stubPlaceholder, 0x10#16, true⟩ with hg
  have hgate : interrupt P (idtInit stubTable stubPlaceholder idt) vector none c = some (c.deliver P g none) := by
    unfold intVectors at hhi
    rw [interrupt, if_pos (by unfold idtLimit intVectors; omega), idtInit_gate _ _ _ (by unfold intVectors; omega),
      if_neg (by omega)]
    rfl
  obtain ⟨cs', hcs, hp, hregs⟩ := deliver_spec P g none (c := c) hroom
  have hn := (deliver_cleared P g none c).2
  refine ⟨c.deliver P g none, hgate, rfl, ?_, fun w hw => hp.mem w (.inr hw)⟩
  set c₁ := c.deliver P g none
  clear_value c₁
  have hesp := hp.esp
  have hlt := (c.gpr .esp).isLt
  simp only [Option.toList_none, List.nil_append, List.length_cons, List.length_nil] at hesp
  have hword : ∀ i v, [c.eip, cs', c.eflags.bits][i]? = some v → c₁.word i = v := by
    intro i v hi
    have hlen : i < 3 := (List.getElem?_eq_some_iff.mp hi).1
    exact Core.word_of_lies hp.lies hi (by omega)
  have hgpr : (c₁.dropWords 3).gpr = c.gpr := by
    funext x
    by_cases hx : x = .esp
    · subst hx
      rw [Core.dropWords_esp]
      apply BitVec.eq_of_toNat_eq
      bv_omega
    · exact (c₁.toMachine.setReg_gpr_of_ne _ hx).trans (hregs.gpr x hx)
  rw [Core.iret, hn, if_neg (by decide), hword 0 _ rfl, hword 1 _ rfl, hword 2 _ rfl, Eflags.load_bits, hcs]
  simp only [Option.some.injEq, Core.mk.injEq, Machine.mk.injEq]
  exact ⟨⟨hgpr, trivial, trivial, rfl⟩, hregs.ecx, hregs.edx, trivial, hregs.seg⟩

variable {T D : Type*} [DecidableEq D]

/-- Task 0 of the two, interrupted with a few words on its stack. -/
def interrupted : Core where
  gpr r := if r = .esp then 0x7f0#32 else 0x55#32
  eflags := ⟨0x212#32, by decide⟩
  eip := 0x9000#32
  mem := started.machine.mem
  ecx := 0x1#32
  edx := 0x2#32
  cs := 0x10#16
  seg _ := 0x18#16

/-- The timer's interrupt, with stubs 16 bytes apart. -/
theorem interrupt_transparent_timer :
    ∃ c₁, interrupt .keepUpper (idtInit (fun n => BitVec.ofNat 32 (0x100000 + 16 * n)) 0x200000#32 fun _ => ⟨0, 0, 0, 0, 0⟩)
        32 none interrupted = some c₁ ∧
      ∀ d, Returned interrupted (c₁.run .keepUpper (isrStub 32 ++ isrCommon)) d →
        (d.run .keepUpper isrReturn).iret =
          some { interrupted with toMachine := { interrupted.toMachine with mem := d.mem } } := by
  obtain ⟨c₁, hint, -, hret⟩ := interrupt_transparent .keepUpper (fun n => BitVec.ofNat 32 (0x100000 + 16 * n)) 0x200000#32
    (fun _ => ⟨0, 0, 0, 0, 0⟩) (c := interrupted) (show 32 < stubVectors by decide)
    (show (none : Option (BitVec 32)).isSome = hasErrorCode 32 by decide) (by decide)
  exact ⟨c₁, hint, hret⟩

def dispatching : Core :=
  (interrupted.deliver .zeroExtend ⟨0x100200#32, 0x10#16, true⟩ none).run .zeroExtend (isrStub 32 ++ isrCommon)

/-- `SchedYield` has called `SchedSwitch` from inside the interrupt. -/
def handling : Cpu (Fin 2) (Fin 2) :=
  { started with
    machine := (({ bootCpu.machine with mem := dispatching.mem } : Machine).store 0x600#32 0x40#32).store 0x604#32 0xbe0#32 }

end Novium.Arch
