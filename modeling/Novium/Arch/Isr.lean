import Novium.Arch.ContextSwitch
import Novium.Lib.Trap

/-! The way of an interrupt to `isr_dispatch` and back: the descriptor table of
`arch/x86_32/kernel/irq.c` and the stubs of `arch/x86_32/kernel/isr.S`. -/

namespace Novium.Arch

open Novium.Lib Novium.Lib.X86

/-- `struct idt_entry`, packed. -/
structure IdtEntry where
  offsetLow : BitVec 16
  selector : BitVec 16
  zero : BitVec 8
  typeAttr : BitVec 8
  offsetHigh : BitVec 16

def intVectors : ℕ := 256

def stubVectors : ℕ := 48

def idtSetGate (n : ℕ) (fn : BitVec 32) (idt : ℕ → IdtEntry) : ℕ → IdtEntry :=
  Function.update idt n
    ⟨(fn &&& 0xFFFF#32).setWidth 16, 0x10#16, 0#8, 0x8E#8, ((fn >>> 16) &&& 0xFFFF#32).setWidth 16⟩

def idtInit (stubTable : ℕ → BitVec 32) (stubPlaceholder : BitVec 32) (idt : ℕ → IdtEntry) : ℕ → IdtEntry :=
  let idt := (List.range stubVectors).foldl (fun idt i => idtSetGate i (stubTable i) idt) idt
  (List.range' stubVectors (intVectors - stubVectors)).foldl (fun idt i => idtSetGate i stubPlaceholder idt) idt

/-- `idtp.limit`, which is `sizeof(idt) - 1`. -/
def idtLimit : ℕ := 8 * intVectors - 1

/-- The eight bytes of an entry, the first one lowest. -/
def IdtEntry.bits (e : IdtEntry) : BitVec 64 := e.offsetHigh ++ (e.typeAttr ++ (e.zero ++ (e.selector ++ e.offsetLow)))

/-- How the processor reads a descriptor: it has to be present, and a 32-bit interrupt or trap gate. -/
def gateOf (d : BitVec 64) : Option Gate :=
  if d.getLsbD 47 ∧ d.getLsbD 44 = false ∧ d.extractLsb' 41 3 = 0b111#3 then
    some ⟨d.extractLsb' 48 16 ++ d.extractLsb' 0 16, d.extractLsb' 16 16, d.getLsbD 40 = false⟩
  else none

/-- An interrupt with this vector, and the error code that the processor has for it. -/
def interrupt (P : SegPush) (idt : ℕ → IdtEntry) (vector : ℕ) (err : Option (BitVec 32)) (c : Core) : Option Core :=
  if 8 * vector + 7 ≤ idtLimit then (gateOf (idt vector).bits).map fun g => c.deliver P g err else none

/-- The vectors whose stubs are `ISR_ERR`: the processor pushes an error code for them. -/
def hasErrorCode (vector : ℕ) : Bool := vector ∈ [8, 10, 11, 12, 13, 14, 17]

/-- `isr_stub_n` up to its jump. -/
def isrStub (vector : ℕ) : List TrapInstr :=
  if hasErrorCode vector then [.pushImm (BitVec.ofNat 32 vector)]
  else [.pushImm 0#32, .pushImm (BitVec.ofNat 32 vector)]

/-- `isr_common` up to the call of `isr_dispatch`. -/
def isrCommon : List TrapInstr :=
  [.pusha, .pushSeg .ds, .pushSeg .es, .pushSeg .fs, .pushSeg .gs,
    .movAx 0x18#16, .movSeg .ds, .movSeg .es, .movSeg .fs, .movSeg .gs, .cld, .pushEsp]

/-- `isr_common` behind the call, up to `iret`. -/
def isrReturn : List TrapInstr :=
  [.addEsp 4#32, .popSeg .gs, .popSeg .fs, .popSeg .es, .popSeg .ds, .popa, .addEsp 8#32]

/-- `struct registers` as far as an interrupt inside ring 0 fills it. -/
structure Registers where
  gs : BitVec 32
  fs : BitVec 32
  es : BitVec 32
  ds : BitVec 32
  edi : BitVec 32
  esi : BitVec 32
  ebp : BitVec 32
  esp : BitVec 32
  ebx : BitVec 32
  edx : BitVec 32
  ecx : BitVec 32
  eax : BitVec 32
  intNo : BitVec 32
  errCode : BitVec 32
  eip : BitVec 32
  cs : BitVec 32
  eflags : BitVec 32

def Registers.words (r : Registers) : List (BitVec 32) :=
  [r.gs, r.fs, r.es, r.ds, r.edi, r.esi, r.ebp, r.esp, r.ebx, r.edx, r.ecx, r.eax, r.intNo, r.errCode, r.eip, r.cs,
    r.eflags]

/-- The `struct registers` holds what the core `c` was interrupted with. -/
structure Registers.Saves (r : Registers) (c : Core) : Prop where
  seg : r.gs.setWidth 16 = c.seg .gs ∧ r.fs.setWidth 16 = c.seg .fs ∧ r.es.setWidth 16 = c.seg .es ∧
    r.ds.setWidth 16 = c.seg .ds
  gpr : r.edi = c.gpr .edi ∧ r.esi = c.gpr .esi ∧ r.ebp = c.gpr .ebp ∧ r.ebx = c.gpr .ebx ∧ r.edx = c.edx ∧
    r.ecx = c.ecx ∧ r.eax = c.gpr .eax
  eip : r.eip = c.eip
  cs : r.cs.setWidth 16 = c.cs
  eflags : r.eflags = c.eflags.bits

/-- Before the call of `isr_dispatch` the stack has the address of the `struct registers`, and then
the structure itself. -/
def Calls (c c' : Core) (r : Registers) : Prop :=
  Stacked ((c'.gpr .esp + 4#32) :: r.words) c.toMachine c'.toMachine

theorem foldl_idtSetGate (fn : ℕ → BitVec 32) (l : List ℕ) (idt : ℕ → IdtEntry) (n : ℕ) :
    l.foldl (fun idt i => idtSetGate i (fn i) idt) idt n = if n ∈ l then idtSetGate n (fn n) idt n else idt n := by
  induction l generalizing idt with
  | nil => rfl
  | cons a l ih =>
    rw [List.foldl_cons, ih]
    by_cases ha : n = a
    · subst ha
      simp [idtSetGate]
    · by_cases hl : n ∈ l <;> simp [hl, ha, idtSetGate]

theorem IdtEntry.bits_getLsbD (e : IdtEntry) (i : ℕ) :
    e.bits.getLsbD i =
      if i < 48 then
        if i < 40 then
          if i < 32 then if i < 16 then e.offsetLow.getLsbD i else e.selector.getLsbD (i - 16)
          else e.zero.getLsbD (i - 32)
        else e.typeAttr.getLsbD (i - 40)
      else e.offsetHigh.getLsbD (i - 48) := by
  simp only [bits, BitVec.getLsbD_append]

theorem gateOf_idtSetGate (n : ℕ) (fn : BitVec 32) (idt : ℕ → IdtEntry) :
    gateOf (idtSetGate n fn idt n).bits = some ⟨fn, 0x10#16, true⟩ := by
  have he : idtSetGate n fn idt n =
      ⟨(fn &&& 0xFFFF#32).setWidth 16, 0x10#16, 0#8, 0x8E#8, ((fn >>> 16) &&& 0xFFFF#32).setWidth 16⟩ :=
    Function.update_self ..
  have hmask : ∀ j : Fin 16, BitVec.getLsbD 0xFFFF#32 j.val = true := by decide
  set e := idtSetGate n fn idt n
  have htype : ∀ j, j < 8 → e.bits.getLsbD (40 + j) = BitVec.getLsbD 0x8E#8 j := by
    intro j hj
    rw [e.bits_getLsbD, if_pos (by omega), if_neg (by omega), he, Nat.add_sub_cancel_left]
  have hkind : e.bits.extractLsb' 41 3 = 0b111#3 := by
    apply BitVec.eq_of_getLsbD_eq
    intro i hi
    have key : ∀ j : Fin 3, BitVec.getLsbD 0x8E#8 (1 + j.val) = BitVec.getLsbD 0b111#3 j.val := by decide
    rw [BitVec.getLsbD_extractLsb', decide_eq_true hi, Bool.true_and, show 41 + i = 40 + (1 + i) by omega,
      htype _ (by omega)]
    exact key ⟨i, hi⟩
  have hsel : e.bits.extractLsb' 16 16 = 0x10#16 := by
    apply BitVec.eq_of_getLsbD_eq
    intro i hi
    rw [BitVec.getLsbD_extractLsb', decide_eq_true hi, Bool.true_and, e.bits_getLsbD, if_pos (by omega),
      if_pos (by omega), if_pos (by omega), if_neg (by omega), he, Nat.add_sub_cancel_left]
  have hoff : e.bits.extractLsb' 48 16 ++ e.bits.extractLsb' 0 16 = fn := by
    apply BitVec.eq_of_getLsbD_eq
    intro i hi
    rw [BitVec.getLsbD_append]
    by_cases hlow : i < 16
    · rw [if_pos hlow, BitVec.getLsbD_extractLsb', decide_eq_true hlow, Bool.true_and, Nat.zero_add, e.bits_getLsbD,
        if_pos (by omega), if_pos (by omega), if_pos (by omega), if_pos hlow, he]
      rw [BitVec.getLsbD_setWidth, decide_eq_true hlow, Bool.true_and, BitVec.getLsbD_and, hmask ⟨i, hlow⟩, Bool.and_true]
    · have hhigh : i - 16 < 16 := by omega
      rw [if_neg hlow, BitVec.getLsbD_extractLsb', decide_eq_true hhigh, Bool.true_and, e.bits_getLsbD,
        if_neg (by omega), he, Nat.add_sub_cancel_left]
      rw [BitVec.getLsbD_setWidth, decide_eq_true hhigh, Bool.true_and, BitVec.getLsbD_and, hmask ⟨i - 16, hhigh⟩,
        Bool.and_true, BitVec.getLsbD_ushiftRight, show 16 + (i - 16) = i by omega]
  rw [gateOf, if_pos ⟨htype 7 (by omega), htype 4 (by omega), hkind⟩, hoff, hsel,
    show e.bits.getLsbD 40 = false from htype 0 (by omega)]
  rfl
variable {c c' c'' : Core} {r : Registers} {vector : ℕ} {err : Option (BitVec 32)}

theorem isrReturn_eq (P : SegPush) (c : Core) :
    (c.run P isrReturn).iret =
      if c.eflags.nested then none
      else
        some
          { gpr := fun
              | .edi => c.word 5
              | .esi => c.word 6
              | .ebp => c.word 7
              | .ebx => c.word 9
              | .eax => c.word 12
              | .esp => c.gpr .esp + 72#32
            eflags := (c.run P isrReturn).eflags.load (c.word 17)
            eip := c.word 15
            mem := c.mem
            ecx := c.word 11
            edx := c.word 10
            cs := (c.word 16).setWidth 16
            seg := fun
              | .gs => (c.word 1).setWidth 16
              | .fs => (c.word 2).setWidth 16
              | .es => (c.word 3).setWidth 16
              | .ds => (c.word 4).setWidth 16 } := by
  have hn : (c.run P isrReturn).eflags.nested = c.eflags.nested := by
    change ((c.eflags.add _ _).add _ _).nested = _
    rw [Eflags.add_nested, Eflags.add_nested]
  rw [Core.iret, hn]
  split_ifs
  · rfl
  · congr 1
    simp only [Core.run, isrReturn, List.foldl, Core.exec, Core.popAll, Core.dropWords, Core.word, Machine.setReg,
      Machine.read, Core.mk.injEq, Machine.mk.injEq, Function.update_self, BitVec.add_assoc]
    refine ⟨⟨?_, rfl, rfl, trivial⟩, rfl, rfl, rfl, ?_⟩
    · funext x
      cases x <;> simp
    · funext x
      cases x <;> simp

/-- `isr_common` takes the frame off again, whatever the registers are when `isr_dispatch` returns. -/
theorem Registers.Saves.returns {d : Core} (h : r.Saves c) (hesp : (d.gpr .esp).toNat + 72 = (c.gpr .esp).toNat)
    (hl : Lies d.mem (wordOf (d.gpr .esp) + 1) r.words) (hn : d.eflags.nested = false) :
    (d.run P isrReturn).iret = some { c with toMachine := { c.toMachine with mem := d.mem } } := by
  have hlt := (c.gpr .esp).isLt
  have hword : ∀ i v, r.words[i]? = some v → d.word (i + 1) = v := by
    intro i v hi
    have hlen : i < r.words.length := (List.getElem?_eq_some_iff.mp hi).1
    rw [show r.words.length = 17 from rfl] at hlen
    have hall : Lies d.mem (wordOf (d.gpr .esp)) (d.word 0 :: r.words) := by
      refine ⟨?_, hl⟩
      rw [Core.word, BitVec.add_zero]
      rfl
    exact Core.word_of_lies hall (by rwa [List.getElem?_cons_succ]) (by omega)
  have hsp : d.gpr .esp + 72#32 = c.gpr .esp := by
    apply BitVec.eq_of_toNat_eq
    bv_omega
  obtain ⟨hgs, hfs, hes, hds⟩ := h.seg
  obtain ⟨hedi, hesi, hebp, hebx, hedx, hecx, heax⟩ := h.gpr
  rw [isrReturn_eq, hn, if_neg (by decide)]
  refine congrArg some ?_
  rw [hword 0 _ rfl, hword 1 _ rfl, hword 2 _ rfl, hword 3 _ rfl, hword 4 _ rfl, hword 5 _ rfl, hword 6 _ rfl,
    hword 8 _ rfl, hword 9 _ rfl, hword 10 _ rfl, hword 11 _ rfl, hword 14 _ rfl, hword 15 _ rfl, hword 16 _ rfl,
    h.eflags, Eflags.load_bits, h.eip, h.cs, hgs, hfs, hes, hds, hedi, hesi, hebp, hebx, hedx, hecx, heax, hsp]
  simp only [Core.mk.injEq, Machine.mk.injEq, and_true, true_and]
  refine ⟨?_, ?_⟩
  · funext x
    cases x <;> rfl
  · funext x
    cases x <;> rfl
structure SameRegs (c c' : Core) : Prop where
  gpr (x : Reg) : x ≠ .esp → c'.gpr x = c.gpr x
  ecx : c'.ecx = c.ecx
  edx : c'.edx = c.edx
  seg : c'.seg = c.seg

theorem SameRegs.refl (c : Core) : SameRegs c c := ⟨fun _ _ => rfl, rfl, rfl, rfl⟩

theorem SameRegs.trans (h : SameRegs c c') (h' : SameRegs c' c'') : SameRegs c c'' :=
  ⟨fun x hx => (h'.gpr x hx).trans (h.gpr x hx), h'.ecx.trans h.ecx, h'.edx.trans h.edx, h'.seg.trans h.seg⟩

theorem SameRegs.push (c : Core) (v : BitVec 32) : SameRegs c (c.push v) :=
  ⟨fun _ hx => c.toMachine.setReg_gpr_of_ne _ hx, rfl, rfl, rfl⟩

theorem SameRegs.pushAll (vs : List (BitVec 32)) (c : Core) :
    SameRegs c (vs.foldl Core.push c) := by
  induction vs generalizing c with
  | nil => exact .refl c
  | cons v vs ih => exact (SameRegs.push c v).trans (ih (c.push v))

theorem deliver_spec (P : SegPush) (g : Gate) (err : Option (BitVec 32)) (hroom : 16 ≤ (c.gpr .esp).toNat) :
    ∃ cs', cs'.setWidth 16 = c.cs ∧
      Stacked (err.toList ++ [c.eip, cs', c.eflags.bits]) c.toMachine (c.deliver P g err).toMachine ∧
      SameRegs c (c.deliver P g err) := by
  set cs' := P.word ((c.push c.eflags.image).read ((c.push c.eflags.image).gpr .esp - 4#32)) c.cs with hcs
  refine ⟨cs', P.low _ _, ?_⟩
  have h₁ := Stacked.pushAll (c := c) [c.eflags.image, cs', c.eip] (by simp only [List.length_cons, List.length_nil]; omega)
  have hs₁ := (SameRegs.pushAll [c.eflags.image, cs', c.eip] c)
  rw [Eflags.image_eq] at h₁ hs₁
  set c₁ := [c.eflags.bits, cs', c.eip].foldl Core.push c with hc₁
  have hdef : c.deliver P g err = { err.elim c₁ c₁.push with
      cs := g.selector
      toMachine := { (err.elim c₁ c₁.push).toMachine with
        eip := g.offset
        eflags := (c.eflags.clear 0x4100#32).clear (if g.interrupt then 0x200#32 else 0#32) } } := by
    rw [hc₁, hcs, Eflags.image_eq, Core.deliver, Eflags.image_eq]
    rfl
  have hesp := h₁.esp
  simp only [List.length_reverse, List.length_cons, List.length_nil] at hesp
  clear_value c₁ cs'
  rw [hdef]
  cases err with
  | none => exact ⟨⟨h₁.esp, h₁.lies, h₁.mem⟩, hs₁.gpr, hs₁.ecx, hs₁.edx, hs₁.seg⟩
  | some e =>
    have h := hs₁.trans (SameRegs.push c₁ e)
    have hp := h₁.trans (Stacked.push c₁.toMachine e (by omega))
    exact ⟨⟨hp.esp, hp.lies, hp.mem⟩, h.gpr, h.ecx, h.edx, h.seg⟩

theorem deliver_cleared (P : SegPush) (g : Gate) (err : Option (BitVec 32)) (c : Core) :
    (g.interrupt = true → (c.deliver P g err).eflags.interrupts = false) ∧ (c.deliver P g err).eflags.nested = false := by
  have hfl : (c.deliver P g err).eflags =
      (c.eflags.clear 0x4100#32).clear (if g.interrupt then 0x200#32 else 0#32) := rfl
  rw [hfl]
  refine ⟨fun hg => ?_, ?_⟩
  · rw [hg, if_pos rfl, Eflags.interrupts, Eflags.clear_getLsbD _ _ (by decide)]
    simp
  · rw [Eflags.nested, Eflags.clear_getLsbD _ _ (by decide), Eflags.clear_getLsbD _ _ (by decide)]
    simp

theorem isrStub_spec {ws : List (BitVec 32)} (P : SegPush) (h : Stacked (err.toList ++ ws) c.toMachine c'.toMachine)
    (hs : SameRegs c c') (herr : err.isSome = hasErrorCode vector) (hroom : 8 ≤ (c'.gpr .esp).toNat) :
    Stacked (BitVec.ofNat 32 vector :: err.getD 0#32 :: ws) c.toMachine (c'.run P (isrStub vector)).toMachine ∧
      SameRegs c (c'.run P (isrStub vector)) ∧ (c'.run P (isrStub vector)).cs = c'.cs ∧
      (c'.run P (isrStub vector)).eflags = c'.eflags := by
  rw [isrStub, ← herr]
  cases err with
  | none =>
    have hp := Stacked.pushAll (c := c') [0#32, BitVec.ofNat 32 vector] hroom
    exact ⟨h.trans hp, hs.trans (.pushAll [0#32, BitVec.ofNat 32 vector] c'), rfl, rfl⟩
  | some e =>
    have hp := Stacked.pushAll (c := c') [BitVec.ofNat 32 vector] (by simp only [List.length_cons, List.length_nil]; omega)
    exact ⟨h.trans hp, hs.trans (.pushAll [BitVec.ofNat 32 vector] c'), rfl, rfl⟩

theorem pushSegs_spec {ws : List (BitVec 32)} (P : SegPush) (xs : List Seg) (h : Stacked ws c.toMachine c'.toMachine)
    (hs : SameRegs c c') (hroom : 4 * xs.length ≤ (c'.gpr .esp).toNat) :
    ∃ sels : List (BitVec 32), sels.map (·.setWidth 16) = xs.map c.seg ∧
      Stacked (sels.reverse ++ ws) c.toMachine (c'.run P (xs.map .pushSeg)).toMachine ∧
      SameRegs c (c'.run P (xs.map .pushSeg)) := by
  induction xs generalizing c' ws with
  | nil => exact ⟨[], rfl, h, hs⟩
  | cons x xs ih =>
    rw [List.length_cons] at hroom
    set w := P.word (c'.read (c'.gpr .esp - 4#32)) (c'.seg x) with hw
    have hp := Stacked.push c'.toMachine w (by omega)
    have hesp := hp.esp
    simp only [List.length_cons, List.length_nil] at hesp
    have hroom' : 4 * xs.length ≤ ((c'.push w).gpr .esp).toNat := by
      change 4 * xs.length ≤ ((c'.toMachine.push w).gpr .esp).toNat
      omega
    obtain ⟨sels, h1, h2, h3⟩ := ih (h.trans hp) (hs.trans (.push c' w)) hroom'
    refine ⟨w :: sels, ?_, ?_, h3⟩
    · rw [List.map_cons, h1, hw, P.low, hs.seg, List.map_cons]
    · rw [List.reverse_cons, List.append_assoc]
      exact h2

theorem flat_spec (P : SegPush) (c : Core) :
    let c' := c.run P [.movAx 0x18#16, .movSeg .ds, .movSeg .es, .movSeg .fs, .movSeg .gs, .cld]
    c'.gpr .esp = c.gpr .esp ∧ c'.mem = c.mem ∧ ∀ x, c'.seg x = 0x18#16 := by
  have hax : (c.exec P (.movAx 0x18#16)).gpr .eax = (c.gpr .eax &&& 0xffff0000#32) ||| BitVec.setWidth 32 0x18#16 :=
    c.toMachine.setReg_gpr_self .eax _
  have hsel : ((c.exec P (.movAx 0x18#16)).gpr .eax).setWidth 16 = 0x18#16 := by
    rw [hax]
    exact SegPush.keepUpper.low (c.gpr .eax) 0x18#16
  refine ⟨rfl, rfl, fun x => ?_⟩
  cases x <;> exact hsel

theorem isrCommon_spec {ws : List (BitVec 32)} (P : SegPush) (h : Stacked ws c.toMachine c'.toMachine)
    (hs : SameRegs c c') (hroom : 52 ≤ (c'.gpr .esp).toNat) :
    ∃ gs fs es ds : BitVec 32,
      (gs.setWidth 16 = c.seg .gs ∧ fs.setWidth 16 = c.seg .fs ∧ es.setWidth 16 = c.seg .es ∧
        ds.setWidth 16 = c.seg .ds) ∧
      Stacked (((c'.run P isrCommon).gpr .esp + 4#32) :: gs :: fs :: es :: ds :: c.gpr .edi :: c.gpr .esi ::
        c.gpr .ebp :: c'.gpr .esp :: c.gpr .ebx :: c.edx :: c.ecx :: c.gpr .eax :: ws) c.toMachine
        (c'.run P isrCommon).toMachine ∧
      (∀ x, (c'.run P isrCommon).seg x = 0x18#16) ∧ (c'.run P isrCommon).cs = c'.cs ∧
      (c'.run P isrCommon).eflags = c'.eflags.clear 0x400#32 := by
  have hp₁ := h.trans (Stacked.pushAll (c := c')
    [c'.gpr .eax, c'.ecx, c'.edx, c'.gpr .ebx, c'.gpr .esp, c'.gpr .ebp, c'.gpr .esi, c'.gpr .edi]
    (by simp only [List.length_cons, List.length_nil]; omega))
  have hs₁ := hs.trans (.pushAll
    [c'.gpr .eax, c'.ecx, c'.edx, c'.gpr .ebx, c'.gpr .esp, c'.gpr .ebp, c'.gpr .esi, c'.gpr .edi] c')
  have hpusha : [c'.gpr .eax, c'.ecx, c'.edx, c'.gpr .ebx, c'.gpr .esp, c'.gpr .ebp, c'.gpr .esi,
      c'.gpr .edi].foldl Core.push c' = c'.exec P .pusha := rfl
  rw [hpusha, hs.gpr .eax (by decide), hs.gpr .ebx (by decide), hs.gpr .ebp (by decide), hs.gpr .esi (by decide),
    hs.gpr .edi (by decide), hs.ecx, hs.edx] at hp₁
  rw [hpusha] at hs₁
  have hrun : c'.run P isrCommon = ((((c'.exec P .pusha).run P ([Seg.ds, .es, .fs, .gs].map .pushSeg)).run P
      [.movAx 0x18#16, .movSeg .ds, .movSeg .es, .movSeg .fs, .movSeg .gs, .cld]).exec P .pushEsp) := rfl
  have hfl : (c'.run P isrCommon).eflags = c'.eflags.clear 0x400#32 := rfl
  have hcs : (c'.run P isrCommon).cs = c'.cs := rfl
  have hesp := h.esp
  have hesp₁ := hp₁.esp
  simp only [List.length_append, List.length_reverse, List.length_cons, List.length_nil] at hesp₁
  set c₁ := c'.exec P .pusha
  clear_value c₁
  obtain ⟨sels, hsels, hp₂, -⟩ := pushSegs_spec P [.ds, .es, .fs, .gs] hp₁ hs₁
    (by simp only [List.length_cons, List.length_nil]; omega)
  obtain ⟨ds, es, fs, gs, rfl⟩ : ∃ ds es fs gs, sels = [ds, es, fs, gs] :=
    List.length_eq_four.mp (by simpa using congrArg List.length hsels)
  obtain ⟨hds, hes, hfs, hgs, -⟩ : ds.setWidth 16 = c.seg .ds ∧ es.setWidth 16 = c.seg .es ∧
      fs.setWidth 16 = c.seg .fs ∧ gs.setWidth 16 = c.seg .gs ∧ True := by simpa using hsels
  have hesp₂ := hp₂.esp
  simp only [List.length_append, List.length_reverse, List.length_cons, List.length_nil] at hesp₂
  set c₂ := c₁.run P ([Seg.ds, .es, .fs, .gs].map .pushSeg)
  clear_value c₂
  obtain ⟨hsp, hmem, hseg⟩ := flat_spec P c₂
  set c₃ := c₂.run P [.movAx 0x18#16, .movSeg .ds, .movSeg .es, .movSeg .fs, .movSeg .gs, .cld]
  have hp₃ : Stacked _ c.toMachine c₃.toMachine :=
    ⟨by rw [hsp]; exact hp₂.esp, by rw [hsp, hmem]; exact hp₂.lies, fun w hw => by rw [hmem]; exact hp₂.mem w hw⟩
  clear_value c₃
  have hp₄ := hp₃.trans (Stacked.push c₃.toMachine (c₃.gpr .esp) (by rw [hsp]; omega))
  have htop : (c'.run P isrCommon).gpr .esp + 4#32 = c₃.gpr .esp := by
    rw [hrun]
    change (c₃.toMachine.push (c₃.gpr .esp)).gpr .esp + 4#32 = c₃.gpr .esp
    rw [Machine.push_esp]
    exact BitVec.sub_add_cancel _ _
  refine ⟨gs, fs, es, ds, ⟨hgs, hfs, hes, hds⟩, ?_, fun x => ?_, hcs, hfl⟩
  · rw [htop, hrun]
    exact hp₄
  · rw [hrun]
    exact hseg x
theorem idtInit_gate (stubTable : ℕ → BitVec 32) (stubPlaceholder : BitVec 32) (idt : ℕ → IdtEntry) (hv : vector < intVectors) :
    gateOf (idtInit stubTable stubPlaceholder idt vector).bits =
      some ⟨if vector < stubVectors then stubTable vector else stubPlaceholder, 0x10#16, true⟩ := by
  rw [idtInit, foldl_idtSetGate (fun _ => stubPlaceholder), foldl_idtSetGate]
  unfold intVectors at *
  unfold stubVectors
  by_cases hs : vector < 48
  · rw [if_neg (by rw [List.mem_range'_1]; omega), if_pos (List.mem_range.mpr hs), if_pos hs, gateOf_idtSetGate]
  · rw [if_pos (by rw [List.mem_range'_1]; omega), if_neg hs]
    exact gateOf_idtSetGate vector stubPlaceholder _

/-- An interrupt with a stub of its own gets to `isr_dispatch` with its vector and error code, on the kernel's
segments and with IF and DF clear; the stack of what it interrupts grows by 72 bytes. -/
theorem interrupt_enters (P : SegPush) (stubTable : ℕ → BitVec 32) (stubPlaceholder : BitVec 32) (idt : ℕ → IdtEntry)
    (hv : vector < stubVectors) (herr : err.isSome = hasErrorCode vector) (hroom : 72 ≤ (c.gpr .esp).toNat) :
    ∃ c₁ r, interrupt P (idtInit stubTable stubPlaceholder idt) vector err c = some c₁ ∧ c₁.eip = stubTable vector ∧
      Calls c (c₁.run P (isrStub vector ++ isrCommon)) r ∧ r.Saves c ∧ r.intNo = BitVec.ofNat 32 vector ∧
      r.errCode = err.getD 0#32 ∧ (c₁.run P (isrStub vector ++ isrCommon)).cs = 0x10#16 ∧
      (∀ x, (c₁.run P (isrStub vector ++ isrCommon)).seg x = 0x18#16) ∧
      (c₁.run P (isrStub vector ++ isrCommon)).eflags.interrupts = false ∧
      (c₁.run P (isrStub vector ++ isrCommon)).eflags.down = false := by
  set g : Gate := ⟨stubTable vector, 0x10#16, true⟩ with hg
  have hgate : interrupt P (idtInit stubTable stubPlaceholder idt) vector err c = some (c.deliver P g err) := by
    unfold stubVectors at hv
    rw [interrupt, if_pos (by unfold idtLimit intVectors; omega), idtInit_gate _ _ _ (by unfold intVectors; omega),
      if_pos (by unfold stubVectors; omega)]
    rfl
  obtain ⟨cs', hcs, hp₁, hs₁⟩ := deliver_spec P g err (c := c) (by omega)
  have hcleared := (deliver_cleared P g err c).1 rfl
  have hsel : (c.deliver P g err).cs = 0x10#16 := rfl
  have heip : (c.deliver P g err).eip = stubTable vector := rfl
  have hesp₁ := hp₁.esp
  have hlen : err.toList.length ≤ 1 := by cases err <;> simp
  simp only [List.length_append, List.length_cons, List.length_nil] at hesp₁
  set c₁ := c.deliver P g err
  clear_value c₁
  obtain ⟨hp₂, hs₂, hcs₂, hfl₂⟩ := isrStub_spec P hp₁ hs₁ herr (by omega)
  have hesp₂ := hp₂.esp
  simp only [List.length_cons, List.length_nil] at hesp₂
  have hrun := c₁.run_append P (isrStub vector) isrCommon
  set c₂ := c₁.run P (isrStub vector)
  clear_value c₂
  obtain ⟨gs, fs, es, ds, hsels, hp₃, hseg₃, hcs₃, hfl₃⟩ := isrCommon_spec P hp₂ hs₂ (by omega)
  refine ⟨c₁, ⟨gs, fs, es, ds, c.gpr .edi, c.gpr .esi, c.gpr .ebp, c₂.gpr .esp, c.gpr .ebx, c.edx, c.ecx, c.gpr .eax,
    BitVec.ofNat 32 vector, err.getD 0#32, c.eip, cs', c.eflags.bits⟩, hgate, heip, ?_⟩
  rw [hrun]
  refine ⟨hp₃, ⟨hsels, ⟨rfl, rfl, rfl, rfl, rfl, rfl, rfl⟩, rfl, hcs, rfl⟩, rfl, rfl, by rw [hcs₃, hcs₂, hsel], hseg₃,
    ?_, ?_⟩
  · rw [hfl₃, hfl₂, Eflags.interrupts, Eflags.clear_getLsbD _ _ (by decide), show c₁.eflags.bits.getLsbD 9 = false from hcleared]
    rfl
  · rw [hfl₃, Eflags.down, Eflags.clear_getLsbD _ _ (by decide)]
    simp

end Novium.Arch
