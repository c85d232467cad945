import Novium.Lib.Pic8259
import Novium.Lib.Word
import Novium.Arch.Pic
import Mathlib.Data.List.Nodup

/-! `isr_dispatch` against the two controllers themselves, which keep the lines in service
until they are told. The lines may move at any time, and so may everything that a task or a
handler does to the masks and to the handlers; the processor takes an interrupt only while
no dispatcher is under way, which is what its interrupt gates see to. -/

namespace Novium.Arch

open Novium.Lib Novium.Lib.Pic8259 Ports

def picEoi : BitVec 8 := 0x20
def picOcw3Irr : BitVec 8 := 0x0A
def picOcw3Isr : BitVec 8 := 0x0B
def picInService : BitVec 8 := 0x80

/-- What `irq.c` keeps, the controllers behind its ports, and the lines and in-service bytes of the warnings printed. -/
structure Irq where
  pics : Pair
  handlers : ℕ → BitVec 32
  spuriousCount : ℕ → ℕ
  spuriousReported : BitVec 32
  warnings : List (ℕ × BitVec 8)

namespace Irq

def onMaster (f : Controller → Controller) (s : Irq) : Irq := { s with pics.master := f s.pics.master }

def onSlave (f : Controller → Controller) (s : Irq) : Irq := { s with pics.slave := f s.pics.slave }

def writePort (port : ℕ) (data : BitVec 8) (s : Irq) : Irq :=
  if port = pic1Cmd then s.onMaster (·.writeCmd data)
  else if port = pic1Data then s.onMaster (·.writeData data)
  else if port = pic2Cmd then s.onSlave (·.writeCmd data)
  else if port = pic2Data then s.onSlave (·.writeData data)
  else s

def readPort (port : ℕ) (s : Irq) : BitVec 8 :=
  if port = pic1Cmd then s.pics.master.readCmd
  else if port = pic1Data then s.pics.master.imr
  else if port = pic2Cmd then s.pics.slave.readCmd
  else if port = pic2Data then s.pics.slave.imr
  else 0xFF

instance : Ports Irq where
  outb := writePort
  inb := readPort
  setHandler vec h s := { s with handlers := Function.update s.handlers vec h }

def irqSpuriousCount (irq : ℤ) (s : Irq) : ℕ := if irq < 0 ∨ irq ≥ irqCount then 0 else s.spuriousCount irq.toNat

/-- The branch of `isr_dispatch` for an interrupt that no line is in service for. -/
def spurious (line : ℕ) (inService : BitVec 8) (s : Irq) : Irq :=
  let s := { s with spuriousCount := Function.update s.spuriousCount line (u32 (s.spuriousCount line + 1)) }
  let s := if line = 15 then outb pic1Cmd picEoi s else s
  if s.spuriousReported &&& 1#32 <<< line = 0 then
    { s with spuriousReported := s.spuriousReported ||| 1#32 <<< line, warnings := s.warnings ++ [(line, inService)] }
  else s

inductive Course where
  | ret
  | serve (line : ℕ)

/-- `isr_dispatch` up to its handler. An exception halts. -/
def isrDispatch (vec : ℕ) (s : Irq) : Option (Course × Irq) :=
  if vec < irqBase then none
  else
    let line := vec - irqBase
    if line = 7 ∨ line = 15 then
      let port := if line = 7 then pic1Cmd else pic2Cmd
      let s := outb port picOcw3Isr s
      let inService := inb port s
      let s := outb port picOcw3Irr s
      if inService &&& picInService = 0 then some (.ret, s.spurious line inService) else some (.serve line, s)
    else some (.serve line, s)

/-- `isr_dispatch` behind its handler, up to `SchedPreempt`. -/
def acknowledged (line : ℕ) (s : Irq) : Irq :=
  outb pic1Cmd picEoi (if line ≥ 8 then outb pic2Cmd picEoi s else s)

end Irq

namespace Irq

structure Programmed (s : Irq) : Prop where
  master : Pic8259.Programmed 0x20 s.pics.master
  slave : Pic8259.Programmed 0x28 s.pics.slave

/-- What registering and unregistering may do to the rest. -/
structure OnlyMasks (s s' : Irq) : Prop where
  master : SameButMask s.pics.master s'.pics.master
  slave : SameButMask s.pics.slave s'.pics.slave
  count : s'.spuriousCount = s.spuriousCount
  reported : s'.spuriousReported = s.spuriousReported
  warnings : s'.warnings = s.warnings

/-- The ports as bytes that remember: the masks and the handlers of the two models agree. -/
structure Shows (s : Irq) (p : Pic) : Prop where
  master : p.ports pic1Data = s.pics.master.imr
  slave : p.ports pic2Data = s.pics.slave.imr
  handlers : p.handlers = s.handlers

variable {s : Irq} {p : Pic}

theorem OnlyMasks.refl (s : Irq) : OnlyMasks s s := ⟨⟨_, rfl⟩, ⟨_, rfl⟩, rfl, rfl, rfl⟩

theorem OnlyMasks.trans {a b c : Irq} (h : OnlyMasks a b) (h' : OnlyMasks b c) : OnlyMasks a c :=
  ⟨h.master.trans h'.master, h.slave.trans h'.slave, h'.count.trans h.count, h'.reported.trans h.reported,
    h'.warnings.trans h.warnings⟩

theorem OnlyMasks.programmed {a b : Irq} (h : OnlyMasks a b) (ha : a.Programmed) : b.Programmed :=
  ⟨h.master.programmed ha.master, h.slave.programmed ha.slave⟩

theorem outb_dataPort (hs : s.Programmed) (line : ℕ) (data : BitVec 8) :
    outb (dataPort line) data s =
      if line < 8 then s.onMaster ({ · with imr := data }) else s.onSlave ({ · with imr := data }) := by
  unfold dataPort
  split_ifs with hline
  · show s.onMaster (·.writeData data) = _
    rw [onMaster, Controller.writeData_ready hs.master.expect]
    rfl
  · show s.onSlave (·.writeData data) = _
    rw [onSlave, Controller.writeData_ready hs.slave.expect]
    rfl

theorem outb_onlyMasks (hs : s.Programmed) (line : ℕ) (data : BitVec 8) :
    OnlyMasks s (outb (dataPort line) data s) := by
  rw [outb_dataPort hs]
  split_ifs
  · exact ⟨⟨data, rfl⟩, ⟨_, rfl⟩, rfl, rfl, rfl⟩
  · exact ⟨⟨_, rfl⟩, ⟨data, rfl⟩, rfl, rfl, rfl⟩

theorem unmask_onlyMasks (hs : s.Programmed) (line : ℕ) : OnlyMasks s (unmask line s) := outb_onlyMasks hs line _

theorem mask_onlyMasks (hs : s.Programmed) (line : ℕ) : OnlyMasks s (mask line s) := outb_onlyMasks hs line _

theorem Shows.inb (h : s.Shows p) (line : ℕ) : inb (dataPort line) s = inb (dataPort line) p := by
  unfold dataPort
  split_ifs
  · exact h.master.symm
  · exact h.slave.symm

theorem Shows.outb (h : s.Shows p) (hs : s.Programmed) (line : ℕ) (data : BitVec 8) :
    Shows (outb (dataPort line) data s) (outb (dataPort line) data p) := by
  rw [outb_dataPort hs]
  unfold dataPort
  split_ifs
  · exact ⟨rfl, h.slave, h.handlers⟩
  · exact ⟨h.master, rfl, h.handlers⟩

theorem Shows.unmask (h : s.Shows p) (hs : s.Programmed) (line : ℕ) : Shows (unmask line s) (unmask line p) := by
  rw [Ports.unmask, Ports.unmask, h.inb]
  exact h.outb hs _ _

theorem Shows.mask (h : s.Shows p) (hs : s.Programmed) (line : ℕ) : Shows (mask line s) (mask line p) := by
  rw [Ports.mask, Ports.mask, h.inb]
  exact h.outb hs _ _

theorem Shows.setHandler (h : s.Shows p) (vec : ℕ) (f : BitVec 32) : Shows (setHandler vec f s) (setHandler vec f p) :=
  ⟨h.master, h.slave, congrArg (Function.update · vec f) h.handlers⟩

theorem setHandler_onlyMasks (s : Irq) (vec : ℕ) (f : BitVec 32) : OnlyMasks s (setHandler vec f s) :=
  ⟨⟨_, rfl⟩, ⟨_, rfl⟩, rfl, rfl, rfl⟩

theorem Shows.irqRegister (h : s.Shows p) (hs : s.Programmed) (irq : ℤ) (f : BitVec 32) :
    Shows (irqRegister irq f s) (irqRegister irq f p) := by
  unfold Arch.irqRegister install
  split_ifs with hbad hslave
  · exact h
  all_goals
    have hset := (setHandler_onlyMasks s (irqBase + irq.toNat) f).programmed hs
    have hopen := (h.setHandler (irqBase + irq.toNat) f).unmask hset irq.toNat
  · exact hopen.unmask ((unmask_onlyMasks hset irq.toNat).programmed hset) cascadeLine
  · exact hopen

theorem Shows.irqUnregister (h : s.Shows p) (hs : s.Programmed) (irq : ℤ) :
    Shows (irqUnregister irq s) (irqUnregister irq p) := by
  unfold Arch.irqUnregister remove
  split_ifs with hbad
  · exact h
  · exact (h.setHandler _ 0).mask ((setHandler_onlyMasks s (irqBase + irq.toNat) 0).programmed hs) _

theorem irqRegister_onlyMasks (hs : s.Programmed) (irq : ℤ) (f : BitVec 32) : OnlyMasks s (irqRegister irq f s) := by
  unfold Arch.irqRegister install
  split_ifs with hbad hslave
  · exact OnlyMasks.refl s
  all_goals
    have hset := setHandler_onlyMasks s (irqBase + irq.toNat) f
    have hopen := hset.trans (unmask_onlyMasks (hset.programmed hs) irq.toNat)
  · exact hopen.trans (unmask_onlyMasks (hopen.programmed hs) cascadeLine)
  · exact hopen

theorem irqUnregister_onlyMasks (hs : s.Programmed) (irq : ℤ) : OnlyMasks s (irqUnregister irq s) := by
  unfold Arch.irqUnregister remove
  split_ifs with hbad
  · exact OnlyMasks.refl s
  · have hset := setHandler_onlyMasks s (irqBase + irq.toNat) 0
    exact hset.trans (mask_onlyMasks (hset.programmed hs) irq.toNat)

theorem picInit_eq (s : Irq) : picInit s = { s with pics :=
    { master := { s.pics.master with irr := 0, imr := 0xFF, base := 0x20, autoEoi := false, readIsr := false, expect := [] }
      slave := { s.pics.slave with irr := 0, imr := 0xFF, base := 0x28, autoEoi := false, readIsr := false, expect := [] } } } := by
  have hmaster : (picInit s).pics.master = _ := Controller.init_words 0x11 0x20 0x04 0x01 0xFF (by decide)
  have hslave : (picInit s).pics.slave = _ := Controller.init_words 0x11 0x28 0x02 0x01 0xFF (by decide)
  exact congrArg₂ (fun master slave => { s with pics := ⟨master, slave⟩ }) hmaster hslave

theorem probe_master (hs : s.Programmed) :
    inb pic1Cmd (outb pic1Cmd picOcw3Isr s) = s.pics.master.isr ∧
      outb pic1Cmd picOcw3Irr (outb pic1Cmd picOcw3Isr s) = s := by
  refine ⟨rfl, ?_⟩
  show { s with pics := { s.pics with master := { s.pics.master with readIsr := false } } } = s
  rw [← hs.master.readIsr]

theorem probe_slave (hs : s.Programmed) :
    inb pic2Cmd (outb pic2Cmd picOcw3Isr s) = s.pics.slave.isr ∧
      outb pic2Cmd picOcw3Irr (outb pic2Cmd picOcw3Isr s) = s := by
  refine ⟨rfl, ?_⟩
  show { s with pics := { s.pics with slave := { s.pics.slave with readIsr := false } } } = s
  rw [← hs.slave.readIsr]

theorem outb_eoi_master (s : Irq) : outb pic1Cmd picEoi s = s.onMaster Controller.endOfInterrupt := rfl

theorem outb_eoi_slave (s : Irq) : outb pic2Cmd picEoi s = s.onSlave Controller.endOfInterrupt := rfl

theorem isrDispatch_eq {a : Ack} (hs : s.Programmed) (ha : a.Valid) (hh : s.pics.Holds a) :
    s.isrDispatch (irqBase + a.line) = some (if a.genuine then (.serve a.line, s) else (.ret, s.spurious a.line 0)) := by
  obtain ⟨line, genuine⟩ := a
  have hm := hh.master
  have hl := hh.slave
  simp only at hm hl
  rw [isrDispatch, if_neg (by omega)]
  simp only [Nat.add_sub_cancel_left]
  by_cases h7 : line = 7
  · subst h7
    rw [if_neg (by decide)] at hm
    rw [if_pos (Or.inl rfl), if_pos rfl, (probe_master hs).1, (probe_master hs).2, hm]
    cases genuine <;> rfl
  · by_cases h15 : line = 15
    · subst h15
      rw [if_pos (Or.inr rfl), if_neg (show ¬(15 : ℕ) = 7 by decide), (probe_slave hs).1, (probe_slave hs).2, hl]
      cases genuine <;> rfl
    · rw [if_neg (not_or.mpr ⟨h7, h15⟩)]
      have hg : genuine = true := by
        by_contra hg
        exact (ha.spurious (Bool.eq_false_iff.mpr hg)).elim h7 h15
      rw [if_pos hg]

theorem acknowledged_quiet {line : ℕ} (hline : line < irqCount) (hh : s.pics.Holds ⟨line, true⟩) :
    (s.acknowledged line).pics.Quiet := by
  unfold irqCount at hline
  have hm := hh.master
  have hl := hh.slave
  simp only at hm hl
  unfold acknowledged
  by_cases h8 : 8 ≤ line
  · rw [if_pos h8] at hm
    rw [if_pos ⟨h8, trivial⟩] at hl
    rw [if_pos h8, outb_eoi_slave, outb_eoi_master]
    constructor
    · show (s.pics.master.endOfInterrupt).isr = 0
      rw [Controller.endOfInterrupt_bit (by decide) hm]
    · show (s.pics.slave.endOfInterrupt).isr = 0
      rw [Controller.endOfInterrupt_bit (by omega) hl]
  · rw [if_neg h8, if_pos trivial] at hm
    rw [if_neg fun h => h8 h.1] at hl
    rw [if_neg h8, outb_eoi_master]
    constructor
    · show (s.pics.master.endOfInterrupt).isr = 0
      rw [Controller.endOfInterrupt_bit (by omega) hm]
    · exact hl

theorem acknowledged_programmed (hs : s.Programmed) (line : ℕ) : (s.acknowledged line).Programmed := by
  unfold acknowledged
  rw [outb_eoi_master]
  split_ifs
  · exact ⟨(Controller.endOfInterrupt_sameProgram _).programmed hs.master, (Controller.endOfInterrupt_sameProgram _).programmed hs.slave⟩
  · exact ⟨(Controller.endOfInterrupt_sameProgram _).programmed hs.master, hs.slave⟩

/-- A spurious interrupt is counted, and reported once a line. The slave's still holds the line of the cascade. -/
theorem spurious_eq (line : ℕ) (inService : BitVec 8) (s : Irq) :
    s.spurious line inService = { s with
      pics := if line = 15 then (s.onMaster Controller.endOfInterrupt).pics else s.pics
      spuriousCount := Function.update s.spuriousCount line (u32 (s.spuriousCount line + 1))
      spuriousReported :=
        if s.spuriousReported &&& 1#32 <<< line = 0 then s.spuriousReported ||| 1#32 <<< line else s.spuriousReported
      warnings :=
        if s.spuriousReported &&& 1#32 <<< line = 0 then s.warnings ++ [(line, inService)] else s.warnings } := by
  unfold spurious
  by_cases h15 : line = 15
  · simp only [if_pos h15, outb_eoi_master]
    show (if s.spuriousReported &&& 1#32 <<< line = 0 then _ else _) = _
    split_ifs <;> rfl
  · simp only [if_neg h15]
    split_ifs <;> rfl

theorem spurious_pics (line : ℕ) (inService : BitVec 8) (s : Irq) :
    (s.spurious line inService).pics = if line = 15 then (s.onMaster Controller.endOfInterrupt).pics else s.pics := by
  rw [spurious_eq]

theorem spurious_quiet {line : ℕ} (hline : line = 7 ∨ line = 15) (hh : s.pics.Holds ⟨line, false⟩) (inService : BitVec 8) :
    (s.spurious line inService).pics.Quiet := by
  have hm := hh.master
  have hl := hh.slave
  rw [spurious_pics]
  obtain rfl | rfl := hline
  · exact ⟨hm, hl⟩
  · refine ⟨?_, hl⟩
    show (s.pics.master.endOfInterrupt).isr = 0
    rw [Controller.endOfInterrupt_bit (show cascade < 8 by decide) hm]

theorem spurious_programmed (hs : s.Programmed) (line : ℕ) (inService : BitVec 8) :
    (s.spurious line inService).Programmed := by
  constructor <;> rw [spurious_pics] <;> split_ifs
  · exact (Controller.endOfInterrupt_sameProgram _).programmed hs.master
  · exact hs.master
  · exact hs.slave
  · exact hs.slave

theorem vector_toNat (hs : s.Programmed) {a : Ack} (ha : a.line < irqCount) {pics : Pair}
    (hm : SameProgram s.pics.master pics.master) (hl : SameProgram s.pics.slave pics.slave) :
    (pics.vector a).toNat = irqBase + a.line := by
  unfold irqCount at ha
  rw [Pair.vector, (hm.programmed hs.master).base, (hl.programmed hs.slave).base]
  unfold irqBase
  split_ifs <;> simp <;> omega

end Irq

theorem getLsbD_one_shiftLeft {i j : ℕ} (hj : j < 32) : (1#32 <<< i).getLsbD j = decide (i = j) := by
  rw [BitVec.getLsbD_shiftLeft, BitVec.getLsbD_one]
  by_cases h : i = j
  · simp [h, hj]
  · by_cases hlt : j < i
    · simp [h, hlt]
    · simp [h, hj, hlt, show j - i ≠ 0 by omega]

theorem and_one_shiftLeft_eq_zero {x : BitVec 32} {i : ℕ} (hi : i < 32) :
    x &&& 1#32 <<< i = 0 ↔ x.getLsbD i = false := by
  constructor
  · intro h
    have := congrArg (·.getLsbD i) h
    simpa [BitVec.getLsbD_and, getLsbD_one_shiftLeft hi] using this
  · intro h
    apply BitVec.eq_of_getLsbD_eq
    intro j hj
    rw [BitVec.getLsbD_and, getLsbD_one_shiftLeft hj]
    by_cases hij : i = j
    · subst hij
      simp [h]
    · simp [hij]

theorem Irq.spurious_reported {line : ℕ} (hline : line < 32) (inService : BitVec 8) (s : Irq) {j : ℕ} (hj : j < 32) :
    (s.spurious line inService).spuriousReported.getLsbD j = (s.spuriousReported.getLsbD j || decide (line = j)) := by
  rw [Irq.spurious_eq]
  simp only [and_one_shiftLeft_eq_zero hline]
  by_cases hset : s.spuriousReported.getLsbD line = false
  · rw [if_pos hset, BitVec.getLsbD_or, getLsbD_one_shiftLeft hj]
  · rw [if_neg hset]
    by_cases h : line = j
    · simp [← h, Bool.not_eq_false _ ▸ hset]
    · simp [h]

theorem Irq.spurious_warnings {line : ℕ} (hline : line < 32) (inService : BitVec 8) (s : Irq) :
    (s.spurious line inService).warnings =
      if s.spuriousReported.getLsbD line = false then s.warnings ++ [(line, inService)] else s.warnings := by
  rw [Irq.spurious_eq]
  simp only [and_one_shiftLeft_eq_zero hline]

theorem Irq.Shows.passes {s : Irq} {p : Pic} (h : s.Shows p) {line : ℕ} (hline : line < irqCount) :
    p.masked line = if line < 8 then s.pics.master.imr.getLsbD line else s.pics.slave.imr.getLsbD (line - 8) := by
  unfold irqCount at hline
  have hmask : p.ports (dataPort line) = Ports.inb (dataPort line) s := (h.inb line).symm
  rw [Pic.masked, hmask]
  unfold dataPort
  split_ifs with h8
  · rw [Nat.mod_eq_of_lt h8]
    rfl
  · rw [show line % 8 = line - 8 by omega]
    rfl

/-- A line that passes has a handler, unless it is the cascade itself. -/
theorem handler_of_passes {s : Irq} {p : Pic} (hp : p.Deliverable) (h : s.Shows p) {line : ℕ} (hline : line < irqCount)
    (hne : line ≠ cascade) (hpass : s.pics.Passes line) : s.handlers (irqBase + line) ≠ 0 := by
  intro hnone
  have hmasked := hp.others line hline hne (by rw [Pic.handler, h.handlers, hnone])
  rw [h.passes hline] at hmasked
  unfold Pair.Passes at hpass
  split_ifs at hmasked hpass with h8
  · rw [hpass.2.1] at hmasked
    cases hmasked
  · rw [hpass.2.2.1] at hmasked
    cases hmasked

end Novium.Arch
