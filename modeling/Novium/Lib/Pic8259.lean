import Mathlib.Data.List.Basic
import Mathlib.Logic.Function.Basic
import Mathlib.Tactic.Common

/-! Two cascaded 8259 interrupt controllers behind their command and data ports: the
initialization words, the mask, the end of an interrupt that names no line, the choice of the
register that is read back, and the two acknowledge pulses of the processor. The rotating
priorities, polling and the special masks are not covered. -/

namespace Novium.Lib.Pic8259

/-- The initialization words that come through the data port. -/
inductive Icw where
  | icw2
  | icw3
  | icw4
  deriving DecidableEq

structure Controller where
  /-- The lines that request. -/
  irr : BitVec 8
  /-- The lines in service. -/
  isr : BitVec 8
  imr : BitVec 8
  /-- The vector of line 0. -/
  base : BitVec 8
  autoEoi : Bool
  /-- The command port is read from `isr`, and not from `irr`. -/
  readIsr : Bool
  expect : List Icw

def bit (line : ℕ) : BitVec 8 := 1#8 <<< line

namespace Controller

def icw1 (data : BitVec 8) (c : Controller) : Controller :=
  { c with
    irr := 0
    imr := 0
    autoEoi := false
    readIsr := false
    expect := .icw2 :: ((if data.getLsbD 1 then [] else [.icw3]) ++ if data.getLsbD 0 then [.icw4] else []) }

/-- Without a line of its own it takes the lowest one out of service, which has the highest priority. -/
def endOfInterrupt (c : Controller) : Controller := { c with isr := c.isr &&& (c.isr - 1) }

def writeCmd (data : BitVec 8) (c : Controller) : Controller :=
  if data.getLsbD 4 then c.icw1 data
  else if data.getLsbD 3 then if data.getLsbD 1 then { c with readIsr := data.getLsbD 0 } else c
  else if data >>> 5 = 1 then c.endOfInterrupt
  else c

def writeData (data : BitVec 8) (c : Controller) : Controller :=
  match c.expect with
  | [] => { c with imr := data }
  | .icw2 :: rest => { c with base := data &&& 0xF8, expect := rest }
  | .icw3 :: rest => { c with expect := rest }
  | .icw4 :: rest => { c with autoEoi := data.getLsbD 1, expect := rest }

def readCmd (c : Controller) : BitVec 8 := if c.readIsr then c.isr else c.irr

/-- A line that is not masked requests, and no line of at least its priority is in service. -/
def Eligible (c : Controller) (line : ℕ) : Prop :=
  c.irr.getLsbD line = true ∧ c.imr.getLsbD line = false ∧ ∀ j ≤ line, c.isr.getLsbD j = false

instance (c : Controller) : DecidablePred c.Eligible := fun _ => inferInstanceAs (Decidable (_ ∧ _))

def pick (c : Controller) : Option ℕ := (List.range 8).find? fun line => c.Eligible line

def accept (line : ℕ) (c : Controller) : Controller :=
  { c with irr := c.irr &&& ~~~bit line, isr := if c.autoEoi then c.isr else c.isr ||| bit line }

end Controller

structure Pair where
  master : Controller
  slave : Controller

def cascade : ℕ := 2

/-- The answer to the processor. A controller that finds no request left names its line 7. -/
structure Ack where
  line : ℕ
  genuine : Bool
  deriving DecidableEq

def Pair.acknowledge (p : Pair) : Ack × Pair :=
  match p.master.pick with
  | none => (⟨7, false⟩, p)
  | some line =>
    let master := p.master.accept line
    if line ≠ cascade then (⟨line, true⟩, { p with master })
    else match p.slave.pick with
      | none => (⟨15, false⟩, { p with master })
      | some line => (⟨8 + line, true⟩, { master, slave := p.slave.accept line })

namespace Ack

/-- Only the last line of a controller is named without a request, and the slave speaks for its own line. -/
structure Valid (a : Ack) : Prop where
  bound : a.line < 16
  cascade : a.line ≠ cascade
  spurious : a.genuine = false → a.line = 7 ∨ a.line = 15

theorem valid_seven : Valid ⟨7, false⟩ := ⟨by decide, by decide, fun _ => .inl rfl⟩

theorem valid_fifteen : Valid ⟨15, false⟩ := ⟨by decide, by decide, fun _ => .inr rfl⟩

end Ack

def Pair.vector (p : Pair) (a : Ack) : BitVec 8 :=
  if a.line < 8 then p.master.base + BitVec.ofNat 8 a.line else p.slave.base + BitVec.ofNat 8 (a.line - 8)

namespace Pair

structure Quiet (p : Pair) : Prop where
  master : p.master.isr = 0
  slave : p.slave.isr = 0

/-- What an answer puts into service, and nothing else. A spurious answer of the slave holds the master's line. -/
structure Holds (p : Pair) (a : Ack) : Prop where
  master : p.master.isr = if 8 ≤ a.line then bit Pic8259.cascade else if a.genuine then bit a.line else 0
  slave : p.slave.isr = if 8 ≤ a.line ∧ a.genuine then bit (a.line - 8) else 0

/-- The line of the answer requests, and is neither masked nor held back, on its way through the cascade. -/
def Passes (p : Pair) (line : ℕ) : Prop :=
  if line < 8 then p.master.Eligible line else p.master.Eligible Pic8259.cascade ∧ p.slave.Eligible (line - 8)

end Pair

/-- Out of the initialization words, with vectors from `base` on, and read from its requests. -/
structure Programmed (base : BitVec 8) (c : Controller) : Prop where
  base : c.base = base
  autoEoi : c.autoEoi = false
  readIsr : c.readIsr = false
  expect : c.expect = []

def SameProgram (c c' : Controller) : Prop := ∃ irr isr, c' = { c with irr, isr }

def SameButMask (c c' : Controller) : Prop := ∃ imr, c' = { c with imr }

theorem getLsbD_bit {i j : ℕ} (hi : i < 8) (hj : j < 8) : (bit i).getLsbD j = decide (i = j) := by
  have key : ∀ a b : Fin 8, (bit a.val).getLsbD b.val = decide (a.val = b.val) := by decide
  exact key ⟨i, hi⟩ ⟨j, hj⟩

theorem bit_and_pred {i : ℕ} (hi : i < 8) : bit i &&& (bit i - 1) = 0 := by
  have key : ∀ a : Fin 8, bit a.val &&& (bit a.val - 1) = 0 := by decide
  exact key ⟨i, hi⟩

namespace Controller

variable {c : Controller}

/-- The four words of a cascaded controller that wants the fourth. -/
theorem init_words (cmd vectors wiring mode mask : BitVec 8) (hcmd : cmd &&& 0x13 = 0x11) :
    ((((c.writeCmd cmd).writeData vectors).writeData wiring).writeData mode).writeData mask =
      { c with irr := 0, imr := mask, base := vectors &&& 0xF8, autoEoi := mode.getLsbD 1, readIsr := false,
               expect := [] } := by
  have h4 : cmd.getLsbD 4 = true := by
    have := congrArg (·.getLsbD 4) hcmd
    simpa using this
  have h1 : cmd.getLsbD 1 = false := by
    have := congrArg (·.getLsbD 1) hcmd
    simpa using this
  have h0 : cmd.getLsbD 0 = true := by
    have := congrArg (·.getLsbD 0) hcmd
    simpa using this
  rw [writeCmd, if_pos h4, icw1, h1, h0]
  rfl

theorem writeData_ready (h : c.expect = []) (data : BitVec 8) : c.writeData data = { c with imr := data } := by
  rw [writeData, h]

theorem endOfInterrupt_bit {line : ℕ} (hline : line < 8) (h : c.isr = bit line) :
    c.endOfInterrupt = { c with isr := 0 } := by
  rw [endOfInterrupt, h, bit_and_pred hline]

theorem pick_some {line : ℕ} (h : c.pick = some line) : line < 8 ∧ c.Eligible line := by
  unfold pick at h
  exact ⟨List.mem_range.mp (List.mem_of_find?_eq_some h), by simpa using List.find?_some h⟩

theorem eligible_iff (h : c.isr = 0) (line : ℕ) :
    c.Eligible line ↔ c.irr.getLsbD line = true ∧ c.imr.getLsbD line = false := by
  simp [Eligible, h]

theorem pick_single {line : ℕ} (hline : line < 8) (h : c.isr = 0) (hirr : c.irr = bit line) :
    c.pick = if c.imr.getLsbD line then none else some line := by
  have hel : ∀ j < 8, c.Eligible j ↔ j = line ∧ c.imr.getLsbD j = false := by
    intro j hj
    rw [eligible_iff h, hirr, getLsbD_bit hline hj, decide_eq_true_eq, eq_comm]
  cases hp : c.pick with
  | none =>
    have hno := List.find?_eq_none.mp hp line (List.mem_range.mpr hline)
    simp only [hel line hline, true_and, decide_eq_true_eq, Bool.not_eq_false] at hno
    rw [if_pos hno]
  | some j =>
    obtain ⟨hj, he⟩ := pick_some hp
    obtain ⟨rfl, himr⟩ := (hel j hj).mp he
    rw [if_neg (by rw [himr]; decide)]

theorem accept_isr {line : ℕ} (hauto : c.autoEoi = false) (h : c.isr = 0) : (c.accept line).isr = bit line := by
  simp [accept, hauto, h]

theorem endOfInterrupt_sameProgram (c : Controller) : SameProgram c c.endOfInterrupt := ⟨_, _, rfl⟩

theorem accept_sameProgram (c : Controller) (line : ℕ) : SameProgram c (c.accept line) := ⟨_, _, rfl⟩

end Controller

theorem SameProgram.refl (c : Controller) : SameProgram c c := ⟨_, _, rfl⟩

theorem SameProgram.programmed {c c' : Controller} {base : BitVec 8} (h : SameProgram c c') (hc : Programmed base c) :
    Programmed base c' := by
  obtain ⟨irr, isr, rfl⟩ := h
  exact ⟨hc.base, hc.autoEoi, hc.readIsr, hc.expect⟩

theorem SameButMask.programmed {c c' : Controller} {base : BitVec 8} (h : SameButMask c c') (hc : Programmed base c) :
    Programmed base c' := by
  obtain ⟨imr, rfl⟩ := h
  exact ⟨hc.base, hc.autoEoi, hc.readIsr, hc.expect⟩

theorem SameButMask.isr {c c' : Controller} (h : SameButMask c c') : c'.isr = c.isr := by
  obtain ⟨imr, rfl⟩ := h
  rfl

theorem SameButMask.trans {a b c : Controller} (h : SameButMask a b) (h' : SameButMask b c) : SameButMask a c := by
  obtain ⟨imr, rfl⟩ := h
  obtain ⟨imr', rfl⟩ := h'
  exact ⟨imr', rfl⟩

namespace Pair

variable {p : Pair}

/-- With nothing in service the answer is about a line that passes, or it is spurious; it alone is in service then. -/
theorem acknowledge_spec (hmaster : p.master.autoEoi = false) (hslave : p.slave.autoEoi = false) (hq : p.Quiet) :
    p.acknowledge.1.Valid ∧ p.acknowledge.2.Holds p.acknowledge.1 ∧
      (p.acknowledge.1.genuine = true → p.Passes p.acknowledge.1.line) ∧
      SameProgram p.master p.acknowledge.2.master ∧ SameProgram p.slave p.acknowledge.2.slave := by
  unfold acknowledge
  split
  next hnone => exact ⟨Ack.valid_seven, ⟨hq.master, hq.slave⟩, nofun, .refl _, .refl _⟩
  next line hpick =>
    obtain ⟨hline, hel⟩ := Controller.pick_some hpick
    have hisr : (p.master.accept line).isr = bit line := Controller.accept_isr hmaster hq.master
    split_ifs with hcascade
    · -- a line of the master's own
      refine ⟨⟨by show line < 16; omega, hcascade, nofun⟩, ⟨?_, ?_⟩, fun _ => ?_, Controller.accept_sameProgram _ _, .refl _⟩
      · rw [if_neg (show ¬8 ≤ line by omega)]
        exact hisr
      · rw [if_neg fun h => absurd h.1 (show ¬8 ≤ line by omega)]
        exact hq.slave
      · show p.Passes line
        rwa [Passes, if_pos hline]
    · rw [not_not] at hcascade
      subst hcascade
      split
      next hnone =>
        exact ⟨Ack.valid_fifteen, ⟨hisr, hq.slave⟩, nofun, Controller.accept_sameProgram _ _, .refl _⟩
      next j hpick' =>
        obtain ⟨hj, hel'⟩ := Controller.pick_some hpick'
        have hisr' : (p.slave.accept j).isr = bit j := Controller.accept_isr hslave hq.slave
        refine ⟨⟨by show 8 + j < 16; omega, by show 8 + j ≠ 2; omega, nofun⟩, ⟨?_, ?_⟩, fun _ => ?_,
          Controller.accept_sameProgram _ _, Controller.accept_sameProgram _ _⟩
        · rw [if_pos (show 8 ≤ 8 + j by omega)]
          exact hisr
        · rw [if_pos ⟨show 8 ≤ 8 + j by omega, rfl⟩]
          show _ = bit (8 + j - 8)
          rw [Nat.add_sub_cancel_left]
          exact hisr'
        · show p.Passes (8 + j)
          rw [Passes, if_neg (by omega), Nat.add_sub_cancel_left]
          exact ⟨hel, hel'⟩

theorem acknowledge_single {line : ℕ} (hline : line < 16) (hcascade : line ≠ Pic8259.cascade) (hq : p.Quiet)
    (hmaster : p.master.irr = bit (if line < 8 then line else Pic8259.cascade))
    (hslave : 8 ≤ line → p.slave.irr = bit (line - 8)) :
    p.acknowledge.1 = ⟨line, true⟩ ↔
      if line < 8 then p.master.imr.getLsbD line = false
      else p.master.imr.getLsbD Pic8259.cascade = false ∧ p.slave.imr.getLsbD (line - 8) = false := by
  unfold acknowledge
  by_cases h8 : line < 8
  · rw [if_pos h8] at hmaster
    rw [Controller.pick_single h8 hq.master hmaster, if_pos h8]
    by_cases himr : p.master.imr.getLsbD line = true
    · simp [himr]
    · simp [himr, hcascade]
  · rw [if_neg h8] at hmaster
    rw [Controller.pick_single (by decide) hq.master hmaster,
      Controller.pick_single (show line - 8 < 8 by omega) hq.slave (hslave (Nat.not_lt.mp h8)), if_neg h8]
    by_cases himr : p.master.imr.getLsbD Pic8259.cascade = true
    · simp [himr, show 7 ≠ line by omega]
    · by_cases himr' : p.slave.imr.getLsbD (line - 8) = true
      · simp [himr, himr']
      · simp [himr, himr', show 8 + (line - 8) = line by omega]

end Pair

end Novium.Lib.Pic8259
