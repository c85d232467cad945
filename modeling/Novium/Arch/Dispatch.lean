import Novium.Arch.Irq

/-! `isr_dispatch` while the lines of the controllers move at any time, and tasks and handlers
register and unregister as they like. The processor takes an interrupt only while no dispatcher
is under way, which is what its interrupt gates see to. `irq_register` and `irq_unregister` are
one step each: no interrupt falls between their store to `handlers` and their writes to the
masks, although the source leaves interrupts on there. Before `pic_init` nothing is in service. -/

namespace Novium.Arch

open Novium.Lib Novium.Lib.Pic8259

inductive Phase where
  /-- A task runs. This is where `SchedPreempt` may switch to another one. -/
  | idle
  /-- The stub of a vector runs, with the answer of the controllers that the vector came from. -/
  | entered (vec : ℕ) (answer : Ack)
  | handling (line : ℕ)
  deriving DecidableEq

structure IrqRun where
  irq : Irq
  phase : Phase
  /-- The answers of the controllers that the dispatcher has looked at. -/
  answers : List Ack
  /-- The lines whose handlers were called. -/
  served : List ℕ

inductive IrqEvent where
  /-- The request lines change, on their own, and by what one controller still has to tell the other. -/
  | lines (master slave : BitVec 8)
  | register (irq : ℤ) (h : BitVec 32)
  | unregister (irq : ℤ)
  | interrupt
  | dispatch
  | finish

namespace IrqRun

def Runs (r : IrqRun) : Prop :=
  match r.phase with
  | .entered _ _ => False
  | _ => True

instance (r : IrqRun) : Decidable r.Runs := by
  unfold Runs
  split
  · exact instDecidableFalse
  · exact instDecidableTrue

def lines (master slave : BitVec 8) (r : IrqRun) : IrqRun :=
  { r with irq := (r.irq.onMaster ({ · with irr := master })).onSlave ({ · with irr := slave }) }

def interrupt (r : IrqRun) : IrqRun :=
  let (answer, pics) := r.irq.pics.acknowledge
  { r with irq := { r.irq with pics }, phase := .entered (pics.vector answer).toNat answer }

def dispatch (vec : ℕ) (answer : Ack) (r : IrqRun) : Option IrqRun :=
  match r.irq.isrDispatch vec with
  | none => none
  | some (.ret, irq) => some { r with irq, phase := .idle, answers := r.answers ++ [answer] }
  | some (.serve line, irq) =>
    some { irq, phase := .handling line, answers := r.answers ++ [answer],
           served := if irq.handlers vec = 0 then r.served else r.served ++ [line] }

def finish (line : ℕ) (r : IrqRun) : IrqRun := { r with irq := r.irq.acknowledged line, phase := .idle }

end IrqRun

/-- Behind `pic_init`, on controllers that had nothing in service. -/
def irqSystem : System IrqRun IrqEvent where
  init r := ∃ boot : Irq, boot.pics.master.isr = 0 ∧ boot.pics.slave.isr = 0 ∧ (∀ v, boot.handlers v = 0) ∧
    (∀ line, boot.spuriousCount line = 0) ∧ boot.spuriousReported = 0 ∧ boot.warnings = [] ∧
    r = ⟨picInit boot, .idle, [], []⟩
  next r
    | .lines master slave => some (r.lines master slave)
    | .register irq h => if r.Runs then some { r with irq := irqRegister irq h r.irq } else none
    | .unregister irq => if r.Runs then some { r with irq := irqUnregister irq r.irq } else none
    | .interrupt =>
      match r.phase with
      | .idle => some r.interrupt
      | _ => none
    | .dispatch =>
      match r.phase with
      | .entered vec answer => r.dispatch vec answer
      | _ => none
    | .finish =>
      match r.phase with
      | .handling line => some (r.finish line)
      | _ => none

namespace IrqRun

/-- What is in service follows from where the processor is: nothing while tasks run, and otherwise what was answered. -/
def InService (r : IrqRun) : Prop :=
  match r.phase with
  | .idle => r.irq.pics.Quiet
  | .entered vec a => a.Valid ∧ vec = irqBase + a.line ∧ r.irq.pics.Holds a
  | .handling line => line < irqCount ∧ r.irq.pics.Holds ⟨line, true⟩

structure Service (r : IrqRun) : Prop where
  programmed : r.irq.Programmed
  inService : r.InService

end IrqRun

/-- What a step does. A handler is called for a genuine answer, and a spurious one is counted. -/
inductive IrqChange (r : IrqRun) : IrqEvent → IrqRun → Prop where
  | lines (master slave : BitVec 8) : IrqChange r (.lines master slave) (r.lines master slave)
  | register (irq : ℤ) (h : BitVec 32) : r.Runs →
      IrqChange r (.register irq h) { r with irq := irqRegister irq h r.irq }
  | unregister (irq : ℤ) : r.Runs → IrqChange r (.unregister irq) { r with irq := irqUnregister irq r.irq }
  | interrupt : r.phase = .idle → IrqChange r .interrupt r.interrupt
  | serve {a : Ack} : r.phase = .entered (irqBase + a.line) a → a.genuine = true →
      IrqChange r .dispatch
        { r with phase := .handling a.line, answers := r.answers ++ [a],
                 served := if r.irq.handlers (irqBase + a.line) = 0 then r.served else r.served ++ [a.line] }
  | spurious {a : Ack} : r.phase = .entered (irqBase + a.line) a → a.genuine = false →
      IrqChange r .dispatch { r with irq := r.irq.spurious a.line 0, phase := .idle, answers := r.answers ++ [a] }
  | finish {line : ℕ} : r.phase = .handling line → IrqChange r .finish (r.finish line)

theorem dispatch_change {r : IrqRun} {a : Ack} (hr : r.Service) (hphase : r.phase = .entered (irqBase + a.line) a) :
    ∃ r', r.dispatch (irqBase + a.line) a = some r' ∧ IrqChange r .dispatch r' := by
  have hin := hr.inService
  rw [IrqRun.InService, hphase] at hin
  unfold IrqRun.dispatch
  rw [Irq.isrDispatch_eq hr.programmed hin.1 hin.2.2]
  by_cases hg : a.genuine = true
  · rw [if_pos hg]
    exact ⟨_, rfl, .serve hphase hg⟩
  · rw [if_neg hg]
    exact ⟨_, rfl, .spurious hphase (Bool.eq_false_iff.mpr hg)⟩

theorem irq_change {r r' : IrqRun} {e : IrqEvent} (hr : r.Service) (hn : irqSystem.next r e = some r') :
    IrqChange r e r' := by
  cases e with
  | lines master slave => exact Option.some.inj hn ▸ .lines master slave
  | register irq h =>
    simp only [irqSystem] at hn
    split_ifs at hn with hruns
    exact Option.some.inj hn ▸ .register irq h hruns
  | unregister irq =>
    simp only [irqSystem] at hn
    split_ifs at hn with hruns
    exact Option.some.inj hn ▸ .unregister irq hruns
  | interrupt =>
    simp only [irqSystem] at hn
    split at hn
    next hphase => exact Option.some.inj hn ▸ .interrupt hphase
    next => cases hn
  | dispatch =>
    simp only [irqSystem] at hn
    split at hn
    next vec a hphase =>
      have hin := hr.inService
      rw [IrqRun.InService, hphase] at hin
      obtain rfl := hin.2.1
      obtain ⟨r₁, h1, hc⟩ := dispatch_change hr hphase
      rw [h1] at hn
      exact Option.some.inj hn ▸ hc
    next => cases hn
  | finish =>
    simp only [irqSystem] at hn
    split at hn
    next line hphase => exact Option.some.inj hn ▸ .finish hphase
    next => cases hn

theorem IrqRun.Service.masks {r : IrqRun} {s : Irq} (hr : r.Service) (h : r.irq.OnlyMasks s) :
    IrqRun.Service { r with irq := s } := by
  refine ⟨h.programmed hr.programmed, ?_⟩
  have hin := hr.inService
  unfold IrqRun.InService at hin ⊢
  simp only
  split at hin
  · exact ⟨h.master.isr.trans hin.master, h.slave.isr.trans hin.slave⟩
  · exact ⟨hin.1, hin.2.1, h.master.isr.trans hin.2.2.master, h.slave.isr.trans hin.2.2.slave⟩
  · exact ⟨hin.1, h.master.isr.trans hin.2.master, h.slave.isr.trans hin.2.slave⟩

theorem step_service {r r' : IrqRun} {e : IrqEvent} (hr : r.Service) (hn : irqSystem.next r e = some r') :
    r'.Service := by
  have hin := hr.inService
  cases irq_change hr hn with
  | lines master slave =>
    refine ⟨⟨⟨hr.programmed.master.base, hr.programmed.master.autoEoi, hr.programmed.master.readIsr,
      hr.programmed.master.expect⟩, ⟨hr.programmed.slave.base, hr.programmed.slave.autoEoi, hr.programmed.slave.readIsr,
      hr.programmed.slave.expect⟩⟩, ?_⟩
    unfold IrqRun.InService at hin ⊢
    simp only [IrqRun.lines]
    split at hin
    · exact ⟨hin.master, hin.slave⟩
    · exact ⟨hin.1, hin.2.1, hin.2.2.master, hin.2.2.slave⟩
    · exact ⟨hin.1, hin.2.master, hin.2.slave⟩
  | register irq h _ => exact hr.masks (Irq.irqRegister_onlyMasks hr.programmed irq h)
  | unregister irq _ => exact hr.masks (Irq.irqUnregister_onlyMasks hr.programmed irq)
  | interrupt hphase =>
    rw [IrqRun.InService, hphase] at hin
    obtain ⟨hvalid, hholds, -, hm, hl⟩ :=
      Pair.acknowledge_spec hr.programmed.master.autoEoi hr.programmed.slave.autoEoi hin
    exact ⟨⟨hm.programmed hr.programmed.master, hl.programmed hr.programmed.slave⟩, hvalid,
      Irq.vector_toNat hr.programmed hvalid.bound hm hl, hholds⟩
  | @serve a hphase hg =>
    rw [IrqRun.InService, hphase] at hin
    refine ⟨hr.programmed, hin.1.bound, ?_⟩
    have hh := hin.2.2
    rwa [show a = ⟨a.line, true⟩ by rw [← hg]] at hh
  | @spurious a hphase hg =>
    rw [IrqRun.InService, hphase] at hin
    have hh := hin.2.2
    rw [show a = ⟨a.line, false⟩ by rw [← hg]] at hh
    exact ⟨Irq.spurious_programmed hr.programmed _ _, Irq.spurious_quiet (hin.1.spurious hg) hh 0⟩
  | finish hphase =>
    rw [IrqRun.InService, hphase] at hin
    exact ⟨Irq.acknowledged_programmed hr.programmed _, Irq.acknowledged_quiet hin.1 hin.2⟩

theorem reachable_service {ok : IrqRun → IrqEvent → Prop} {r : IrqRun} (h : irqSystem.ReachableIf ok r) : r.Service := by
  refine h.invariant (I := IrqRun.Service) ?_ fun r e r' hr _ hn => step_service hr hn
  intro r hinit
  obtain ⟨boot, hm, hl, -, -, -, -, rfl⟩ := hinit
  rw [Irq.picInit_eq]
  exact ⟨⟨⟨rfl, rfl, rfl, rfl⟩, ⟨rfl, rfl, rfl, rfl⟩⟩, hm, hl⟩

def bootIrq : Irq where
  pics := ⟨⟨0, 0, 0, 0, false, false, []⟩, ⟨0, 0, 0, 0, false, false, []⟩⟩
  handlers _ := 0
  spuriousCount _ := 0
  spuriousReported := 0
  warnings := []

theorem irqSystem_init : irqSystem.init ⟨picInit bootIrq, .idle, [], []⟩ :=
  ⟨bootIrq, rfl, rfl, fun _ => rfl, fun _ => rfl, rfl, rfl, rfl⟩

/-- The timer, a request that is gone before it is answered, one of the slave's likewise, twice, and a mouse on line 12
that the keyboard waits for. -/
def noisyEvents : List IrqEvent :=
  [.register 0 7, .register 1 8, .register 12 9, .lines 1 0, .interrupt, .dispatch, .finish,
   .interrupt, .dispatch, .lines 4 0, .interrupt, .dispatch, .lines 4 0, .interrupt, .dispatch,
   .lines 4 0x10, .interrupt, .lines 2 0, .dispatch, .finish, .interrupt, .dispatch, .finish]

def noisyAnswers : List Ack := [⟨0, true⟩, ⟨7, false⟩, ⟨15, false⟩, ⟨15, false⟩, ⟨12, true⟩, ⟨1, true⟩]

/-- Whenever a task runs, and so whenever the scheduler may switch to another one, no line is in service, and every
request that is not masked is one that the controllers may pass on. -/
theorem nothing_held_back {r : IrqRun} (h : irqSystem.Reachable r) : r.InService ∧
    (r.phase = .idle →
      (∀ line, r.irq.pics.master.irr.getLsbD line → r.irq.pics.master.imr.getLsbD line = false →
        r.irq.pics.master.Eligible line) ∧
      ∀ line, r.irq.pics.slave.irr.getLsbD line → r.irq.pics.slave.imr.getLsbD line = false →
        r.irq.pics.slave.Eligible line) ∧
    ∀ vec a, r.phase = .entered vec a →
      32 ≤ vec ∧ vec < 48 ∧ ∃ r', irqSystem.next r .dispatch = some r' := by
  have hr := reachable_service h
  have hin := hr.inService
  refine ⟨hin, fun hphase => ?_, fun vec a hphase => ?_⟩
  · rw [IrqRun.InService, hphase] at hin
    exact ⟨fun line hirr himr => (Controller.eligible_iff hin.master line).mpr ⟨hirr, himr⟩,
      fun line hirr himr => (Controller.eligible_iff hin.slave line).mpr ⟨hirr, himr⟩⟩
  · rw [IrqRun.InService, hphase] at hin
    obtain ⟨hvalid, rfl, -⟩ := hin
    have hb := hvalid.bound
    obtain ⟨r', hd, -⟩ := dispatch_change hr hphase
    refine ⟨Nat.le_add_right _ _, by unfold irqBase; omega, r', ?_⟩
    simp only [irqSystem, hphase]
    exact hd

theorem nothing_held_back_noisy : ∃ r, irqSystem.Reachable r ∧ r.answers = noisyAnswers ∧ r.irq.pics.Quiet := by
  obtain ⟨r, -, hr, ht⟩ := System.exists_reachableIf (fun _ _ => True) irqSystem_init noisyEvents
    (fun r => r.answers = noisyAnswers ∧ r.phase = .idle) (by decide)
  obtain ⟨hanswers, hphase⟩ := of_decide_eq_true ht
  have h := (nothing_held_back hr).1
  rw [IrqRun.InService, hphase] at h
  exact ⟨r, hr, hanswers, h⟩

/-- The counts, the warnings and the calls agree with what the controllers have answered. -/
structure IrqRun.Counted (r : IrqRun) : Prop where
  valid : ∀ a ∈ r.answers, a.Valid
  count : ∀ line, r.irq.spuriousCount line = u32 (r.answers.count ⟨line, false⟩)
  reported : ∀ line < 32, r.irq.spuriousReported.getLsbD line = decide (⟨line, false⟩ ∈ r.answers)
  warned : ∀ line b, (line, b) ∈ r.irq.warnings ↔ b = 0 ∧ ⟨line, false⟩ ∈ r.answers
  once : (r.irq.warnings.map Prod.fst).Nodup
  served : r.served.Sublist ((r.answers.filter (·.genuine)).map (·.line))

theorem IrqRun.Counted.masks {r : IrqRun} {s : Irq} (hr : r.Counted) (h : r.irq.OnlyMasks s) :
    IrqRun.Counted { r with irq := s } := by
  refine ⟨hr.valid, fun line => ?_, fun line hline => ?_, fun line b => ?_, ?_, hr.served⟩
  · exact (congrFun h.count line).trans (hr.count line)
  · exact (congrArg (·.getLsbD line) h.reported).trans (hr.reported line hline)
  · show _ ∈ s.warnings ↔ _
    rw [h.warnings]
    exact hr.warned line b
  · show (s.warnings.map Prod.fst).Nodup
    rw [h.warnings]
    exact hr.once

theorem IrqRun.Counted.serve {r : IrqRun} {a : Ack} (hr : r.Counted) (ha : a.Valid) (hg : a.genuine = true)
    (phase : Phase) (h : BitVec 32) :
    IrqRun.Counted { r with phase, answers := r.answers ++ [a],
                            served := if h = 0 then r.served else r.served ++ [a.line] } := by
  have hmem : ∀ line, (⟨line, false⟩ : Ack) ∈ r.answers ++ [a] ↔ ⟨line, false⟩ ∈ r.answers := by
    intro line
    have hne : (⟨line, false⟩ : Ack) ≠ a := fun e => by simp [← e] at hg
    simp [hne]
  refine ⟨?_, fun line => ?_, fun line hline => ?_, fun line b => ?_, hr.once, ?_⟩
  · exact List.forall_mem_append.mpr ⟨hr.valid, List.forall_mem_singleton.mpr ha⟩
  · have hne : (a == ⟨line, false⟩) = false := beq_false_of_ne fun e => by simp [e] at hg
    show r.irq.spuriousCount line = u32 ((r.answers ++ [a]).count ⟨line, false⟩)
    rw [hr.count, List.count_append, List.count_singleton, hne]
    rfl
  · show r.irq.spuriousReported.getLsbD line = decide (_ ∈ r.answers ++ [a])
    rw [hr.reported line hline, decide_eq_decide]
    exact (hmem line).symm
  · exact (hr.warned line b).trans (and_congr_right fun _ => (hmem line).symm)
  · show List.Sublist _ (((r.answers ++ [a]).filter (·.genuine)).map (·.line))
    rw [List.filter_append, List.map_append, List.filter_cons_of_pos hg]
    split_ifs
    · exact hr.served.trans (List.sublist_append_left _ _)
    · exact hr.served.append (List.Sublist.refl _)

theorem IrqRun.Counted.spurious {r : IrqRun} {a : Ack} (hr : r.Counted) (ha : a.Valid) (hg : a.genuine = false)
    (phase : Phase) :
    IrqRun.Counted { r with irq := r.irq.spurious a.line 0, phase, answers := r.answers ++ [a] } := by
  have hline : a.line < 32 := lt_of_lt_of_le ha.bound (by decide)
  have hmem : ∀ line, (⟨line, false⟩ : Ack) ∈ r.answers ++ [a] ↔ ⟨line, false⟩ ∈ r.answers ∨ a.line = line := by
    intro line
    rw [List.mem_append, List.mem_singleton]
    refine or_congr_right ⟨fun e => by rw [← e], fun e => ?_⟩
    rw [← e, ← hg]
  have hwarned : ∀ line b, (line, b) ∈ (r.irq.spurious a.line 0).warnings ↔
      (line, b) ∈ r.irq.warnings ∨ (⟨a.line, false⟩ ∉ r.answers ∧ line = a.line ∧ b = 0) := by
    intro line b
    rw [Irq.spurious_warnings hline]
    split_ifs with hnew <;> rw [hr.reported _ hline, decide_eq_false_iff_not] at hnew
    · simp [hnew]
    · simp [hnew]
  refine ⟨?_, fun line => ?_, fun line hl => ?_, fun line b => ?_, ?_, ?_⟩
  · exact List.forall_mem_append.mpr ⟨hr.valid, List.forall_mem_singleton.mpr ha⟩
  · show (r.irq.spurious a.line 0).spuriousCount line = u32 ((r.answers ++ [a]).count ⟨line, false⟩)
    rw [Irq.spurious_eq, List.count_append, List.count_singleton]
    by_cases h : line = a.line
    · have he : (a == ⟨line, false⟩) = true := beq_iff_eq.mpr (by rw [h, ← hg])
      simp only [Function.update_apply, he, ← h, hr.count]
      unfold u32
      exact Nat.mod_add_mod _ _ _
    · have he : (a == ⟨line, false⟩) = false := beq_false_of_ne fun e => h (by rw [e])
      simp [h, he, hr.count]
  · show (r.irq.spurious a.line 0).spuriousReported.getLsbD line = decide (_ ∈ r.answers ++ [a])
    rw [Irq.spurious_reported hline 0 r.irq hl, hr.reported line hl, ← Bool.decide_or, decide_eq_decide]
    exact (hmem line).symm
  · show (line, b) ∈ (r.irq.spurious a.line 0).warnings ↔ b = 0 ∧ ⟨line, false⟩ ∈ r.answers ++ [a]
    rw [hwarned, hr.warned, hmem]
    constructor
    · rintro (⟨hb, h⟩ | ⟨-, rfl, hb⟩)
      · exact ⟨hb, .inl h⟩
      · exact ⟨hb, .inr rfl⟩
    · rintro ⟨hb, h | rfl⟩
      · exact .inl ⟨hb, h⟩
      · by_cases hold : ⟨a.line, false⟩ ∈ r.answers
        · exact .inl ⟨hb, hold⟩
        · exact .inr ⟨hold, rfl, hb⟩
  · show ((r.irq.spurious a.line 0).warnings.map Prod.fst).Nodup
    rw [Irq.spurious_warnings hline]
    split_ifs with hnew
    · rw [List.map_append]
      refine List.nodup_append'.mpr ⟨hr.once, List.nodup_singleton _, List.disjoint_singleton.mpr fun hin => ?_⟩
      obtain ⟨⟨line, b⟩, hw, rfl⟩ := List.mem_map.mp hin
      rw [hr.reported _ hline] at hnew
      exact of_decide_eq_false hnew ((hr.warned _ b).mp hw).2
    · exact hr.once
  · show List.Sublist _ (((r.answers ++ [a]).filter (·.genuine)).map (·.line))
    rw [List.filter_append, List.filter_cons_of_neg (by rw [hg]; decide), List.filter_nil, List.append_nil]
    exact hr.served

theorem step_counted {r r' : IrqRun} {e : IrqEvent} (hs : r.Service) (hr : r.Counted)
    (hn : irqSystem.next r e = some r') : r'.Counted := by
  have hin := hs.inService
  cases irq_change hs hn with
  | lines master slave => exact ⟨hr.valid, hr.count, hr.reported, hr.warned, hr.once, hr.served⟩
  | register irq h _ => exact hr.masks (Irq.irqRegister_onlyMasks hs.programmed irq h)
  | unregister irq _ => exact hr.masks (Irq.irqUnregister_onlyMasks hs.programmed irq)
  | interrupt _ => exact ⟨hr.valid, hr.count, hr.reported, hr.warned, hr.once, hr.served⟩
  | @serve a hphase hg =>
    rw [IrqRun.InService, hphase] at hin
    exact hr.serve hin.1 hg (.handling a.line) _
  | @spurious a hphase hg =>
    rw [IrqRun.InService, hphase] at hin
    exact hr.spurious hin.1 hg .idle
  | @finish line _ =>
    have hsame : (r.irq.acknowledged line).spuriousCount = r.irq.spuriousCount ∧
        (r.irq.acknowledged line).spuriousReported = r.irq.spuriousReported ∧
        (r.irq.acknowledged line).warnings = r.irq.warnings := by
      unfold Irq.acknowledged
      split_ifs <;> exact ⟨rfl, rfl, rfl⟩
    refine ⟨hr.valid, fun line => ?_, fun line hline => ?_, fun line b => ?_, ?_, hr.served⟩
    · exact (congrFun hsame.1 line).trans (hr.count line)
    · exact (congrArg (·.getLsbD line) hsame.2.1).trans (hr.reported line hline)
    · simp only [IrqRun.finish, hsame.2.2, hr.warned]
    · simp only [IrqRun.finish, hsame.2.2, hr.once]

theorem reachable_counted {ok : IrqRun → IrqEvent → Prop} {r : IrqRun} (h : irqSystem.ReachableIf ok r) : r.Counted := by
  refine h.invariantFrom (J := IrqRun.Service) (fun r h => reachable_service h) ?_
    fun r e r' hs hr _ hn => step_counted hs hr hn
  intro r hinit
  obtain ⟨boot, -, -, -, hcount, hreported, hwarnings, rfl⟩ := hinit
  rw [Irq.picInit_eq]
  refine ⟨by simp, fun line => ?_, fun line _ => ?_, fun line b => ?_, ?_, List.Sublist.refl _⟩
  · simp [hcount, u32]
  · simp [hreported]
  · simp [hwarnings]
  · simp [hwarnings]

/-- Lines 7 and 15 count their spurious interrupts, and no other line counts anything; each is reported once, when the
first one comes, with nothing in service; and a handler is only called for an interrupt that was not spurious. -/
theorem spurious_interrupts {r : IrqRun} (h : irqSystem.Reachable r) :
    (∀ irq : ℤ, r.irq.irqSpuriousCount irq =
      if irq = 7 ∨ irq = 15 then u32 (r.answers.count ⟨irq.toNat, false⟩) else 0) ∧
    (r.irq.warnings.map Prod.fst).Nodup ∧
    (∀ line b, (line, b) ∈ r.irq.warnings ↔ b = 0 ∧ ⟨line, false⟩ ∈ r.answers) ∧
    r.served.Sublist ((r.answers.filter (·.genuine)).map (·.line)) := by
  have hr := reachable_counted h
  refine ⟨fun irq => ?_, hr.once, hr.warned, hr.served⟩
  unfold Irq.irqSpuriousCount irqCount
  by_cases hbad : irq < 0 ∨ irq ≥ (16 : ℕ)
  · rw [if_pos hbad, if_neg (by omega)]
  · rw [if_neg hbad, hr.count]
    split_ifs with hirq
    · rfl
    · have hnone : (⟨irq.toNat, false⟩ : Ack) ∉ r.answers := by
        intro hin
        have : irq.toNat = 7 ∨ irq.toNat = 15 := (hr.valid _ hin).spurious rfl
        omega
      rw [List.count_eq_zero_of_not_mem hnone]
      rfl

theorem spurious_interrupts_noisy : ∃ r, irqSystem.Reachable r ∧ r.irq.irqSpuriousCount 15 = 2 ∧
    (15, 0) ∈ r.irq.warnings ∧ (r.irq.warnings.map Prod.fst).Nodup := by
  obtain ⟨r, -, hr, ht⟩ := System.exists_reachableIf (fun _ _ => True) irqSystem_init noisyEvents
    (fun r => r.answers = noisyAnswers) (by decide)
  obtain ⟨hcount, honce, hwarned, -⟩ := spurious_interrupts hr
  rw [of_decide_eq_true ht] at hcount hwarned
  exact ⟨r, hr, hcount 15, (hwarned 15 0).mpr (by decide), honce⟩

/-- Line 2 is not taken away while the slave has a handler to serve. -/
def KeepsSlave (r : IrqRun) : IrqEvent → Prop
  | .unregister irq => irq = cascade → ∀ line < irqCount, 8 ≤ line → r.irq.handlers (irqBase + line) = 0
  | _ => True

instance (r : IrqRun) : (e : IrqEvent) → Decidable (KeepsSlave r e)
  | .unregister _ => inferInstanceAs (Decidable (_ → _))
  | .lines _ _ | .register _ _ | .interrupt | .dispatch | .finish => inferInstanceAs (Decidable True)

/-- The ports of a run, as bytes that remember, keep the law of lines and handlers. -/
structure IrqRun.Served (r : IrqRun) : Prop where
  shows : ∃ p, p.Deliverable ∧ r.irq.Shows p
  entered : ∀ vec a, r.phase = .entered vec a → a.genuine = true → r.irq.handlers vec ≠ 0
  served : r.served = (r.answers.filter (·.genuine)).map (·.line)

theorem IrqRun.interrupt_phase {r : IrqRun} (hs : r.irq.Programmed) (hq : r.irq.pics.Quiet) :
    r.interrupt.phase = .entered (irqBase + r.irq.pics.acknowledge.1.line) r.irq.pics.acknowledge.1 := by
  obtain ⟨hvalid, -, -, hm, hl⟩ := Pair.acknowledge_spec hs.master.autoEoi hs.slave.autoEoi hq
  exact congrArg (Phase.entered · _) (Irq.vector_toNat hs hvalid.bound hm hl)

theorem step_served {r r' : IrqRun} {e : IrqEvent} (hs : r.Service) (hr : r.Served) (hok : KeepsSlave r e)
    (hn : irqSystem.next r e = some r') : r'.Served := by
  obtain ⟨p, hp, hshows⟩ := hr.shows
  have hin := hs.inService
  cases irq_change hs hn with
  | lines master slave =>
    exact ⟨⟨p, hp, hshows.master, hshows.slave, hshows.handlers⟩, hr.entered, hr.served⟩
  | register irq h hruns =>
    refine ⟨⟨_, ?_, hshows.irqRegister hs.programmed irq h⟩, fun vec a hphase => ?_, hr.served⟩
    · exact (next_deliverable_iff (e := .register irq h) hp rfl).mpr trivial
    · rw [IrqRun.Runs, show r.phase = .entered vec a from hphase] at hruns
      exact absurd hruns id
  | unregister irq hruns =>
    refine ⟨⟨_, ?_, hshows.irqUnregister hs.programmed irq⟩, fun vec a hphase => ?_, hr.served⟩
    · refine (next_deliverable_iff (e := .unregister irq) hp rfl).mpr fun hirq line hline h8 => ?_
      rw [Pic.handler, hshows.handlers]
      exact hok hirq line hline h8
    · rw [IrqRun.Runs, show r.phase = .entered vec a from hphase] at hruns
      exact absurd hruns id
  | interrupt hphase =>
    rw [IrqRun.InService, hphase] at hin
    obtain ⟨hvalid, -, hpass, hm, hl⟩ :=
      Pair.acknowledge_spec hs.programmed.master.autoEoi hs.programmed.slave.autoEoi hin
    refine ⟨⟨p, hp, ?_, ?_, hshows.handlers⟩, fun vec a ha hg => ?_, hr.served⟩
    · obtain ⟨irr, isr, hm⟩ := hm
      exact hshows.master.trans (congrArg Controller.imr hm).symm
    · obtain ⟨irr, isr, hl⟩ := hl
      exact hshows.slave.trans (congrArg Controller.imr hl).symm
    · rw [IrqRun.interrupt_phase hs.programmed hin] at ha
      obtain ⟨rfl, rfl⟩ := Phase.entered.inj ha
      exact handler_of_passes hp hshows hvalid.bound hvalid.cascade (hpass hg)
  | @serve a hphase hg =>
    refine ⟨⟨p, hp, hshows⟩, (fun vec b h => by cases h), ?_⟩
    show (if _ then _ else _) = ((r.answers ++ [a]).filter (·.genuine)).map (·.line)
    rw [if_neg (hr.entered _ a hphase hg), hr.served, List.filter_append, List.map_append, List.filter_cons_of_pos hg]
    rfl
  | @spurious a hphase hg =>
    refine ⟨⟨p, hp, ?_, ?_, ?_⟩, (fun vec b h => by cases h), ?_⟩
    · rw [Irq.spurious_eq]
      refine hshows.master.trans ?_
      show _ = Controller.imr (if a.line = 15 then (r.irq.onMaster Controller.endOfInterrupt).pics else r.irq.pics).master
      split_ifs <;> rfl
    · rw [Irq.spurious_eq]
      refine hshows.slave.trans ?_
      show _ = Controller.imr (if a.line = 15 then (r.irq.onMaster Controller.endOfInterrupt).pics else r.irq.pics).slave
      split_ifs <;> rfl
    · rw [Irq.spurious_eq]
      exact hshows.handlers
    · show r.served = ((r.answers ++ [a]).filter (·.genuine)).map (·.line)
      rw [List.filter_append, List.filter_cons_of_neg (by rw [hg]; decide), List.filter_nil, List.append_nil, hr.served]
  | @finish line _ =>
    refine ⟨⟨p, hp, ?_⟩, (fun vec a h => by cases h), hr.served⟩
    simp only [IrqRun.finish, Irq.acknowledged]
    split_ifs <;> exact ⟨hshows.master, hshows.slave, hshows.handlers⟩

/-- A line asks for an interrupt, and no other line does. -/
def IrqRun.request (line : ℕ) (r : IrqRun) : IrqRun :=
  if line < 8 then r.lines (bit line) 0 else r.lines (bit cascade) (bit (line - 8))

/-- While line 2 is left alone under the slave's handlers, the handlers that were called are those of the genuine
interrupts, each once and in order: a line that interrupts has a handler. And whenever a task runs, a request on a line
comes through as its own vector exactly if the line has a handler. -/
theorem lines_served {r : IrqRun} (h : irqSystem.ReachableIf KeepsSlave r) :
    r.served = (r.answers.filter (·.genuine)).map (·.line) ∧
    (r.phase = .idle → ∀ line < irqCount, line ≠ cascade →
      ((r.request line).interrupt.phase = .entered (irqBase + line) ⟨line, true⟩ ↔
        r.irq.handlers (irqBase + line) ≠ 0)) := by
  have hs := reachable_service h
  have hr : r.Served := by
    refine h.invariantFrom (J := IrqRun.Service) (fun r h => reachable_service h) ?_
      fun r e r' hs hr hok hn => step_served hs hr hok hn
    intro r hinit
    obtain ⟨boot, -, -, hnone, -, -, -, rfl⟩ := hinit
    refine ⟨⟨picInit ⟨fun _ => 0, boot.handlers⟩, Pic.deliverable_init hnone, ?_⟩, nofun, rfl⟩
    rw [Irq.picInit_eq]
    exact ⟨rfl, rfl, rfl⟩
  refine ⟨hr.served, fun hphase line hline hne => ?_⟩
  obtain ⟨p, hp, hshows⟩ := hr.shows
  have hq := hs.inService
  rw [IrqRun.InService, hphase] at hq
  have hb := hline
  unfold irqCount at hb
  have hopen := hshows.passes hline
  have hlaw : p.masked line = false ∧ (8 ≤ line → p.masked cascade = false) ↔ r.irq.handlers (irqBase + line) ≠ 0 := by
    rw [← hshows.handlers]
    constructor
    · intro hm hnone
      have := hp.others line hline hne hnone
      rw [hm.1] at this
      cases this
    · exact fun hset => ⟨hp.registered line hline hset, fun h8 => hp.cascade line hline h8 hset⟩
  have hquiet : (r.request line).irq.pics.Quiet := by
    unfold IrqRun.request
    split_ifs <;> exact ⟨hq.master, hq.slave⟩
  have hprog : (r.request line).irq.Programmed := by
    unfold IrqRun.request
    split_ifs <;>
      exact ⟨⟨hs.programmed.master.base, hs.programmed.master.autoEoi, hs.programmed.master.readIsr,
        hs.programmed.master.expect⟩, ⟨hs.programmed.slave.base, hs.programmed.slave.autoEoi,
        hs.programmed.slave.readIsr, hs.programmed.slave.expect⟩⟩
  have hsingle := Pair.acknowledge_single (p := (r.request line).irq.pics) hb hne hquiet
    (by unfold IrqRun.request; split_ifs <;> rfl)
    (by intro h8; unfold IrqRun.request; rw [if_neg (by omega)]; rfl)
  have hphase' : (r.request line).interrupt.phase = .entered (irqBase + line) ⟨line, true⟩ ↔
      (r.request line).irq.pics.acknowledge.1 = ⟨line, true⟩ := by
    rw [IrqRun.interrupt_phase hprog hquiet]
    exact ⟨fun h => (Phase.entered.inj h).2, fun h => by rw [h]⟩
  rw [hphase', hsingle, ← hlaw, hopen]
  unfold IrqRun.request
  by_cases h8 : line < 8
  · simp only [if_pos h8]
    exact ⟨fun h => ⟨h, fun h8' => absurd h8 (not_lt.mpr h8')⟩, fun h => h.1⟩
  · have hc := hshows.passes (show cascade < irqCount by decide)
    rw [if_pos (by decide)] at hc
    simp only [if_neg h8, hc]
    exact ⟨fun h => ⟨h.2, fun _ => h.1⟩, fun h => ⟨h.2 (not_lt.mp h8), h.1⟩⟩

theorem lines_served_noisy : ∃ r, irqSystem.ReachableIf KeepsSlave r ∧ r.served = [0, 12, 1] ∧
    (r.request 12).interrupt.phase = .entered 44 ⟨12, true⟩ := by
  obtain ⟨r, -, hr, ht⟩ := System.exists_reachableIf KeepsSlave irqSystem_init noisyEvents
    (fun r => r.answers = noisyAnswers ∧ r.phase = .idle ∧ r.irq.handlers 44 ≠ 0) (by decide)
  obtain ⟨hanswers, hphase, h44⟩ := of_decide_eq_true ht
  have h := lines_served hr
  rw [hanswers] at h
  exact ⟨r, hr, h.1, (h.2 hphase 12 (by decide) (by decide)).mpr h44⟩

end Novium.Arch
