import Novium.Ipc.PortFifo

/-! A port that is created and destroyed while it is in use: the calls of `ipc/message.c`
with `IpcPortCreate` and `IpcPortDestroy` among them, the latter in two steps, since it
tests the port before its section. -/

namespace Novium.Ipc

open Novium.Lib

def ipcPortDestroy (p : IpcPort) : IpcPort × IpcStatus :=
  if p.senders.count ≠ 0 ∨ p.receivers.count ≠ 0 then (p, .errBusy) else ({ portReset p with magic := 0 }, .ok)

/-- Before the first `IpcPortCreate`, behind one, behind an `IpcPortDestroy`. -/
inductive PortPhase where
  | raw | inUse | released
  deriving DecidableEq, Repr

/-- The port, with the messages that crossed it in the present phase. -/
structure LifeObj where
  base : PortObj
  phase : PortPhase

inductive LifeOp where
  | create | destroy
  deriving DecidableEq, Repr

inductive LifeCall where
  | life (op : LifeOp) (null : Bool)
  | use (c : PortCall)

inductive LifePc where
  | create
  /-- the test of `IpcPortDestroy`, with interrupts on -/
  | destroyTest
  | destroy
  deriving DecidableEq, Repr

/-- The sends and receives of a task, the create or destroy it is in, and what its last
create or destroy returned. -/
structure LifeLoc where
  port : PortLoc
  life : Option LifePc
  last : Option (LifeOp × IpcStatus)

def LifeLoc.ret (l : LifeLoc) (op : LifeOp) (st : IpcStatus) : LifeLoc := ⟨l.port, none, some (op, st)⟩

def LifeLoc.goto (l : LifeLoc) (pc : LifePc) : LifeLoc := { l with life := some pc }

def LifeLoc.setPort (l : LifeLoc) (p : PortLoc) : LifeLoc := { l with port := p }

def LifeOp.entry : LifeOp → LifePc
  | .create => .create
  | .destroy => .destroyTest

def lifeStart (c : LifeCall) (l : LifeLoc) : Option LifeLoc :=
  match l.life with
  | some _ => none
  | none =>
    match c with
    | .use c => (portStart c l.port).map l.setPort
    | .life op null =>
      if l.port.cur.isSome then none
      else some (if null then l.ret op .errInvalid else l.goto op.entry)

/-- The object behind a create or destroy that returned `st`. -/
def LifeObj.become (o : LifeObj) (phase : PortPhase) : IpcPort × IpcStatus → LifeObj
  | (p, .ok) => ⟨⟨p, [], []⟩, phase⟩
  | (p, _) => { o with base := { o.base with port := p } }

def lifeStep (live : ℕ → Bool) (self : ℕ) (o : LifeObj) (l : LifeLoc) : Option (LifeObj × LifeLoc × Effect) :=
  match l.life with
  | some .create =>
    let r := ipcPortCreate o.base.port
    some (o.become .inUse r, l.ret .create r.2, .stay)
  | some .destroyTest =>
    some (o, if ipcPortIsCreated o.base.port then l.goto .destroy else l.ret .destroy .errInvalid, .stay)
  | some .destroy =>
    let r := ipcPortDestroy o.base.port
    some (o.become .released r, l.ret .destroy r.2, .stay)
  | none => (portStep live self o.base l.port).map fun (b, p, eff) => ({ o with base := b }, l.setPort p, eff)

def lifeCode : Code LifeObj LifeLoc LifeCall where
  rest := ⟨⟨[], none⟩, none, none⟩
  start := lifeStart
  step := lifeStep

abbrev LifeWorld := World LifeObj LifeLoc

abbrev LifeEvent := Event LifeCall

/-- Any tasks making any calls on one port, the creates and destroys included. The
memory of the port is arbitrary, but it does not look like a port. -/
def lifeSystem : System LifeWorld LifeEvent :=
  lifeCode.system fun o => ∃ p : IpcPort, p.magic ≠ portMagic ∧ o = ⟨⟨p, [], []⟩, .raw⟩

theorem life_boot : lifeSystem.init (lifeCode.boot ⟨⟨zeroPort, [], []⟩, .raw⟩) :=
  ⟨_, ⟨zeroPort, by decide, rfl⟩, rfl⟩

def createCall (id : ℕ) : List LifeEvent := [.call id (.life .create false), .step id]

inductive LifeChange (live : ℕ → Bool) (self : ℕ) (o : LifeObj) (l : LifeLoc) : LifeObj → LifeLoc → Effect → Prop where
  | create (pc : l.life = some .create) (new : ipcPortIsCreated o.base.port = false) :
      LifeChange live self o l ⟨⟨portReset { o.base.port with magic := portMagic }, [], []⟩, .inUse⟩
        (l.ret .create .ok) .stay
  | keep {l' : LifeLoc} (pc : l.life ≠ none) (same : l'.port = l.port)
      (test : l'.life = some .destroy → ipcPortIsCreated o.base.port = true) : LifeChange live self o l o l' .stay
  | destroy (pc : l.life = some .destroy) (senders : o.base.port.senders.count = 0)
      (receivers : o.base.port.receivers.count = 0) :
      LifeChange live self o l ⟨⟨{ portReset o.base.port with magic := 0 }, [], []⟩, .released⟩ (l.ret .destroy .ok) .stay
  | use {op : PortOp} {pc : PortPc} {b : PortObj} {n : PortNext} {eff : Effect} (idle : l.life = none)
      (cur : l.port.cur = some (op, pc)) (move : PortMove live (self, l.port.done.length) o.base op pc b n eff) :
      LifeChange live self o l { o with base := b } (l.setPort (l.port.advance op n)) eff

theorem lifeStep_change {live : ℕ → Bool} {self : ℕ} {o o' : LifeObj} {l l' : LifeLoc} {eff : Effect}
    (h : lifeStep live self o l = some (o', l', eff)) : LifeChange live self o l o' l' eff := by
  unfold lifeStep at h
  cases hpc : l.life with
  | none =>
    simp only [hpc] at h
    obtain ⟨⟨b, p, eff'⟩, hstep, h⟩ := Option.map_eq_some_iff.mp h
    cases h
    obtain ⟨op, pc, n, hcur, rfl, hm⟩ := portStep_move hstep
    exact .use hpc hcur hm
  | some pc =>
    cases pc with
    | create =>
      simp only [hpc, Option.some.injEq, Prod.mk.injEq] at h
      obtain ⟨rfl, rfl, rfl⟩ := h
      by_cases hm : o.base.port.magic = portMagic
      · simp only [ipcPortCreate, if_pos hm, LifeObj.become]
        exact .keep (by simp [hpc]) rfl (by simp [LifeLoc.ret])
      · simp only [ipcPortCreate, if_neg hm, LifeObj.become]
        exact .create hpc (by simp [ipcPortIsCreated, hm])
    | destroyTest =>
      simp only [hpc, Option.some.injEq, Prod.mk.injEq] at h
      obtain ⟨rfl, rfl, rfl⟩ := h
      split_ifs with hcreated
      · exact .keep (by simp [hpc]) rfl fun _ => hcreated
      · exact .keep (by simp [hpc]) rfl (by simp [LifeLoc.ret])
    | destroy =>
      simp only [hpc, Option.some.injEq, Prod.mk.injEq] at h
      obtain ⟨rfl, rfl, rfl⟩ := h
      by_cases hbusy : o.base.port.senders.count ≠ 0 ∨ o.base.port.receivers.count ≠ 0
      · simp only [ipcPortDestroy, if_pos hbusy, LifeObj.become]
        exact .keep (by simp [hpc]) rfl (by simp [LifeLoc.ret])
      · simp only [ipcPortDestroy, if_neg hbusy, LifeObj.become]
        simp only [not_or, not_not] at hbusy
        exact .destroy hpc hbusy.1 hbusy.2

theorem lifeStart_cases {c : LifeCall} {l l' : LifeLoc} (h : lifeStart c l = some l') :
    l.life = none ∧ l.port.cur = none ∧ l'.life ≠ some .destroy ∧
      (l'.port.cur = none ∨ l'.life = none ∧ ∃ op : PortOp, l'.port.cur = some (op, op.entry)) := by
  unfold lifeStart at h
  split at h
  · cases h
  · rename_i hlife
    refine ⟨hlife, ?_⟩
    cases c with
    | use c =>
      obtain ⟨p, hstart, rfl⟩ := Option.map_eq_some_iff.mp h
      obtain ⟨hcur, hcur'⟩ := portStart_cases hstart
      exact ⟨hcur, by simp [LifeLoc.setPort, hlife], hcur'.imp_right fun he => ⟨hlife, c.op, he⟩⟩
    | life op null =>
      simp only [Option.isSome_iff_ne_none, ne_eq, ite_not] at h
      split_ifs at h with hcur hnull
      · cases h
        exact ⟨hcur, by simp [LifeLoc.ret], .inl hcur⟩
      · cases h
        exact ⟨hcur, by cases op <;> simp [LifeLoc.goto, LifeOp.entry], .inl hcur⟩

end Novium.Ipc
