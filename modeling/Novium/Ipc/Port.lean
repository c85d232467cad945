import Novium.Lib.Ring
import Novium.Ipc.Machine
import Mathlib.Data.Fintype.Basic

/-! The ports of `ipc/message.c`. Beside the port stand the messages that crossed it,
each under the call that moved it: the task and the number of the call among those of
the task. -/

namespace Novium.Ipc

open Novium.Lib

def portMagic : ℕ := 0x504F5254
def ipcMessageWords : ℕ := 8
def ipcPortCapacity : ℕ := 16

structure IpcMessage where
  length : ℕ
  sender : ℕ
  data : Fin 8 → ℕ
  deriving DecidableEq

structure IpcPort where
  magic : ℕ
  head : ℕ
  count : ℕ
  slots : ℕ → IpcMessage
  senders : IpcWait
  receivers : IpcWait

def portReset (p : IpcPort) : IpcPort :=
  { p with
    head := 0, count := 0, senders := emptyWait, receivers := emptyWait
    slots := fun i => { p.slots i with length := 0, sender := 0 } }

def ipcPortIsCreated (p : IpcPort) : Bool := p.magic = portMagic

def ipcPortCreate (p : IpcPort) : IpcPort × IpcStatus :=
  if p.magic = portMagic then (p, .errInvalid) else (portReset { p with magic := portMagic }, .ok)

def portHasRoom (p : IpcPort) : Bool := p.count < ipcPortCapacity

def portHasMessage (p : IpcPort) : Bool := p.count > 0

/-- The message as it lies in the slot. -/
def IpcMessage.stamped (m : IpcMessage) (self : ℕ) : IpcMessage := { m with sender := self }

def portPush (self : ℕ) (m : IpcMessage) (p : IpcPort) : IpcPort :=
  { p with
    slots := Function.update p.slots (u32 (p.head + p.count) % ipcPortCapacity) (m.stamped self)
    count := u32 (p.count + 1) }

def portPop (p : IpcPort) : IpcPort :=
  { p with head := u32 (p.head + 1) % ipcPortCapacity, count := sub32 p.count 1 }

/-- `IpcSend` and `IpcReceive` block, `IpcTrySend` and `IpcTryReceive` do not. A null
`Message` is none, a null `out` is false. -/
inductive PortOp where
  | send (block : Bool) (message : Option IpcMessage)
  | receive (block : Bool) (out : Bool)
  deriving DecidableEq

/-- A call, with a null pointer or on the port. -/
structure PortCall where
  op : PortOp
  null : Bool

inductive PortPc where
  /-- the tests at the head of the blocking calls -/
  | test
  /-- the tests at the head of the calls that do not block -/
  | tryTest
  | try
  | park (p : ParkPc)
  /-- inside `IpcWakeOne`, with what the call has written to `*out` -/
  | wake (out : Option IpcMessage) (p : WakePc)

/-- Where a step leads: a place in the call, or its return with what is in `*out`. -/
abbrev PortNext := PortPc ⊕ (IpcStatus × Option IpcMessage)

def failed (st : IpcStatus) : PortNext := .inr (st, none)

/-- The port, and the messages accepted and taken so far. -/
structure PortObj where
  port : IpcPort
  accepted : List ((ℕ × ℕ) × IpcMessage)
  taken : List ((ℕ × ℕ) × IpcMessage)

namespace PortObj

def setSenders (o : PortObj) (w : IpcWait) : PortObj := { o with port := { o.port with senders := w } }

def setReceivers (o : PortObj) (w : IpcWait) : PortObj := { o with port := { o.port with receivers := w } }

def push (o : PortObj) (call : ℕ × ℕ) (m : IpcMessage) : PortObj :=
  { o with port := portPush call.1 m o.port, accepted := o.accepted ++ [(call, m.stamped call.1)] }

/-- The oldest message. -/
def front (o : PortObj) : IpcMessage := o.port.slots o.port.head

def pop (o : PortObj) (call : ℕ × ℕ) : PortObj :=
  { o with port := portPop o.port, taken := o.taken ++ [(call, o.front)] }

end PortObj

/-- The return from `IpcPark` goes back to the head of the loop. -/
def afterPark : ParkPc ⊕ IpcStatus → PortNext
  | .inl p => .inl (.park p)
  | .inr .ok => .inl .tryTest
  | .inr st => failed st

/-- Behind a step of `IpcWakeOne`. -/
def afterWake (out : Option IpcMessage) : Option WakePc → PortNext
  | some p => .inl (.wake out p)
  | none => .inr (.ok, out)

def sendStep (live : ℕ → Bool) (call : ℕ × ℕ) (block : Bool) (message : Option IpcMessage) (o : PortObj) :
    PortPc → Option (PortObj × PortNext × Effect)
  | .test =>
    if !ipcPortIsCreated o.port ∨ message.all (fun m => m.length > ipcMessageWords) then
      some (o, failed .errInvalid, .stay)
    else some (o, .inl .tryTest, .stay)
  | .tryTest =>
    if !ipcPortIsCreated o.port ∨ message.all (fun m => m.length > ipcMessageWords) then
      some (o, failed .errInvalid, .stay)
    else some (o, .inl .try, .stay)
  | .try => do
    let m ← message
    if o.port.count = ipcPortCapacity then
      some (o, if block then .inl (.park .check) else failed .errFull, .stay)
    else some (o.push call m, .inl (.wake none .take), .stay)
  | .park p =>
    let (w, r, eff) := ipcPark call.1 (portHasRoom o.port) o.port.senders p
    some (o.setSenders w, afterPark r, eff)
  | .wake out p => do
    let (w, r, eff) ← ipcWakeOne live o.port.receivers p
    some (o.setReceivers w, afterWake out r, eff)

def receiveStep (live : ℕ → Bool) (call : ℕ × ℕ) (block : Bool) (out : Bool) (o : PortObj) :
    PortPc → Option (PortObj × PortNext × Effect)
  | .test =>
    if !ipcPortIsCreated o.port ∨ !out then some (o, failed .errInvalid, .stay)
    else some (o, .inl .tryTest, .stay)
  | .tryTest =>
    if !ipcPortIsCreated o.port ∨ !out then some (o, failed .errInvalid, .stay)
    else some (o, .inl .try, .stay)
  | .try =>
    if o.port.count = 0 then some (o, if block then .inl (.park .check) else failed .errEmpty, .stay)
    else some (o.pop call, .inl (.wake (some o.front) .take), .stay)
  | .park p =>
    let (w, r, eff) := ipcPark call.1 (portHasMessage o.port) o.port.receivers p
    some (o.setReceivers w, afterPark r, eff)
  | .wake out p => do
    let (w, r, eff) ← ipcWakeOne live o.port.senders p
    some (o.setSenders w, afterWake out r, eff)

def PortOp.step (live : ℕ → Bool) (call : ℕ × ℕ) (o : PortObj) (pc : PortPc) :
    PortOp → Option (PortObj × PortNext × Effect)
  | .send block message => sendStep live call block message o pc
  | .receive block out => receiveStep live call block out o pc

/-- A call that has returned. -/
structure Outcome where
  op : PortOp
  status : IpcStatus
  out : Option IpcMessage

/-- The calls a task has finished, and the one it is in. -/
structure PortLoc where
  done : List Outcome
  cur : Option (PortOp × PortPc)

def PortLoc.advance (l : PortLoc) (op : PortOp) : PortNext → PortLoc
  | .inl pc => ⟨l.done, some (op, pc)⟩
  | .inr (st, out) => ⟨l.done ++ [⟨op, st, out⟩], none⟩

def PortOp.entry : PortOp → PortPc
  | .send block _ => if block then .test else .tryTest
  | .receive block _ => if block then .test else .tryTest

def portStart (c : PortCall) (l : PortLoc) : Option PortLoc :=
  match l.cur with
  | some _ => none
  | none => some (l.advance c.op (if c.null then failed .errInvalid else .inl c.op.entry))

def portStep (live : ℕ → Bool) (self : ℕ) (o : PortObj) (l : PortLoc) : Option (PortObj × PortLoc × Effect) := do
  let (op, pc) ← l.cur
  let (o', nxt, eff) ← op.step live (self, l.done.length) o pc
  some (o', l.advance op nxt, eff)

def portCode : Code PortObj PortLoc PortCall where
  rest := ⟨[], none⟩
  start := portStart
  step := portStep

abbrev PortWorld := World PortObj PortLoc

/-- Any tasks making any calls on one port after its `IpcPortCreate`. -/
def portSystem : System PortWorld (Event PortCall) :=
  portCode.system fun o => ∃ p : IpcPort, p.magic ≠ portMagic ∧ o = ⟨(ipcPortCreate p).1, [], []⟩

end Novium.Ipc
