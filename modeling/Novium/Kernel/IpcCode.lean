import Novium.Kernel.SchedCode
import Novium.Ipc.Mutex
import Novium.Ipc.Port
import Novium.Ipc.Sem

/-! The functions of `ipc/ipc.c`, `ipc/message.c` and `ipc/sync.c` access by access, over the
scheduler's data and any number of objects. A null pointer is `none`. The loops that park are
given a number of rounds; a call that returns needs finitely many. What a function does between
`cpu_disable_irqs` and the restoring of the flag is its section. -/

namespace Novium.Kernel

open Novium.Lib Novium.Lib.Prog Novium.Sched Novium.Ipc

/-- The kernel's objects by their addresses. -/
structure Memory where
  sched : State
  queues : ℕ → IpcWait
  ports : ℕ → IpcPort
  sems : ℕ → IpcSemaphore
  mutexes : ℕ → IpcMutex
  messages : ℕ → IpcMessage

/-- An `IpcWait *`: a queue of its own, or one inside an object. -/
inductive WaitRef where
  | queue (x : ℕ)
  | senders (x : ℕ)
  | receivers (x : ℕ)
  | sem (x : ℕ)
  | mutex (x : ℕ)
  deriving DecidableEq, Repr

namespace Memory

def setPort (x : ℕ) (p : IpcPort) (m : Memory) : Memory := { m with ports := Function.update m.ports x p }

def setSem (x : ℕ) (s : IpcSemaphore) (m : Memory) : Memory := { m with sems := Function.update m.sems x s }

def setMutex (x : ℕ) (mu : IpcMutex) (m : Memory) : Memory := { m with mutexes := Function.update m.mutexes x mu }

def setMessage (x : ℕ) (msg : IpcMessage) (m : Memory) : Memory :=
  { m with messages := Function.update m.messages x msg }

def wait (m : Memory) : WaitRef → IpcWait
  | .queue x => m.queues x
  | .senders x => (m.ports x).senders
  | .receivers x => (m.ports x).receivers
  | .sem x => (m.sems x).wait
  | .mutex x => (m.mutexes x).wait

def setWait (m : Memory) (w : IpcWait) : WaitRef → Memory
  | .queue x => { m with queues := Function.update m.queues x w }
  | .senders x => m.setPort x { m.ports x with senders := w }
  | .receivers x => m.setPort x { m.ports x with receivers := w }
  | .sem x => m.setSem x { m.sems x with wait := w }
  | .mutex x => m.setMutex x { m.mutexes x with wait := w }

end Memory

def inSched {α : Type} (p : Prog State α) : Prog Memory α := p.zoom (·.sched) fun s m => { m with sched := s }

def ipcSelfId : Prog Memory ℕ := do
  match ← inSched schedCurrent with
  | none => return 0
  | some self => fetch fun m => m.sched.id self

def ipcWaitAdd (w : WaitRef) (id : ℕ) : Prog Memory Bool := do
  match ← fetch fun m => Ipc.ipcWaitAdd (m.wait w) id with
  | none => return false
  | some q =>
    modify (·.setWait q w)
    return true

def ipcWaitRemove (w : WaitRef) (id : ℕ) : Prog Memory Unit :=
  modify fun m => m.setWait (Ipc.ipcWaitRemove (m.wait w) id) w

def ipcWaitTakeLive (w : WaitRef) : Prog Memory ℕ :=
  act fun m => (Ipc.ipcWaitTakeLive (fun id => (Sched.schedFind id m.sched).isSome) (m.wait w)).map
    fun (q, id) => (m.setWait q w, id)

/-- The part of `IpcPark` up to the block, which has a result if the caller does not park. The flag stays clear into
`SchedBlock`, which gives it back so. -/
def parkSection (w : WaitRef) (ready : Memory → Bool) (self : ℕ) : Prog Memory (Option IpcStatus) := do
  if ← fetch ready then return some .ok
  else if !(← ipcWaitAdd w self) then return some .errFull
  else
    inSched schedBlock
    return none

def parkLoop (w : WaitRef) (ready : Memory → Bool) (self : ℕ) : ℕ → Prog Memory IpcStatus
  | 0 => .stuck
  | rounds + 1 => do
    let wasEnabled ← cpuIrqsEnabled
    cpuDisableIrqs
    match ← parkSection w ready self with
    | some status =>
      enableIf wasEnabled
      return status
    | none =>
      cpuDisableIrqs
      ipcWaitRemove w self
      enableIf wasEnabled
      parkLoop w ready self rounds

/-- `Ready` may only read. -/
def ipcPark (rounds : ℕ) (w : WaitRef) (ready : Memory → Bool) : Prog Memory IpcStatus := do
  let self ← ipcSelfId
  if self = 0 then return .errNoTask
  else parkLoop w ready self rounds

def ipcWakeOne (w : WaitRef) : Prog Memory Unit := do
  let id ← masked (ipcWaitTakeLive w)
  if id ≠ 0 then inSched (schedWakeTask id)
  else return

def ipcPortIsCreated (port : Option ℕ) : Prog Memory Bool := do
  match port with
  | none => return false
  | some x => fetch fun m => Ipc.ipcPortIsCreated (m.ports x)

def ipcPortCreate (port : Option ℕ) : Prog Memory IpcStatus := do
  match port with
  | none => return .errInvalid
  | some x =>
    let wasEnabled ← cpuIrqsEnabled
    cpuDisableIrqs
    if (← fetch fun m => (m.ports x).magic) = portMagic then
      enableIf wasEnabled
      return .errInvalid
    else
      modify fun m => m.setPort x (portReset { m.ports x with magic := portMagic })
      enableIf wasEnabled
      return .ok

def destroySection (x : ℕ) : Prog Memory IpcStatus := do
  let p ← fetch fun m => m.ports x
  if p.senders.count ≠ 0 ∨ p.receivers.count ≠ 0 then return .errBusy
  else
    modify fun m => m.setPort x { portReset (m.ports x) with magic := 0 }
    return .ok

def ipcPortDestroy (port : Option ℕ) : Prog Memory IpcStatus := do
  match port with
  | none => return .errInvalid
  | some x => if !(← ipcPortIsCreated port) then return .errInvalid else masked (destroySection x)

def ipcPortQueued (port : Option ℕ) : Prog Memory ℕ := do
  match port with
  | none => return 0
  | some x =>
    if !(← ipcPortIsCreated port) then return 0
    else fetch fun m => (m.ports x).count

def portPush (x : ℕ) (message : ℕ) : Prog Memory Unit := do
  let self ← ipcSelfId
  modify fun m => m.setPort x (Ipc.portPush self (m.messages message) (m.ports x))

/-- The oldest message is copied out. -/
def portPop (x : ℕ) (out : ℕ) : Prog Memory Unit := do
  modify fun m => m.setMessage out ((m.ports x).slots (m.ports x).head)
  modify fun m => m.setPort x (Ipc.portPop (m.ports x))

def badSend (port message : Option ℕ) : Prog Memory Bool := do
  if !(← ipcPortIsCreated port) then return true
  else match message with
    | none => return true
    | some msg => fetch fun m => decide ((m.messages msg).length > ipcMessageWords)

def sendSection (x message : ℕ) : Prog Memory IpcStatus := do
  if (← fetch fun m => (m.ports x).count) = ipcPortCapacity then return .errFull
  else
    portPush x message
    return .ok

def ipcTrySend (port message : Option ℕ) : Prog Memory IpcStatus := do
  if ← badSend port message then return .errInvalid
  else match port, message with
    | some x, some msg =>
      let status ← masked (sendSection x msg)
      if status = .ok then
        ipcWakeOne (.receivers x)
        return status
      else return status
    | _, _ => return .errInvalid

/-- The loop of `IpcSend`, `IpcReceive` and `SemWait`: as long as the try form says `again`, wait and try once more. -/
def retryLoop (attempt park : Prog Memory IpcStatus) (again : IpcStatus) : ℕ → Prog Memory IpcStatus
  | 0 => .stuck
  | rounds + 1 => do
    let status ← attempt
    if status ≠ again then return status
    else
      let status ← park
      if status ≠ .ok then return status
      else retryLoop attempt park again rounds

def ipcSend (rounds : ℕ) (port message : Option ℕ) : Prog Memory IpcStatus := do
  if ← badSend port message then return .errInvalid
  else match port with
    | some x =>
      retryLoop (ipcTrySend port message) (ipcPark rounds (.senders x) fun m => portHasRoom (m.ports x)) .errFull rounds
    | none => return .errInvalid

def badReceive (port out : Option ℕ) : Prog Memory Bool := do
  if !(← ipcPortIsCreated port) then return true
  else return out.isNone

def receiveSection (x out : ℕ) : Prog Memory IpcStatus := do
  if (← fetch fun m => (m.ports x).count) = 0 then return .errEmpty
  else
    portPop x out
    return .ok

def ipcTryReceive (port out : Option ℕ) : Prog Memory IpcStatus := do
  if ← badReceive port out then return .errInvalid
  else match port, out with
    | some x, some out =>
      let status ← masked (receiveSection x out)
      if status = .ok then
        ipcWakeOne (.senders x)
        return status
      else return status
    | _, _ => return .errInvalid

def ipcReceive (rounds : ℕ) (port out : Option ℕ) : Prog Memory IpcStatus := do
  if ← badReceive port out then return .errInvalid
  else match port with
    | some x =>
      retryLoop (ipcTryReceive port out) (ipcPark rounds (.receivers x) fun m => portHasMessage (m.ports x)) .errEmpty
        rounds
    | none => return .errInvalid

/-- The fields are written one by one, with interrupts as they are. -/
def semInit (sem : Option ℕ) (initial limit : ℕ) : Prog Memory Unit := do
  match sem with
  | none => return
  | some x =>
    let initial := if limit ≠ 0 ∧ initial > limit then limit else initial
    modify fun m => m.setSem x { m.sems x with count := initial }
    modify fun m => m.setSem x { m.sems x with limit := limit }
    modify fun m => m.setSem x { m.sems x with wait := { (m.sems x).wait with ids := fun _ => 0 } }
    modify fun m => m.setSem x { m.sems x with wait := { (m.sems x).wait with count := 0 } }

def tryWaitSection (x : ℕ) : Prog Memory IpcStatus := do
  if (← fetch fun m => (m.sems x).count) = 0 then return .errEmpty
  else
    modify fun m => m.setSem x { m.sems x with count := sub32 (m.sems x).count 1 }
    return .ok

def semTryWait (sem : Option ℕ) : Prog Memory IpcStatus := do
  match sem with
  | none => return .errInvalid
  | some x => masked (tryWaitSection x)

def semWait (rounds : ℕ) (sem : Option ℕ) : Prog Memory IpcStatus := do
  match sem with
  | none => return .errInvalid
  | some x => retryLoop (semTryWait sem) (ipcPark rounds (.sem x) fun m => semHasPermit (m.sems x)) .errEmpty rounds

def postSection (x : ℕ) : Prog Memory IpcStatus := do
  let s ← fetch fun m => m.sems x
  if s.limit ≠ 0 ∧ s.count ≥ s.limit then return .errFull
  else
    modify fun m => m.setSem x { m.sems x with count := u32 ((m.sems x).count + 1) }
    return .ok

def semPost (sem : Option ℕ) : Prog Memory IpcStatus := do
  match sem with
  | none => return .errInvalid
  | some x =>
    let status ← masked (postSection x)
    if status = .ok then
      ipcWakeOne (.sem x)
      return status
    else return status

def semCount (sem : Option ℕ) : Prog Memory ℕ := do
  match sem with
  | none => return 0
  | some x => fetch fun m => (m.sems x).count

def mutexInit (mutex : Option ℕ) : Prog Memory Unit := do
  match mutex with
  | none => return
  | some x =>
    modify fun m => m.setMutex x { m.mutexes x with locked := false }
    modify fun m => m.setMutex x { m.mutexes x with owner := 0 }
    modify fun m => m.setMutex x { m.mutexes x with wait := { (m.mutexes x).wait with ids := fun _ => 0 } }
    modify fun m => m.setMutex x { m.mutexes x with wait := { (m.mutexes x).wait with count := 0 } }

def mutexHeldByCaller (mutex : Option ℕ) : Prog Memory Bool := do
  match mutex with
  | none => return false
  | some x =>
    if !(← fetch fun m => (m.mutexes x).locked) then return false
    else
      let owner ← fetch fun m => (m.mutexes x).owner
      return decide (owner = (← ipcSelfId))

def tryLockSection (x : ℕ) : Prog Memory IpcStatus := do
  if ← fetch fun m => (m.mutexes x).locked then return .errBusy
  else
    let self ← ipcSelfId
    modify fun m => m.setMutex x { m.mutexes x with locked := true, owner := self }
    return .ok

def mutexTryLock (mutex : Option ℕ) : Prog Memory IpcStatus := do
  match mutex with
  | none => return .errInvalid
  | some x => masked (tryLockSection x)

def passedOn (x : ℕ) (status : IpcStatus) : Prog Memory Bool :=
  if status = .errBusy then mutexHeldByCaller (some x) else return false

/-- The loop of `MutexLock`, which looks at the owner before it waits. -/
def mutexLockLoop (rounds x : ℕ) : ℕ → Prog Memory IpcStatus
  | 0 => .stuck
  | n + 1 => do
    let status ← mutexTryLock (some x)
    if ← passedOn x status then return .ok
    else if status ≠ .errBusy then return status
    else
      let status ← ipcPark rounds (.mutex x) fun m => mutexIsFree (m.mutexes x)
      if status ≠ .ok then return status
      else mutexLockLoop rounds x n

def mutexLock (rounds : ℕ) (mutex : Option ℕ) : Prog Memory IpcStatus := do
  match mutex with
  | none => return .errInvalid
  | some x =>
    if ← mutexHeldByCaller mutex then return .errOwner
    else mutexLockLoop rounds x rounds

def unlockSection (x : ℕ) : Prog Memory (IpcStatus × ℕ) := do
  let mu ← fetch fun m => m.mutexes x
  let self ← ipcSelfId
  if !mu.locked ∨ mu.owner ≠ self then return (.errOwner, 0)
  else
    let nxt ← ipcWaitTakeLive (.mutex x)
    if nxt ≠ 0 then
      modify fun m => m.setMutex x { m.mutexes x with owner := nxt }
      return (.ok, nxt)
    else
      modify fun m => m.setMutex x { m.mutexes x with locked := false, owner := 0 }
      return (.ok, nxt)

def mutexUnlock (mutex : Option ℕ) : Prog Memory IpcStatus := do
  match mutex with
  | none => return .errInvalid
  | some x =>
    let (status, nxt) ← masked (unlockSection x)
    if status = .ok ∧ nxt ≠ 0 then
      inSched (schedWakeTask nxt)
      return status
    else return status

end Novium.Kernel
