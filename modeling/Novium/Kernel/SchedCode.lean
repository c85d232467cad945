import Novium.Lib.Prog
import Novium.Sched.Ops

/-! The functions of `kernel/sched.c` access by access, on a processor whose interrupt flag is
not part of the scheduler's data. What a function does to descriptors and queues is taken from
their model as one write, which is right where interrupts are off. -/

namespace Novium.Kernel

open Novium.Lib Novium.Lib.Prog Novium.Sched

variable {σ : Type}

def cpuIrqsEnabled : Prog σ Bool := irqsEnabled

def cpuDisableIrqs : Prog σ Unit := disableIrqs

def schedLockIrq : Prog State Bool := do
  let wasEnabled ← cpuIrqsEnabled
  cpuDisableIrqs
  return wasEnabled

def schedUnlockIrq (wasEnabled : Bool) : Prog State Unit := enableIf wasEnabled

/-- The stack pointers on either side of a switch. -/
def swapStacks (prev : Option TaskRef) (nextTask : TaskRef) (s : State) : State :=
  let s' := match prev with
    | none => s
    | some p => s.modTask p (stacked s.cpuEsp)
  { s' with cpuEsp := (s.tasks nextTask).esp }

/-- `pushfl` and `popfl` are the switch itself. -/
def schedSwitch (prev : Option TaskRef) (nextTask : TaskRef) : Prog State Unit := do
  modify (swapStacks prev nextTask)
  .switch (.ret ())

def schedInit : Prog State Unit := modify Sched.schedInit

def schedInitStack (t : TaskRef) (stackTop : ℕ) : Prog State Unit := modify (Sched.schedInitStack t stackTop)

def schedCreate (name : Option (ℕ → UInt8)) (eip esp : ℕ) : Prog State (Option TaskRef) := do
  match name with
  | none => return none
  | some name =>
    if (← fetch (·.taskCountValue)) ≥ schedMaxTasks then return none
    else
      let wasEnabled ← schedLockIrq
      match ← fetch fun s => (List.finRange 32).find? fun t => s.state t = .dead with
      | none =>
        schedUnlockIrq wasEnabled
        return none
      | some t =>
        attempt (schedQueueRemove .dead t)
        modify (describeTask t name eip esp)
        attempt (schedQueueAdd .ready t)
        modify fun s => { s with taskCountValue := u32 (s.taskCountValue + 1) }
        schedUnlockIrq wasEnabled
        return some t

def schedCurrent : Prog State (Option TaskRef) := fetch (·.currentTask)

def schedFind (id : ℕ) : Prog State (Option TaskRef) := fetch (Sched.schedFind id)

def schedTaskCount : Prog State ℕ := fetch (·.taskCountValue)

def schedYield : Prog State Unit := do
  let wasEnabled ← schedLockIrq
  if (← fetch (·.schedulerLocked)) ≠ 0 then schedUnlockIrq wasEnabled
  else
    match ← ask schedFindNext with
    | none => schedUnlockIrq wasEnabled
    | some nextTask =>
      let prevTask ← fetch (·.currentTask)
      if prevTask = some nextTask then schedUnlockIrq wasEnabled
      else
        attempt (schedQueueRemove .ready nextTask)
        attempt (requeue prevTask)
        modify (makeCurrent nextTask)
        schedSwitch prevTask nextTask
        schedUnlockIrq wasEnabled

def schedTick (regs : Bool) : Prog State Unit := do
  if !regs then return
  else if (← fetch (·.schedulerLocked)) ≠ 0 then return
  else
    modify fun s => { s with schedulerTicks := u32 (s.schedulerTicks + 1) }
    match ← fetch (·.currentTask) with
    | none => return
    | some c => modify (tickCurrent c)

def schedPreempt : Prog State Unit := do
  if !(← fetch (·.preemptPending)) then return
  else if (← fetch (·.schedulerLocked)) ≠ 0 then return
  else
    modify fun s => { s with preemptPending := false }
    schedYield

def undoBlock (t : TaskRef) : Prog State Unit := do
  let wasEnabled ← schedLockIrq
  if (← fetch (·.state t)) = .blocked then
    attempt (schedQueueRemove .blocked t)
    modify (·.setState t .running)
    schedUnlockIrq wasEnabled
  else schedUnlockIrq wasEnabled

def schedBlockTask (id : ℕ) : Prog State Unit := do
  let wasEnabled ← schedLockIrq
  match ← schedFind id with
  | none => schedUnlockIrq wasEnabled
  | some t =>
    let s ← fetch fun s => s
    if s.state t = .dead ∨ s.id t = 0 ∨ s.state t = .blocked then schedUnlockIrq wasEnabled
    else if s.currentTask = some t then
      attempt (schedQueueRemove .ready t)
      modify (·.setState t .blocked)
      attempt (schedQueueAdd .blocked t)
      schedUnlockIrq wasEnabled
      schedYield
      undoBlock t
    else
      attempt fun s => if s.state t = .ready then schedQueueRemove .ready t s else some s
      modify (·.setState t .blocked)
      attempt (schedQueueAdd .blocked t)
      schedUnlockIrq wasEnabled

def schedBlock : Prog State Unit := do
  let s ← fetch fun s => s
  match s.currentTask with
  | none => return
  | some c => if s.id c = 0 then return else schedBlockTask (s.id c)

def schedUnblock (item : Option TaskRef) : Prog State Unit := do
  match item with
  | none => return
  | some t =>
    if (← fetch (·.state t)) ≠ .blocked then return
    else
      let wasEnabled ← schedLockIrq
      attempt (schedQueueRemove .blocked t)
      modify (·.setState t .ready)
      attempt (schedQueueAdd .ready t)
      schedUnlockIrq wasEnabled

def schedWakeTask (id : ℕ) : Prog State Unit := do
  match ← schedFind id with
  | none => return
  | some t => schedUnblock (some t)

def schedSleepUntil (wakeTick : ℕ) : Prog State Unit := do
  let s ← fetch fun s => s
  match s.currentTask with
  | none => return
  | some c =>
    if s.id c = 0 then return
    else
      modify (·.modTask c fun item => { item with wakeTick := wakeTick })
      schedBlockTask (s.id c)
      modify (·.modTask c fun item => { item with wakeTick := 0 })

def schedWakeExpired (nowTick : ℕ) : Prog State ℕ := do
  let wasEnabled ← schedLockIrq
  let woken ← act fun s => wakeLoop nowTick ((schedMaxTasks + 1) * (schedMaxTasks + 1)) s.blockedQueue 0 s
  schedUnlockIrq wasEnabled
  return woken

def schedHasRunnable : Prog State Bool := do
  let wasEnabled ← schedLockIrq
  if ← ask fun s => hasOther s (schedMaxTasks + 1) s.readyQueue then
    schedUnlockIrq wasEnabled
    return true
  else
    schedUnlockIrq wasEnabled
    return false

def runIdle : Prog State Unit := do
  if (← fetch (·.currentTask)) = none then
    modify fun s => { s.setState idleRef .running with currentTask := some idleRef }
  else return

def schedExit : Prog State Unit := do
  let s ← fetch fun s => s
  match s.currentTask with
  | none => return
  | some c =>
    if s.id c = 0 then return
    else
      let wasEnabled ← schedLockIrq
      attempt (bury c)
      modify fun s => { s with currentTask := none }
      schedUnlockIrq wasEnabled
      schedYield
      runIdle

def schedKill (id : ℕ) : Prog State Unit := do
  if id = 0 then return
  else
    let s ← fetch fun s => s
    if s.currentTask.any fun c => s.id c = id then schedExit
    else
      let wasEnabled ← schedLockIrq
      match ← schedFind id with
      | none => schedUnlockIrq wasEnabled
      | some t =>
        if (← fetch (·.id t)) = 0 then schedUnlockIrq wasEnabled
        else
          attempt (bury t)
          schedUnlockIrq wasEnabled

def schedSetPolicy (policy : ℕ) : Prog State Unit := do
  if policy ≠ 0 ∧ policy ≠ 1 then return
  else modify (Sched.schedSetPolicy policy)

def schedGetPolicy : Prog State SchedPolicy := fetch (·.currentPolicy)

def schedSetPriority (item : Option TaskRef) (priority : ℕ) : Prog State Unit := do
  match item with
  | none => return
  | some t =>
    if (← fetch (·.state t)) = .dead then return
    else modify (Sched.schedSetPriority (some t) priority)

def schedGetPriority (item : Option TaskRef) : Prog State ℕ := do
  match item with
  | none => return 0
  | some t => fetch fun s => (s.tasks t).priority

/-- What is written to a `Stats` that is not null. -/
def schedGetStats (stats : Bool) : Prog State (Option SchedStats) := do
  if !stats then return none
  else
    let wasEnabled ← schedLockIrq
    let counted ← fetch Sched.schedGetStats
    schedUnlockIrq wasEnabled
    return some counted

def schedLock : Prog State Unit := modify Sched.schedLock

def schedUnlock : Prog State Unit := do
  if (← fetch (·.schedulerLocked)) > 0 then modify Sched.schedUnlock
  else return

end Novium.Kernel
