import Novium.Sched.State

/-! The functions of `kernel/sched.c`. A result of `none` is a loop that never
ends: every list walk carries as fuel the number of steps after which it must
have met a node twice. A call runs up to its context switch; the part of it
behind the switch is a `Frame` on the task's stack, taken up by `finishFrame`
when the task runs again, or at once when `SchedYield` does not switch. -/

namespace Novium.Sched

open Novium.Lib

def schedLockIrq (s : State) : State := { s with irqsEnabled := false }

def schedUnlockIrq (wasEnabled : Bool) (s : State) : State :=
  if wasEnabled then { s with irqsEnabled := true } else s

def queueTail (next : TaskRef → Option TaskRef) : ℕ → TaskRef → Option TaskRef
  | 0, _ => none
  | n + 1, cur =>
    match next cur with
    | none => some cur
    | some nx => queueTail next n nx

def schedQueueAdd (q : Queue) (item : TaskRef) (s : State) : Option State :=
  let s := s.setNext item none
  match s.head q with
  | none => some (s.setHead q (some item))
  | some h => (queueTail s.next schedMaxTasks h).map fun last => s.setNext last (some item)

def queueUnlink (q : Queue) (prev : Option TaskRef) (cur : TaskRef) (s : State) : State :=
  let s' := match prev with
    | none => s.setHead q (s.next cur)
    | some p => s.setNext p (s.next cur)
  s'.setNext cur none

def queueRemoveLoop (q : Queue) (item : TaskRef) (s : State) :
    ℕ → Option TaskRef → Option TaskRef → Option State
  | 0, _, _ => none
  | _ + 1, _, none => some s
  | n + 1, prev, some cur =>
    if cur = item then some (queueUnlink q prev cur s)
    else queueRemoveLoop q item s n (some cur) (s.next cur)

def schedQueueRemove (q : Queue) (item : TaskRef) (s : State) : Option State :=
  queueRemoveLoop q item s (schedMaxTasks + 1) none (s.head q)

def findAfter (s : State) (id : ℕ) : ℕ → Option TaskRef → Option (Option TaskRef)
  | 0, _ => none
  | _ + 1, none => some s.readyQueue
  | n + 1, some t => if s.id t > id then some (some t) else findAfter s id n (s.next t)

def schedFindRoundRobin (s : State) : Option (Option TaskRef) :=
  match s.currentTask with
  | none => some s.readyQueue
  | some c => findAfter s (s.id c) (schedMaxTasks + 1) s.readyQueue

def findBest (s : State) : ℕ → Option TaskRef → Option TaskRef → Option (Option TaskRef)
  | 0, _, _ => none
  | _ + 1, none, best => some best
  | n + 1, some t, none => findBest s n (s.next t) (some t)
  | n + 1, some t, some b =>
    findBest s n (s.next t) (if (s.tasks t).priority > (s.tasks b).priority then some t else some b)

def schedFindPriority (s : State) : Option (Option TaskRef) :=
  findBest s (schedMaxTasks + 1) s.readyQueue none

def schedFindNext (s : State) : Option (Option TaskRef) :=
  match s.currentPolicy with
  | .priority => schedFindPriority s
  | .roundRobin => schedFindRoundRobin s

def resetTask (item : Task) : Task :=
  { item with
    id := 0, parentId := 0, eip := 0, esp := 0, ebp := 0, priority := 1, timeSlice := 10
    timeUsed := 0, runtime := 0, switches := 0, wakeTick := 0, state := .dead
    name := Function.update item.name 0 0, next := none }

def schedResetTask (t : TaskRef) (s : State) : State := s.modTask t resetTask

/-- The bytes `Name[0] .. Name[4]` that `SchedInit` writes. -/
def idleName (name : ℕ → UInt8) : ℕ → UInt8
  | 0 => 73
  | 1 => 100
  | 2 => 108
  | 3 => 101
  | 4 => 0
  | n => name n

def schedInit (s : State) : State :=
  let s := { s with
    readyQueue := none, blockedQueue := none, deadQueue := none, currentTask := none
    taskCountValue := 0, nextTaskId := 0, schedulerTicks := 0, contextSwitches := 0
    schedulerLocked := 0, preemptPending := false
    tasks := fun t => resetTask (s.tasks t) }
  let s := s.modTask 0 fun item =>
    { item with id := s.nextTaskId, parentId := 0, priority := 0, timeSlice := 10, state := .running
                name := idleName item.name }
  { s with nextTaskId := 1, currentTask := some 0, taskCountValue := 1 }

abbrev idleRef : TaskRef := 0

def stacked (esp : ℕ) (item : Task) : Task := { item with esp := esp }

/-- Eight words are pushed, so `Esp` ends 32 bytes below the top. What the stack
says from then on is a task that starts with interrupts on and no open call. -/
def schedInitStack (t : TaskRef) (stackTop : ℕ) (s : State) : State :=
  { s.modTask t (stacked (sub32 stackTop 32)) with
    context := Function.update s.context t ⟨true, []⟩ }

def copyName (src : ℕ → UInt8) : ℕ → ℕ → (ℕ → UInt8) → ℕ → UInt8
  | 0, i, dst => Function.update dst i 0
  | n + 1, i, dst =>
    if src i = 0 then Function.update dst i 0
    else copyName src n (i + 1) (Function.update dst i (src i))

def numbered (id : ℕ) (item : Task) : Task := { item with id := id }

def childOf (parentId : ℕ) (item : Task) : Task := { item with parentId := parentId }

def started (eip : ℕ) (name : ℕ → UInt8) (item : Task) : Task :=
  { item with
    eip := eip, ebp := item.esp, priority := 1, timeSlice := 10, timeUsed := 0, runtime := 0
    switches := 0, state := .ready, name := copyName name (schedNameLength - 1) 0 item.name }

/-- The fields that `SchedCreate` fills in; `WakeTick` keeps what the reset left. -/
def describeTask (t : TaskRef) (name : ℕ → UInt8) (eip esp : ℕ) (s : State) : State :=
  let s := { s.modTask t (numbered s.nextTaskId) with nextTaskId := u32 (s.nextTaskId + 1) }
  let parentId := match s.currentTask with
    | some c => s.id c
    | none => 0
  (schedInitStack t esp (s.modTask t (childOf parentId))).modTask t (started eip name)

/-- The state, and the `Task *` returned. -/
def schedCreate (name : Option (ℕ → UInt8)) (eip esp : ℕ) (s : State) :
    Option (State × Option TaskRef) :=
  match name with
  | none => some (s, none)
  | some name =>
    if s.taskCountValue ≥ schedMaxTasks then some (s, none)
    else
      let was := s.irqsEnabled
      let s := schedLockIrq s
      match (List.finRange 32).find? fun t => s.state t = .dead with
      | none => some (schedUnlockIrq was s, none)
      | some t => do
        let s ← schedQueueRemove .dead t s
        let s ← schedQueueAdd .ready t (describeTask t name eip esp s)
        let s := { s with taskCountValue := u32 (s.taskCountValue + 1) }
        some (schedUnlockIrq was s, some t)

def schedFind (id : ℕ) (s : State) : Option TaskRef :=
  (List.finRange 32).find? fun t => s.state t ≠ .dead ∧ s.id t = id

/-- The end of `SchedBlockTask` for the calling task `t`: a block that the yield did
not act on is undone. -/
def unblockSelf (t : TaskRef) (s : State) : Option State :=
  let was := s.irqsEnabled
  let s := schedLockIrq s
  if s.state t = .blocked then do
    let s ← schedQueueRemove .blocked t s
    some (schedUnlockIrq was (s.setState t .running))
  else some (schedUnlockIrq was s)

/-- What is left of a call once the `SchedYield` inside it has returned, which is
when the task that made the call is current again. -/
def finishFrame (s : State) : Frame → Option State
  | .yield was => some (schedUnlockIrq was s)
  | .blockTask =>
    match s.currentTask with
    | none => some s
    | some t => unblockSelf t s
  | .sleepUntil =>
    match s.currentTask with
    | none => some s
    | some t => some (s.modTask t fun item => { item with wakeTick := 0 })
  | .exit =>
    match s.currentTask with
    | none => some { s.setState 0 .running with currentTask := some 0 }
    | some _ => some s

def resume (callers : List Frame) (s : State) : Option State := callers.foldlM finishFrame s

/-- The frames of the switched-out task are those of the calls it is in now, on
top of what its stack already held; a null `PrevTask` saves into a scratch word. -/
def schedSwitch (prev : Option TaskRef) (frames : List Frame) (nextTask : TaskRef) (s : State) : State :=
  let s' := match prev with
    | none => s
    | some p => { s.modTask p fun item => { item with esp := s.cpuEsp } with
        context := Function.update s.context p ⟨s.irqsEnabled, frames ++ (s.context p).frames⟩ }
  { s' with cpuEsp := (s.tasks nextTask).esp, irqsEnabled := (s'.context nextTask).irqs }

/-- A `PrevTask` that is still running goes back to the ready queue. -/
def requeue (prev : Option TaskRef) (s : State) : Option State :=
  match prev with
  | none => some s
  | some p => if s.state p = .running then schedQueueAdd .ready p (s.setState p .ready) else some s

def elected (item : Task) : Task :=
  { item with state := .running, timeUsed := 0, switches := u32 (item.switches + 1) }

def makeCurrent (nextTask : TaskRef) (s : State) : State :=
  { s.modTask nextTask elected with
    currentTask := some nextTask, contextSwitches := u32 (s.contextSwitches + 1) }

/-- The part of `SchedYield` behind its tests, for the task it has chosen. -/
def switchTo (callers : List Frame) (nextTask : TaskRef) (s : State) : Option State := do
  let prev := s.currentTask
  let s ← schedQueueRemove .ready nextTask s
  let s ← requeue prev s
  some (schedSwitch prev callers nextTask (makeCurrent nextTask s))

/-- `SchedYield` called under the open calls `callers`. -/
def schedYieldIn (callers : List Frame) (s : State) : Option State :=
  let was := s.irqsEnabled
  let s := schedLockIrq s
  if s.schedulerLocked ≠ 0 then resume callers (schedUnlockIrq was s)
  else do
    match ← schedFindNext s with
    | none => resume callers (schedUnlockIrq was s)
    | some nextTask =>
      if s.currentTask = some nextTask then resume callers (schedUnlockIrq was s)
      else switchTo (.yield was :: callers) nextTask s

def schedYield (s : State) : Option State := schedYieldIn [] s

def ticked (item : Task) : Task :=
  { item with runtime := u32 (item.runtime + 1), timeUsed := u32 (item.timeUsed + 1) }

/-- A used-up slice only asks for a preemption. -/
def tickCurrent (c : TaskRef) (s : State) : State :=
  let s := s.modTask c ticked
  if (s.tasks c).timeUsed ≥ (s.tasks c).timeSlice then
    { s.modTask c fun item => { item with timeUsed := 0 } with preemptPending := true }
  else s

def schedTick (regs : Bool) (s : State) : State :=
  if !regs ∨ s.schedulerLocked ≠ 0 then s
  else
    let s := { s with schedulerTicks := u32 (s.schedulerTicks + 1) }
    match s.currentTask with
    | none => s
    | some c => tickCurrent c s

def schedPreempt (s : State) : Option State :=
  if !s.preemptPending then some s
  else if s.schedulerLocked ≠ 0 then some s
  else schedYield { s with preemptPending := false }

def schedBlockTaskIn (callers : List Frame) (id : ℕ) (s : State) : Option State :=
  let was := s.irqsEnabled
  let s := schedLockIrq s
  match schedFind id s with
  | none => resume callers (schedUnlockIrq was s)
  | some t =>
    if s.state t = .dead ∨ s.id t = 0 ∨ s.state t = .blocked then resume callers (schedUnlockIrq was s)
    else if s.currentTask = some t then do
      let s ← schedQueueRemove .ready t s
      let s ← schedQueueAdd .blocked t (s.setState t .blocked)
      schedYieldIn (.blockTask :: callers) (schedUnlockIrq was s)
    else do
      let s ← if s.state t = .ready then schedQueueRemove .ready t s else some s
      let s ← schedQueueAdd .blocked t (s.setState t .blocked)
      resume callers (schedUnlockIrq was s)

def schedBlockTask (id : ℕ) (s : State) : Option State := schedBlockTaskIn [] id s

def schedBlock (s : State) : Option State :=
  match s.currentTask with
  | none => some s
  | some c => if s.id c = 0 then some s else schedBlockTask (s.id c) s

def unblockSection (t : TaskRef) (s : State) : Option State := do
  let was := s.irqsEnabled
  let s ← schedQueueRemove .blocked t (schedLockIrq s)
  let s ← schedQueueAdd .ready t (s.setState t .ready)
  some (schedUnlockIrq was s)

/-- The test that `SchedUnblock` makes before it masks interrupts. -/
def unblockTest (item : Option TaskRef) (s : State) : Option TaskRef :=
  item.filter fun t => s.state t = .blocked

def schedUnblock (item : Option TaskRef) (s : State) : Option State :=
  match unblockTest item s with
  | none => some s
  | some t => unblockSection t s

def schedWakeTask (id : ℕ) (s : State) : Option State :=
  match schedFind id s with
  | none => some s
  | some t => schedUnblock (some t) s

def schedSleepUntil (wakeTick : ℕ) (s : State) : Option State :=
  match s.currentTask with
  | none => some s
  | some c =>
    if s.id c = 0 then some s
    else schedBlockTaskIn [.sleepUntil] (s.id c) (s.modTask c fun item => { item with wakeTick := wakeTick })

/-- `WakeTick != 0 && (s32)(NowTick - WakeTick) >= 0` -/
def expired (nowTick : ℕ) (item : Task) : Bool :=
  item.wakeTick ≠ 0 && nonneg32 (sub32 nowTick item.wakeTick)

def wakeOne (t : TaskRef) (s : State) : Option State := do
  let s := s.modTask t fun item => { item with wakeTick := 0 }
  let s ← schedQueueRemove .blocked t s
  schedQueueAdd .ready t (s.setState t .ready)

def wakeLoop (nowTick : ℕ) : ℕ → Option TaskRef → ℕ → State → Option (State × ℕ)
  | 0, _, _, _ => none
  | _ + 1, none, woken, s => some (s, woken)
  | n + 1, some t, woken, s =>
    let nx := s.next t
    if expired nowTick (s.tasks t) then do
      let s ← wakeOne t s
      wakeLoop nowTick n nx (u32 (woken + 1)) s
    else wakeLoop nowTick n nx woken s

/-- Each wake clears a `WakeTick`, so at most 32 of them happen, and between two of
them a walk that ends meets every node once. -/
def schedWakeExpired (nowTick : ℕ) (s : State) : Option (State × ℕ) := do
  let was := s.irqsEnabled
  let (s, woken) ← wakeLoop nowTick ((schedMaxTasks + 1) * (schedMaxTasks + 1)) s.blockedQueue 0
    (schedLockIrq s)
  some (schedUnlockIrq was s, woken)

def hasOther (s : State) : ℕ → Option TaskRef → Option Bool
  | 0, _ => none
  | _ + 1, none => some false
  | n + 1, some t => if s.currentTask = some t then hasOther s n (s.next t) else some true

def schedHasRunnable (s : State) : Option (State × Bool) := do
  let was := s.irqsEnabled
  let s := schedLockIrq s
  let found ← hasOther s (schedMaxTasks + 1) s.readyQueue
  some (schedUnlockIrq was s, found)

def dropCount (s : State) : State :=
  if s.taskCountValue > 0 then { s with taskCountValue := s.taskCountValue - 1 } else s

/-- What `SchedExit` and `SchedKill` do to the descriptor of the leaving task. -/
def bury (t : TaskRef) (s : State) : Option State := do
  let s ← schedQueueRemove .ready t s
  let s ← schedQueueRemove .blocked t s
  let s ← schedQueueAdd .dead t (schedResetTask t s)
  some (dropCount s)

def schedExit (s : State) : Option State :=
  match s.currentTask with
  | none => some s
  | some c =>
    if s.id c = 0 then some s
    else do
      let was := s.irqsEnabled
      let s ← bury c (schedLockIrq s)
      schedYieldIn [.exit] (schedUnlockIrq was { s with currentTask := none })

def schedKill (id : ℕ) (s : State) : Option State :=
  if id = 0 then some s
  else if s.currentTask.any (fun c => s.id c = id) then schedExit s
  else
    let was := s.irqsEnabled
    let s := schedLockIrq s
    match schedFind id s with
    | none => some (schedUnlockIrq was s)
    | some t =>
      if s.id t = 0 then some (schedUnlockIrq was s)
      else do
        let s ← bury t s
        some (schedUnlockIrq was s)

/-- The argument is the enumeration's integer, so that values outside it exist. -/
def schedSetPolicy (policy : ℕ) (s : State) : State :=
  match policy with
  | 0 => { s with currentPolicy := .roundRobin }
  | 1 => { s with currentPolicy := .priority }
  | _ => s

def schedSetPriority (item : Option TaskRef) (priority : ℕ) (s : State) : State :=
  match item with
  | none => s
  | some t =>
    if s.state t = .dead then s
    else s.modTask t fun item => { item with priority := if priority > 255 then 255 else priority }

structure SchedStats where
  totalTasks : ℕ
  runningTasks : ℕ
  readyTasks : ℕ
  blockedTasks : ℕ
  deadTasks : ℕ
  schedulerTicks : ℕ
  contextSwitches : ℕ
  deriving DecidableEq, Repr

def SchedStats.count (stats : SchedStats) : TaskState → SchedStats
  | .running => { stats with runningTasks := u32 (stats.runningTasks + 1) }
  | .ready => { stats with readyTasks := u32 (stats.readyTasks + 1) }
  | .blocked => { stats with blockedTasks := u32 (stats.blockedTasks + 1) }
  | .dead => { stats with deadTasks := u32 (stats.deadTasks + 1) }

/-- What a `Stats` that is not null holds afterwards; the scheduler's own state is only read. -/
def schedGetStats (s : State) : SchedStats :=
  (List.finRange 32).foldl (fun stats t => stats.count (s.state t))
    ⟨s.taskCountValue, 0, 0, 0, 0, s.schedulerTicks, s.contextSwitches⟩

def schedLock (s : State) : State := { s with schedulerLocked := u32 (s.schedulerLocked + 1) }

def schedUnlock (s : State) : State :=
  if s.schedulerLocked > 0 then { s with schedulerLocked := s.schedulerLocked - 1 } else s

end Novium.Sched
