import Novium.Lib.Word
import Mathlib.Data.Fin.Basic
import Mathlib.Data.List.FinRange
import Mathlib.Logic.Function.Basic

/-! The data of `kernel/sched.c`: the descriptor table, the three queues threaded
through its `Next` fields, and the static counters. A `Task *` is an index of the
table or null. Beside the C data stands what `SchedSwitch` saves and restores for
a task: its interrupt flag and the scheduler calls it has still to finish. -/

namespace Novium.Sched

open Novium.Lib

def schedMaxTasks : ℕ := 32
def schedNameLength : ℕ := 32

inductive TaskState where
  | dead | ready | running | blocked
  deriving DecidableEq, Repr

inductive SchedPolicy where
  | roundRobin | priority
  deriving DecidableEq, Repr

abbrev TaskRef := Fin 32

structure Task where
  id : ℕ
  parentId : ℕ
  eip : ℕ
  esp : ℕ
  ebp : ℕ
  priority : ℕ
  timeSlice : ℕ
  timeUsed : ℕ
  runtime : ℕ
  switches : ℕ
  wakeTick : ℕ
  state : TaskState
  name : ℕ → UInt8
  next : Option TaskRef

/-- A scheduler function that has called `SchedYield`, or a function that does, and
is waiting for it to return. The `TaskItem` of `SchedBlockTask` and `SchedSleepUntil`
is then the task on whose stack the call is. -/
inductive Frame where
  | yield (wasEnabled : Bool)
  | blockTask
  | sleepUntil
  | exit
  deriving DecidableEq, Repr

/-- What a task's stack holds while it is switched out: the interrupt flag of the
saved eflags and the calls to return through, innermost first. -/
structure Context where
  irqs : Bool
  frames : List Frame

inductive Queue where
  | ready | blocked | dead
  deriving DecidableEq, Repr

structure State where
  tasks : TaskRef → Task
  readyQueue : Option TaskRef
  blockedQueue : Option TaskRef
  deadQueue : Option TaskRef
  currentTask : Option TaskRef
  currentPolicy : SchedPolicy
  taskCountValue : ℕ
  nextTaskId : ℕ
  schedulerTicks : ℕ
  contextSwitches : ℕ
  schedulerLocked : ℕ
  preemptPending : Bool
  irqsEnabled : Bool
  cpuEsp : ℕ
  context : TaskRef → Context

namespace State

def next (s : State) (t : TaskRef) : Option TaskRef := (s.tasks t).next
def state (s : State) (t : TaskRef) : TaskState := (s.tasks t).state
def id (s : State) (t : TaskRef) : ℕ := (s.tasks t).id

def head (s : State) : Queue → Option TaskRef
  | .ready => s.readyQueue
  | .blocked => s.blockedQueue
  | .dead => s.deadQueue

def heads (s : State) : Option TaskRef × Option TaskRef × Option TaskRef :=
  (s.readyQueue, s.blockedQueue, s.deadQueue)

theorem head_congr {s s' : State} (h : s'.heads = s.heads) : s'.head = s.head := by
  simp only [heads, Prod.mk.injEq] at h
  funext q
  cases q
  · exact h.1
  · exact h.2.1
  · exact h.2.2

def setHead (s : State) : Queue → Option TaskRef → State
  | .ready, h => { s with readyQueue := h }
  | .blocked, h => { s with blockedQueue := h }
  | .dead, h => { s with deadQueue := h }

def modTask (s : State) (t : TaskRef) (f : Task → Task) : State :=
  { s with tasks := Function.update s.tasks t (f (s.tasks t)) }

def setNext (s : State) (t : TaskRef) (n : Option TaskRef) : State :=
  s.modTask t fun item => { item with next := n }

def setState (s : State) (t : TaskRef) (st : TaskState) : State :=
  s.modTask t fun item => { item with state := st }

def setFrames (s : State) (t : TaskRef) (fs : List Frame) : State :=
  { s with context := Function.update s.context t ⟨(s.context t).irqs, fs⟩ }

/-- All links of the queues replaced, and nothing else. -/
def setLinks (s : State) (nx : TaskRef → Option TaskRef) (hd : Queue → Option TaskRef) : State :=
  { s with
    tasks := fun t => { s.tasks t with next := nx t }
    readyQueue := hd .ready
    blockedQueue := hd .blocked
    deadQueue := hd .dead }

end State

/-- The zeroed memory that `SchedInit` finds at boot. -/
def bootState : State where
  tasks _ := ⟨0, 0, 0, 0, 0, 0, 0, 0, 0, 0, 0, .dead, fun _ => 0, none⟩
  readyQueue := none
  blockedQueue := none
  deadQueue := none
  currentTask := none
  currentPolicy := .roundRobin
  taskCountValue := 0
  nextTaskId := 0
  schedulerTicks := 0
  contextSwitches := 0
  schedulerLocked := 0
  preemptPending := false
  irqsEnabled := true
  cpuEsp := 0
  context _ := ⟨true, []⟩

end Novium.Sched
