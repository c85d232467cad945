import Novium.Kernel.Flag
import Novium.Sched.Runs

/-! The public functions of `kernel/sched.c`, `ipc/ipc.c`, `ipc/message.c` and `ipc/sync.c` as the
calls of one kernel, and the interrupt flag over its runs. -/

namespace Novium.Kernel

open Novium.Lib Novium.Lib.Prog Novium.Sched Novium.Ipc

inductive Call where
  | schedInit
  | schedInitStack (t : TaskRef) (stackTop : ℕ)
  | schedCreate (name : Option (ℕ → UInt8)) (eip esp : ℕ)
  | schedCurrent
  | schedFind (id : ℕ)
  | schedTaskCount
  | schedYield
  | schedTick (regs : Bool)
  | schedPreempt
  | schedBlock
  | schedBlockTask (id : ℕ)
  | schedUnblock (item : Option TaskRef)
  | schedWakeTask (id : ℕ)
  | schedSleepUntil (wakeTick : ℕ)
  | schedWakeExpired (nowTick : ℕ)
  | schedHasRunnable
  | schedExit
  | schedKill (id : ℕ)
  | schedSetPolicy (policy : ℕ)
  | schedGetPolicy
  | schedSetPriority (item : Option TaskRef) (priority : ℕ)
  | schedGetPriority (item : Option TaskRef)
  | schedGetStats (stats : Bool)
  | schedLock
  | schedUnlock
  | ipcSelfId
  | ipcWaitTakeLive (w : WaitRef)
  | ipcPark (w : WaitRef) (ready : Memory → Bool)
  | ipcWakeOne (w : WaitRef)
  | ipcPortIsCreated (port : Option ℕ)
  | ipcPortCreate (port : Option ℕ)
  | ipcPortDestroy (port : Option ℕ)
  | ipcPortQueued (port : Option ℕ)
  | ipcTrySend (port message : Option ℕ)
  | ipcSend (port message : Option ℕ)
  | ipcTryReceive (port out : Option ℕ)
  | ipcReceive (port out : Option ℕ)
  | semInit (sem : Option ℕ) (initial limit : ℕ)
  | semTryWait (sem : Option ℕ)
  | semWait (sem : Option ℕ)
  | semPost (sem : Option ℕ)
  | semCount (sem : Option ℕ)
  | mutexInit (mutex : Option ℕ)
  | mutexHeldByCaller (mutex : Option ℕ)
  | mutexTryLock (mutex : Option ℕ)
  | mutexLock (mutex : Option ℕ)
  | mutexUnlock (mutex : Option ℕ)

inductive Value where
  | void (u : Unit)
  | bool (b : Bool)
  | word (n : ℕ)
  | task (t : Option TaskRef)
  | policy (p : SchedPolicy)
  | stats (s : Option SchedStats)
  | status (st : IpcStatus)
  deriving DecidableEq, Repr

def Call.code (rounds : ℕ) : Call → Prog Memory Value
  | .schedInit => inSched (.void <$> Kernel.schedInit)
  | .schedInitStack t stackTop => inSched (.void <$> Kernel.schedInitStack t stackTop)
  | .schedCreate name eip esp => inSched (.task <$> Kernel.schedCreate name eip esp)
  | .schedCurrent => inSched (.task <$> Kernel.schedCurrent)
  | .schedFind id => inSched (.task <$> Kernel.schedFind id)
  | .schedTaskCount => inSched (.word <$> Kernel.schedTaskCount)
  | .schedYield => inSched (.void <$> Kernel.schedYield)
  | .schedTick regs => inSched (.void <$> Kernel.schedTick regs)
  | .schedPreempt => inSched (.void <$> Kernel.schedPreempt)
  | .schedBlock => inSched (.void <$> Kernel.schedBlock)
  | .schedBlockTask id => inSched (.void <$> Kernel.schedBlockTask id)
  | .schedUnblock item => inSched (.void <$> Kernel.schedUnblock item)
  | .schedWakeTask id => inSched (.void <$> Kernel.schedWakeTask id)
  | .schedSleepUntil wakeTick => inSched (.void <$> Kernel.schedSleepUntil wakeTick)
  | .schedWakeExpired nowTick => inSched (.word <$> Kernel.schedWakeExpired nowTick)
  | .schedHasRunnable => inSched (.bool <$> Kernel.schedHasRunnable)
  | .schedExit => inSched (.void <$> Kernel.schedExit)
  | .schedKill id => inSched (.void <$> Kernel.schedKill id)
  | .schedSetPolicy policy => inSched (.void <$> Kernel.schedSetPolicy policy)
  | .schedGetPolicy => inSched (.policy <$> Kernel.schedGetPolicy)
  | .schedSetPriority item priority => inSched (.void <$> Kernel.schedSetPriority item priority)
  | .schedGetPriority item => inSched (.word <$> Kernel.schedGetPriority item)
  | .schedGetStats stats => inSched (.stats <$> Kernel.schedGetStats stats)
  | .schedLock => inSched (.void <$> Kernel.schedLock)
  | .schedUnlock => inSched (.void <$> Kernel.schedUnlock)
  | .ipcSelfId => .word <$> Kernel.ipcSelfId
  | .ipcWaitTakeLive w => .word <$> Kernel.ipcWaitTakeLive w
  | .ipcPark w ready => .status <$> Kernel.ipcPark rounds w ready
  | .ipcWakeOne w => .void <$> Kernel.ipcWakeOne w
  | .ipcPortIsCreated port => .bool <$> Kernel.ipcPortIsCreated port
  | .ipcPortCreate port => .status <$> Kernel.ipcPortCreate port
  | .ipcPortDestroy port => .status <$> Kernel.ipcPortDestroy port
  | .ipcPortQueued port => .word <$> Kernel.ipcPortQueued port
  | .ipcTrySend port message => .status <$> Kernel.ipcTrySend port message
  | .ipcSend port message => .status <$> Kernel.ipcSend rounds port message
  | .ipcTryReceive port out => .status <$> Kernel.ipcTryReceive port out
  | .ipcReceive port out => .status <$> Kernel.ipcReceive rounds port out
  | .semInit sem initial limit => .void <$> Kernel.semInit sem initial limit
  | .semTryWait sem => .status <$> Kernel.semTryWait sem
  | .semWait sem => .status <$> Kernel.semWait rounds sem
  | .semPost sem => .status <$> Kernel.semPost sem
  | .semCount sem => .word <$> Kernel.semCount sem
  | .mutexInit mutex => .void <$> Kernel.mutexInit mutex
  | .mutexHeldByCaller mutex => .bool <$> Kernel.mutexHeldByCaller mutex
  | .mutexTryLock mutex => .status <$> Kernel.mutexTryLock mutex
  | .mutexLock mutex => .status <$> Kernel.mutexLock rounds mutex
  | .mutexUnlock mutex => .status <$> Kernel.mutexUnlock mutex

/-- The calls that write outside their own sections: to fields that one task owns or a single
word, before anybody else knows the object, or under the caller's mask. -/
def Call.bare : Call → Bool
  | .schedInit => true
  | .schedInitStack _ _ => true
  | .schedTick _ => true
  | .schedPreempt => true
  | .schedSleepUntil _ => true
  | .schedExit => true
  | .schedKill _ => true
  | .schedSetPolicy _ => true
  | .schedSetPriority _ _ => true
  | .schedLock => true
  | .schedUnlock => true
  | .ipcWaitTakeLive _ => true
  | .semInit _ _ _ => true
  | .mutexInit _ => true
  | _ => false

/-- Which flag a call may write under. -/
def Call.Mask (c : Call) (b : Bool) : Prop := c.bare = true ∨ b = false

theorem Call.restores (c : Call) (rounds : ℕ) : Restores c.Mask (c.code rounds) := by
  have hoff : c.Mask false := Or.inr rfl
  have hbare : c.bare = true → ∀ b, c.Mask b := fun h _ => Or.inl h
  cases c with
  | schedInit => exact inSched_restores ((restores_modify (hbare rfl) _).map _)
  | schedInitStack t stackTop => exact inSched_restores ((restores_modify (hbare rfl) _).map _)
  | schedCreate name eip esp => exact inSched_restores ((schedCreate_restores hoff name eip esp).map _)
  | schedCurrent => exact inSched_restores ((restores_fetch _).map _)
  | schedFind id => exact inSched_restores ((restores_fetch _).map _)
  | schedTaskCount => exact inSched_restores ((restores_fetch _).map _)
  | schedYield => exact inSched_restores ((schedYield_restores hoff).map _)
  | schedTick regs => exact inSched_restores ((schedTick_restores (hbare rfl) regs).map _)
  | schedPreempt => exact inSched_restores ((schedPreempt_restores (hbare rfl)).map _)
  | schedBlock => exact inSched_restores ((schedBlock_restores hoff).map _)
  | schedBlockTask id => exact inSched_restores ((schedBlockTask_restores hoff id).map _)
  | schedUnblock item => exact inSched_restores ((schedUnblock_restores hoff item).map _)
  | schedWakeTask id => exact inSched_restores ((schedWakeTask_restores hoff id).map _)
  | schedSleepUntil wakeTick => exact inSched_restores ((schedSleepUntil_restores (hbare rfl) wakeTick).map _)
  | schedWakeExpired nowTick => exact inSched_restores ((schedWakeExpired_restores hoff nowTick).map _)
  | schedHasRunnable => exact inSched_restores (schedHasRunnable_restores.map _)
  | schedExit => exact inSched_restores ((schedExit_restores (hbare rfl)).map _)
  | schedKill id => exact inSched_restores ((schedKill_restores (hbare rfl) id).map _)
  | schedSetPolicy policy => exact inSched_restores ((schedSetPolicy_restores (hbare rfl) policy).map _)
  | schedGetPolicy => exact inSched_restores ((restores_fetch _).map _)
  | schedSetPriority item priority =>
    exact inSched_restores ((schedSetPriority_restores (hbare rfl) item priority).map _)
  | schedGetPriority item => exact inSched_restores ((schedGetPriority_restores item).map _)
  | schedGetStats stats => exact inSched_restores ((schedGetStats_restores stats).map _)
  | schedLock => exact inSched_restores ((restores_modify (hbare rfl) _).map _)
  | schedUnlock => exact inSched_restores ((schedUnlock_restores (hbare rfl)).map _)
  | ipcSelfId => exact ipcSelfId_restores.map _
  | ipcWaitTakeLive w => exact (ipcWaitTakeLive_restores (hbare rfl) w).map _
  | ipcPark w ready => exact (ipcPark_restores hoff rounds w ready).map _
  | ipcWakeOne w => exact (ipcWakeOne_restores hoff w).map _
  | ipcPortIsCreated port => exact (ipcPortIsCreated_restores port).map _
  | ipcPortCreate port => exact (ipcPortCreate_restores hoff port).map _
  | ipcPortDestroy port => exact (ipcPortDestroy_restores hoff port).map _
  | ipcPortQueued port => exact (ipcPortQueued_restores port).map _
  | ipcTrySend port message => exact (ipcTrySend_restores hoff port message).map _
  | ipcSend port message => exact (ipcSend_restores hoff rounds port message).map _
  | ipcTryReceive port out => exact (ipcTryReceive_restores hoff port out).map _
  | ipcReceive port out => exact (ipcReceive_restores hoff rounds port out).map _
  | semInit sem initial limit => exact (semInit_restores (hbare rfl) sem initial limit).map _
  | semTryWait sem => exact (semTryWait_restores hoff sem).map _
  | semWait sem => exact (semWait_restores hoff rounds sem).map _
  | semPost sem => exact (semPost_restores hoff sem).map _
  | semCount sem => exact (semCount_restores sem).map _
  | mutexInit mutex => exact (mutexInit_restores (hbare rfl) mutex).map _
  | mutexHeldByCaller mutex => exact (mutexHeldByCaller_restores mutex).map _
  | mutexTryLock mutex => exact (mutexTryLock_restores hoff mutex).map _
  | mutexLock mutex => exact (mutexLock_restores hoff rounds mutex).map _
  | mutexUnlock mutex => exact (mutexUnlock_restores hoff mutex).map _

/-- A call of any public function that returns leaves the interrupt flag as it found it, in every run
from every state of the machine. A call that is not bare writes with the flag clear only. -/
theorem flag_restored (call : Call) (rounds : ℕ) (t : TaskRef) {c c' : Cpu TaskRef Memory Value}
    (hcall : c.At t (call.code rounds)) (hrun : Cpu.system.Leads (Cpu.Spares t) c c') :
    (∀ v, c'.At t (.ret v) → c'.flag = c.flag) ∧
      (call.bare = false → ∀ f k, c'.At t (.write f k) → c'.flag = false) := by
  constructor
  · intro v hret
    exact hcall.restored (call.restores rounds) hrun hret
  · intro hbare f k hw
    rcases hcall.writes (call.restores rounds) hrun hw with h | h
    · rw [hbare] at h
      cases h
    · exact h

/-- A scheduler with the idle task ready and task 1 running. -/
def oneTask : State :=
  (((Sched.schedCreate (some fun _ => 0) 0 0 (Sched.schedInit bootState)).map Prod.fst).bind Sched.schedYield).getD
    bootState

/-- The task `t` calls `SemWait` on a semaphore without permits, and the others are about to post. -/
def waitingCpu (t : TaskRef) : Cpu TaskRef Memory Value where
  memory :=
    ⟨oneTask, fun _ => emptyWait, fun _ => ⟨0, 0, 0, fun _ => ⟨0, 0, fun _ => 0⟩, emptyWait, emptyWait⟩,
      fun _ => ⟨0, 0, emptyWait⟩, fun _ => Ipc.mutexInit, fun _ => ⟨0, 0, fun _ => 0⟩⟩
  flag := true
  current := t
  threads := fun u =>
    if u = t then ⟨(Call.semWait (some 0)).code 2, [], false⟩ else ⟨(Call.semPost (some 0)).code 2, [], true⟩

/-- An interrupt comes in before the call of the task `t`, which parks and is switched out with the flag clear; the idle
task posts, wakes it and yields; and its call returns with the flag set. -/
def waitingRun (t : TaskRef) : List (CpuEvent TaskRef Memory Value) :=
  [.interrupt (inSched schedPreempt), .step, .step] ++ List.replicate 32 .step ++ [.switch idleRef] ++
    List.replicate 20 .step ++ [.call (Call.schedYield.code 2)] ++ List.replicate 11 .step ++ [.switch t] ++
    List.replicate 15 .step

theorem flag_restored_semWait :
    ∃ c', Cpu.system.Leads (Cpu.Spares 1) (waitingCpu 1) c' ∧ c'.result 1 = some (.status .ok) ∧ c'.flag = true := by
  have hrun : ((Cpu.system.runIf (Cpu.Spares 1) (waitingCpu 1) (waitingRun 1)).map (·.result 1)) =
      some (some (.status .ok)) := by
    decide +kernel
  obtain ⟨c', hrun, hres⟩ := Option.map_eq_some_iff.mp hrun
  have hleads := System.Leads.runIf .refl hrun
  have hcall : (waitingCpu 1).At 1 ((Call.semWait (some 0)).code 2) := ⟨rfl, rfl, rfl⟩
  exact ⟨c', hleads, hres, (flag_restored (.semWait (some 0)) 2 1 hcall hleads).1 _ (Cpu.result_eq_some hres)⟩

end Novium.Kernel
