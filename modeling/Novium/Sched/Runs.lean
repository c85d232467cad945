import Novium.Lib.Runs
import Novium.Sched.Lifecycle

/-! Runs of the scheduler: any calls with any arguments, each up to its context
switch, and the remainders of calls when their task runs again. -/

namespace Novium.Sched

open Novium.Lib

variable {D : Set TaskRef}

inductive Call where
  | create (name : Option (ℕ → UInt8)) (eip esp : ℕ)
  | yield
  | tick (regs : Bool)
  | preempt
  | block
  | blockTask (id : ℕ)
  | unblock (item : Option TaskRef)
  | wakeTask (id : ℕ)
  | sleepUntil (wakeTick : ℕ)
  | wakeExpired (nowTick : ℕ)
  | kill (id : ℕ)
  | exit
  | setPolicy (policy : ℕ)
  | setPriority (item : Option TaskRef) (priority : ℕ)
  | lock
  | unlock

def Call.run (s : State) : Call → Option State
  | .create name eip esp => (schedCreate name eip esp s).map Prod.fst
  | .yield => schedYield s
  | .tick regs => some (schedTick regs s)
  | .preempt => schedPreempt s
  | .block => schedBlock s
  | .blockTask id => schedBlockTask id s
  | .unblock item => schedUnblock item s
  | .wakeTask id => schedWakeTask id s
  | .sleepUntil wakeTick => schedSleepUntil wakeTick s
  | .wakeExpired nowTick => (schedWakeExpired nowTick s).map Prod.fst
  | .kill id => schedKill id s
  | .exit => schedExit s
  | .setPolicy policy => some (schedSetPolicy policy s)
  | .setPriority item priority => some (schedSetPriority item priority s)
  | .lock => some (schedLock s)
  | .unlock => some (schedUnlock s)

/-- The current task returns through the innermost call it was switched out in. -/
def finish (s : State) : Option State :=
  match s.currentTask with
  | none => none
  | some c =>
    match (s.context c).frames with
    | [] => none
    | f :: fs => finishFrame (s.setFrames c fs) f

inductive Event where
  | call (c : Call)
  | finish

/-- The scheduler from `SchedInit` on, which is called outside any scheduler call. -/
def system : System State Event where
  init s := ∃ boot : State, (∀ t, (boot.context t).frames = []) ∧ s = schedInit boot
  next s
    | .call c => c.run s
    | .finish => finish s

def Event.leaves (s : State) : Event → Bool
  | .call .exit => true
  | .call (.kill id) => s.currentTask.any fun c => s.id c = id
  | _ => false

/-- A task exits, or kills itself, only while `SchedulerLocked` is 0. -/
def LeavesUnlocked (s : State) (e : Event) : Prop := e.leaves s = true → s.schedulerLocked = 0

instance (s : State) (e : Event) : Decidable (LeavesUnlocked s e) :=
  inferInstanceAs (Decidable (_ → _))

theorem schedInit_state (boot : State) (t : TaskRef) :
    (schedInit boot).state t = if t = 0 then .running else .dead := by
  simp only [schedInit, State.state, State.modTask]
  by_cases ht : t = 0
  · subst ht; simp
  · simp [ht, resetTask]

theorem init_inv (boot : State) : Inv ∅ (schedInit boot) := by
  have hst := schedInit_state boot
  have hq : Queues ∅ (schedInit boot) fun _ => [] := by
    refine ⟨fun q => by cases q <;> rfl, by simp, by simp, fun t _ q hD h => ?_⟩
    rw [hst] at h
    cases q with
    | ready => split_ifs at h <;> cases h
    | blocked => split_ifs at h <;> cases h
    | dead => exact absurd (hD rfl) (Set.notMem_empty t)
  refine ⟨⟨⟨_, hq⟩, fun t h => ?_, ?_, ?_⟩, 0, rfl, hst 0⟩
  · rw [hst] at h
    split_ifs at h with h0
    rw [h0]
    rfl
  · rw [hst]; simp
  · simp [schedInit, State.id, State.modTask]

theorem finish_inv {s s' : State} (h : Inv D s) (hrun : finish s = some s') : Inv D s' := by
  obtain ⟨c, hc, -⟩ := h.current
  simp only [finish, hc] at hrun
  cases hfr : (s.context c).frames with
  | nil => simp [hfr] at hrun
  | cons f fs =>
    simp only [hfr] at hrun
    have hi : Inv D (s.setFrames c fs) := h.congr rfl rfl rfl rfl rfl
    obtain ⟨s'', h1, h2⟩ := finishFrame_inv hi f
    rw [h1, Option.some.injEq] at hrun
    exact hrun ▸ h2

theorem call_inv {s : State} (h : Inv D s) (c : Call) (hok : LeavesUnlocked s (.call c)) :
    ∃ s', c.run s = some s' ∧ Inv D s' := by
  cases c with
  | create name eip esp =>
    obtain ⟨s', r, h1, h2⟩ := schedCreate_inv h name eip esp
    exact ⟨s', by simp [Call.run, h1], h2⟩
  | yield => exact schedYield_inv h
  | tick regs => exact ⟨_, rfl, schedTick_inv h regs⟩
  | preempt => exact schedPreempt_inv h
  | block => exact schedBlock_inv h
  | blockTask id => exact schedBlockTask_inv h id
  | unblock item => exact schedUnblock_inv h item
  | wakeTask id => exact schedWakeTask_inv h id
  | sleepUntil wakeTick => exact schedSleepUntil_inv h wakeTick
  | wakeExpired nowTick =>
    obtain ⟨s', w, h1, h2, -⟩ := schedWakeExpired_inv h nowTick
    exact ⟨s', by simp [Call.run, h1], h2⟩
  | kill id => exact schedKill_inv h id hok
  | exit => exact schedExit_inv h (hok rfl)
  | setPolicy policy => exact ⟨_, rfl, schedSetPolicy_inv h policy⟩
  | setPriority item priority => exact ⟨_, rfl, schedSetPriority_inv h item priority⟩
  | lock => exact ⟨_, rfl, schedLock_inv h⟩
  | unlock => exact ⟨_, rfl, schedUnlock_inv h⟩

theorem next_inv {s s' : State} {e : Event} (h : Inv D s) (hok : LeavesUnlocked s e)
    (hrun : system.next s e = some s') : Inv D s' := by
  cases e with
  | call c =>
    obtain ⟨s'', h1, h2⟩ := call_inv h c hok
    rw [show system.next s (.call c) = c.run s from rfl, h1, Option.some.injEq] at hrun
    exact hrun ▸ h2
  | finish => exact finish_inv h hrun

theorem reachable_inv {s : State} (h : system.ReachableIf LeavesUnlocked s) : Inv ∅ s := by
  refine h.invariant ?_ fun s e s' hi hok hrun => next_inv hi hok hrun
  rintro s ⟨boot, -, rfl⟩
  exact init_inv boot

/-- From `SchedInit` the partition holds after any calls with any arguments, and
every call returns, as long as no task leaves under the scheduler lock. -/
theorem queue_partition {s : State} (h : system.ReachableIf LeavesUnlocked s) :
    Partition s ∧ ∀ c : Call, LeavesUnlocked s (.call c) → ∃ s', c.run s = some s' ∧ Partition s' := by
  have hi := reachable_inv h
  refine ⟨hi.partition, fun c hok => ?_⟩
  obtain ⟨s', h1, h2⟩ := call_inv hi c hok
  exact ⟨s', h1, h2.partition⟩

theorem system_init : system.init (schedInit bootState) := ⟨bootState, fun _ => rfl, rfl⟩

/-- `SchedCreate` of a task whose name, entry point and stack do not matter. -/
def createTask : Call := .create (some fun _ => 0) 0 0

/-- Two tasks, of which the first sleeps and the second exits. -/
theorem queue_partition_sleep_exit :
    ∃ s, system.ReachableIf LeavesUnlocked s ∧ s.currentTask = some 0 ∧ s.state 1 = .blocked ∧
      s.deadQueue = some 2 ∧ Partition s := by
  obtain ⟨s, -, hs, hp⟩ := System.exists_reachableIf LeavesUnlocked system_init
    ([createTask, createTask, .yield, .sleepUntil 5, .exit].map .call)
    (fun s => s.currentTask = some 0 ∧ s.state 1 = .blocked ∧ s.deadQueue = some 2) (by decide +kernel)
  obtain ⟨h1, h2, h3⟩ := of_decide_eq_true hp
  exact ⟨s, hs, h1, h2, h3, (queue_partition hs).1⟩

end Novium.Sched
