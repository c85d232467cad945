import Novium.Kernel.Calls
import Novium.Sched.Walk

/-! Run without an interruption, the functions of `kernel/sched.c` as written access by access are
the calls of the scheduler's model: up to a return, or up to the switch. -/

namespace Novium.Kernel

open Novium.Lib Novium.Lib.Prog Novium.Sched

def withIrqs (b : Bool) (s : State) : State := { s with irqsEnabled := b }

section

variable (b b' : Bool) (s : State)

@[simp] theorem withIrqs_irqsEnabled : (withIrqs b s).irqsEnabled = b := rfl
@[simp] theorem withIrqs_currentTask : (withIrqs b s).currentTask = s.currentTask := rfl
@[simp] theorem withIrqs_schedulerLocked : (withIrqs b s).schedulerLocked = s.schedulerLocked := rfl
@[simp] theorem withIrqs_taskCountValue : (withIrqs b s).taskCountValue = s.taskCountValue := rfl
@[simp] theorem withIrqs_preemptPending : (withIrqs b s).preemptPending = s.preemptPending := rfl
@[simp] theorem withIrqs_tasks : (withIrqs b s).tasks = s.tasks := rfl
@[simp] theorem withIrqs_state : (withIrqs b s).state = s.state := rfl
@[simp] theorem withIrqs_id : (withIrqs b s).id = s.id := rfl
@[simp] theorem withIrqs_next : (withIrqs b s).next = s.next := rfl
@[simp] theorem withIrqs_blockedQueue : (withIrqs b s).blockedQueue = s.blockedQueue := rfl
@[simp] theorem withIrqs_head (q : Queue) : (withIrqs b s).head q = s.head q := by cases q <;> rfl

@[simp] theorem schedLockIrq_withIrqs : Sched.schedLockIrq (withIrqs b s) = withIrqs false s := rfl

@[simp] theorem schedUnlockIrq_withIrqs : Sched.schedUnlockIrq b (withIrqs false s) = withIrqs b s := by
  cases b <;> rfl

@[simp] theorem setState_withIrqs (t : TaskRef) (st : TaskState) :
    (withIrqs b s).setState t st = withIrqs b (s.setState t st) := rfl

@[simp] theorem modTask_withIrqs (t : TaskRef) (f : Task → Task) :
    (withIrqs b s).modTask t f = withIrqs b (s.modTask t f) := rfl

@[simp] theorem setNext_withIrqs (t : TaskRef) (n : Option TaskRef) :
    (withIrqs b s).setNext t n = withIrqs b (s.setNext t n) := rfl

@[simp] theorem setHead_withIrqs (q : Queue) (h : Option TaskRef) :
    (withIrqs b s).setHead q h = withIrqs b (s.setHead q h) := by
  cases q <;> rfl

@[simp] theorem schedFind_withIrqs (id : ℕ) : Sched.schedFind id (withIrqs b s) = Sched.schedFind id s := rfl

@[simp] theorem schedQueueAdd_withIrqs (q : Queue) (t : TaskRef) :
    schedQueueAdd q t (withIrqs b s) = (schedQueueAdd q t s).map (withIrqs b) := by
  simp only [schedQueueAdd, setNext_withIrqs, withIrqs_head]
  cases (s.setNext t none).head q with
  | none => simp
  | some h =>
    simp only [withIrqs_next, Option.map_map]
    rfl

theorem queueUnlink_withIrqs (q : Queue) (prev : Option TaskRef) (cur : TaskRef) :
    queueUnlink q prev cur (withIrqs b s) = withIrqs b (queueUnlink q prev cur s) := by
  cases prev with
  | none => simp [queueUnlink]
  | some p => simp [queueUnlink]

@[simp] theorem schedQueueRemove_withIrqs (q : Queue) (t : TaskRef) :
    schedQueueRemove q t (withIrqs b s) = (schedQueueRemove q t s).map (withIrqs b) := by
  have hloop : ∀ n prev cur, queueRemoveLoop q t (withIrqs b s) n prev cur =
      (queueRemoveLoop q t s n prev cur).map (withIrqs b) := by
    intro n
    induction n with
    | zero => intro prev cur; rfl
    | succ n ih =>
      intro prev cur
      cases cur with
      | none => rfl
      | some c =>
        simp only [queueRemoveLoop, withIrqs_next]
        split_ifs
        · rw [queueUnlink_withIrqs]
          rfl
        · exact ih _ _
  rw [schedQueueRemove, withIrqs_head]
  exact hloop _ _ _

@[simp] theorem requeue_withIrqs (prev : Option TaskRef) :
    requeue prev (withIrqs b s) = (requeue prev s).map (withIrqs b) := by
  cases prev with
  | none => rfl
  | some p =>
    simp only [requeue, withIrqs_state, setState_withIrqs, schedQueueAdd_withIrqs]
    split_ifs <;> rfl

theorem findAfter_withIrqs (id n : ℕ) (cur : Option TaskRef) :
    findAfter (withIrqs b s) id n cur = findAfter s id n cur := by
  induction n generalizing cur with
  | zero => rfl
  | succ n ih =>
    cases cur with
    | none => rfl
    | some t =>
      simp only [findAfter, ih]
      rfl

theorem findBest_withIrqs (n : ℕ) (cur best : Option TaskRef) :
    findBest (withIrqs b s) n cur best = findBest s n cur best := by
  induction n generalizing cur best with
  | zero => rfl
  | succ n ih =>
    cases cur with
    | none => rfl
    | some t =>
      cases best with
      | none => exact ih _ _
      | some u => exact ih _ _

@[simp] theorem schedFindNext_withIrqs : schedFindNext (withIrqs b s) = schedFindNext s := by
  unfold schedFindNext schedFindPriority schedFindRoundRobin
  simp only [findBest_withIrqs, findAfter_withIrqs]
  rfl

@[simp] theorem schedResetTask_withIrqs (t : TaskRef) :
    schedResetTask t (withIrqs b s) = withIrqs b (schedResetTask t s) := rfl

@[simp] theorem dropCount_withIrqs : dropCount (withIrqs b s) = withIrqs b (dropCount s) := by
  unfold dropCount
  rw [apply_ite (withIrqs b)]
  rfl

@[simp] theorem bury_withIrqs (t : TaskRef) : bury t (withIrqs b s) = (bury t s).map (withIrqs b) := by
  simp [bury, Option.map_bind, Option.bind_map]

@[simp] theorem wakeOne_withIrqs (t : TaskRef) : wakeOne t (withIrqs b s) = (wakeOne t s).map (withIrqs b) := by
  simp [wakeOne, Option.map_bind, Option.bind_map, Function.comp_def]

@[simp] theorem describeTask_withIrqs (t : TaskRef) (name : ℕ → UInt8) (eip esp : ℕ) :
    describeTask t name eip esp (withIrqs b s) = withIrqs b (describeTask t name eip esp s) := rfl

theorem wakeLoop_withIrqs (nowTick n : ℕ) (cur : Option TaskRef) (woken : ℕ) :
    wakeLoop nowTick n cur woken (withIrqs b s) =
      (wakeLoop nowTick n cur woken s).map fun r => (withIrqs b r.1, r.2) := by
  induction n generalizing cur woken s with
  | zero => rfl
  | succ n ih =>
    cases cur with
    | none => rfl
    | some t =>
      simp only [wakeLoop, withIrqs_next, withIrqs_tasks, wakeOne_withIrqs]
      split_ifs
      · simp [Option.map_bind, Option.bind_map, ih]
      · exact ih _ _ _

theorem tickCurrent_withIrqs (t : TaskRef) : tickCurrent t (withIrqs b s) = withIrqs b (tickCurrent t s) := by
  unfold tickCurrent
  rw [apply_ite (withIrqs b)]
  rfl

@[simp] theorem makeCurrent_withIrqs (t : TaskRef) :
    makeCurrent t (withIrqs b s) = withIrqs b (makeCurrent t s) := rfl

end

variable {α β : Type}

@[simp] theorem exec_schedLockIrq (g : Bool → Prog State α) (b : Bool) (s : State) :
    (schedLockIrq >>= g).exec b s = (g b).exec false s := rfl

@[simp] theorem exec_schedUnlockIrq (g : Unit → Prog State α) (was : Bool) (s : State) :
    (schedUnlockIrq was >>= g).exec false s = (g ()).exec was s := by
  cases was <;> rfl

/-- The state once the call has returned, or once its switch has left the calls `frames` open on the
stack of `prev`. -/
def stopState (prev : Option TaskRef) (frames : List Frame) : Stop State α → State
  | .done _ b s => withIrqs b s
  | .switched _ b s =>
    let s' := match prev with
      | none => s
      | some p => { s with context := Function.update s.context p ⟨b, frames ++ (s.context p).frames⟩ }
    match s.currentTask with
    | none => withIrqs b s'
    | some n => withIrqs (s'.context n).irqs s'

@[simp] theorem stopState_done (prev : Option TaskRef) (frames : List Frame) (a : α) (b : Bool) (s : State) :
    stopState prev frames (.done a b s) = withIrqs b s := rfl

theorem schedSwitch_exec (prev : Option TaskRef) (frames : List Frame) (nextTask : TaskRef) (g : Unit → Prog State α)
    (b : Bool) (s : State) :
    ((schedSwitch prev nextTask >>= g).exec b (makeCurrent nextTask s)).map (stopState prev frames) =
      some (Sched.schedSwitch prev frames nextTask (withIrqs b (makeCurrent nextTask s))) := by
  cases prev <;> rfl

/-- `g` is what is left of the calls `callers` once they go on with `c` as the current task. -/
def Finishes (stop : Stop State α → State) (c : Option TaskRef) (callers : List Frame) (g : Unit → Prog State α) :
    Prop :=
  ∀ b s, s.currentTask = c → ((g ()).exec b s).map stop = resume callers (withIrqs b s)

theorem finishes_pure (prev c : Option TaskRef) (frames : List Frame) (f : Unit → α) :
    Finishes (stopState prev frames) c [] fun u => pure (f u) := fun _ _ _ => rfl

theorem schedYield_exec {c : Option TaskRef} {callers : List Frame} {g : Unit → Prog State α} {b : Bool} {s : State}
    (hc : s.currentTask = c) (hg : Finishes (stopState c (.yield b :: callers)) c callers g) :
    ((schedYield >>= g).exec b s).map (stopState c (.yield b :: callers)) = schedYieldIn callers (withIrqs b s) := by
  have hstay := hg b s hc
  unfold schedYield schedYieldIn
  by_cases hl : s.schedulerLocked = 0
  · simp only [ne_eq, ite_not, exec_bind_bind, exec_schedLockIrq, exec_fetch, hl, ↓reduceIte, exec_ask,
      Option.map_bind, Function.comp_apply, schedLockIrq_withIrqs, withIrqs_schedulerLocked, not_true_eq_false,
      schedFindNext_withIrqs, withIrqs_irqsEnabled, schedUnlockIrq_withIrqs, withIrqs_currentTask, hc,
      Option.bind_eq_bind]
    cases schedFindNext s with
    | none => rfl
    | some r =>
      cases r with
      | none => simpa using hstay
      | some nextTask =>
        by_cases hn : c = some nextTask
        · simpa [hc, hn] using hstay
        · simp [hc, hn, switchTo, schedSwitch_exec, Option.map_bind, Option.bind_map, Function.comp_def]
  · simpa [hl] using hstay

theorem resume_cons (f : Frame) (callers : List Frame) (s : State) :
    resume (f :: callers) s = (finishFrame s f).bind (resume callers) := List.foldlM_cons ..

theorem Finishes.undoBlock {stop : Stop State α → State} {callers : List Frame} {g : Unit → Prog State α} {t : TaskRef}
    (hg : Finishes stop (some t) callers g) :
    Finishes stop (some t) (.blockTask :: callers) fun _ => Kernel.undoBlock t >>= g := by
  intro b s hc
  simp only [resume_cons, finishFrame, withIrqs_currentTask, hc]
  unfold Kernel.undoBlock unblockSelf
  by_cases hb : s.state t = .blocked
  · simp only [exec_bind_bind, exec_schedLockIrq, exec_fetch, hb, ↓reduceIte, exec_attempt, exec_modify,
      exec_schedUnlockIrq, Option.map_bind, Function.comp_apply, schedLockIrq_withIrqs, withIrqs_state,
      schedQueueRemove_withIrqs, withIrqs_irqsEnabled, Option.bind_eq_bind, Option.bind_map, setState_withIrqs,
      schedUnlockIrq_withIrqs, Option.bind_assoc, Option.bind_some]
    refine Option.bind_congr fun s' hs' => ?_
    obtain ⟨nx, hd, rfl⟩ := schedQueueRemove_links hs'
    exact hg b _ hc
  · simpa [hb] using hg b s hc

theorem finishes_sleepUntil (prev : Option TaskRef) (frames : List Frame) (c : TaskRef) :
    Finishes (stopState prev frames) (some c) [.sleepUntil]
      fun _ => Prog.modify (·.modTask c fun item => { item with wakeTick := 0 }) >>= fun u => pure (Value.void u) := by
  intro b s hc
  simp only [resume, List.foldlM_cons, List.foldlM_nil, finishFrame, withIrqs_currentTask, hc]
  rfl

theorem schedBlockTask_exec {c : Option TaskRef} {callers : List Frame} {g : Unit → Prog State α} {b : Bool} {s : State}
    (id : ℕ) (hc : s.currentTask = c) (hg : Finishes (stopState c (.yield b :: .blockTask :: callers)) c callers g) :
    ((schedBlockTask id >>= g).exec b s).map (stopState c (.yield b :: .blockTask :: callers)) =
      schedBlockTaskIn callers id (withIrqs b s) := by
  have hstay := hg b s hc
  unfold schedBlockTask schedBlockTaskIn Kernel.schedFind
  simp only [exec_bind_bind, exec_schedLockIrq, exec_fetch, schedLockIrq_withIrqs, schedFind_withIrqs,
    withIrqs_irqsEnabled, schedUnlockIrq_withIrqs, withIrqs_state, withIrqs_id, withIrqs_currentTask,
    schedQueueRemove_withIrqs, Option.bind_eq_bind, Option.bind_some, setState_withIrqs, schedQueueAdd_withIrqs]
  cases Sched.schedFind id s with
  | none => simpa using hstay
  | some t =>
    by_cases hskip : s.state t = .dead ∨ s.id t = 0 ∨ s.state t = .blocked
    · simpa [hskip] using hstay
    · by_cases ht : c = some t
      · subst ht
        simp only [exec_bind_bind, exec_fetch, hskip, ↓reduceIte, hc, exec_attempt, exec_modify,
          exec_schedUnlockIrq, Option.map_bind, Function.comp_apply, Option.bind_map, setState_withIrqs,
          schedQueueAdd_withIrqs, schedUnlockIrq_withIrqs]
        refine Option.bind_congr fun s₁ h1 => Option.bind_congr fun s₂ h2 => ?_
        obtain ⟨nx, hd, rfl⟩ := schedQueueRemove_links h1
        obtain ⟨nx', hd', rfl⟩ := schedQueueAdd_links h2
        exact schedYield_exec hc hg.undoBlock
      · simp only [exec_bind_bind, exec_fetch, hskip, ↓reduceIte, hc, ht, exec_attempt, exec_modify,
          exec_schedUnlockIrq, Option.map_bind, Function.comp_apply]
        split_ifs with hr
        · simp only [Option.bind_map, Function.comp_apply, setState_withIrqs, schedQueueAdd_withIrqs,
            schedUnlockIrq_withIrqs]
          refine Option.bind_congr fun s₁ h1 => Option.bind_congr fun s₂ h2 => ?_
          obtain ⟨nx, hd, rfl⟩ := schedQueueRemove_links h1
          obtain ⟨nx', hd', rfl⟩ := schedQueueAdd_links h2
          exact hg b _ hc
        · simp only [Option.bind_some, Option.bind_map, Function.comp_apply, schedUnlockIrq_withIrqs]
          refine Option.bind_congr fun s₂ h2 => ?_
          obtain ⟨nx', hd', rfl⟩ := schedQueueAdd_links h2
          exact hg b _ hc

section

variable (b : Bool) (s : State)

theorem schedBlock_exec (f : Unit → α) :
    ((f <$> schedBlock).exec b s).map (stopState s.currentTask [.yield b, .blockTask]) =
      Sched.schedBlock (withIrqs b s) := by
  unfold schedBlock Sched.schedBlock
  cases hc : s.currentTask with
  | none => simp [hc]
  | some c =>
    by_cases h0 : s.id c = 0
    · simp [hc, h0]
    · simp only [exec_map, exec_bind_bind, exec_fetch, hc, h0, ↓reduceIte, withIrqs_currentTask, withIrqs_id]
      exact schedBlockTask_exec _ hc (finishes_pure _ _ _ _)

theorem schedSleepUntil_exec (wakeTick : ℕ) :
    ((Value.void <$> schedSleepUntil wakeTick).exec b s).map
        (stopState s.currentTask [.yield b, .blockTask, .sleepUntil]) =
      Sched.schedSleepUntil wakeTick (withIrqs b s) := by
  unfold schedSleepUntil Sched.schedSleepUntil
  cases hc : s.currentTask with
  | none => simp [hc]
  | some c =>
    by_cases h0 : s.id c = 0
    · simp [hc, h0]
    · simp only [exec_map, exec_bind_bind, exec_fetch, hc, h0, ↓reduceIte, exec_modify, withIrqs_currentTask,
        withIrqs_id, modTask_withIrqs]
      exact schedBlockTask_exec _ hc (finishes_sleepUntil _ _ _)

variable (prev : Option TaskRef) (frames : List Frame)

theorem schedCreate_exec (name : Option (ℕ → UInt8)) (eip esp : ℕ) :
    ((Value.task <$> schedCreate name eip esp).exec b s).map (stopState prev frames) =
      (Sched.schedCreate name eip esp (withIrqs b s)).map Prod.fst := by
  cases name with
  | none => rfl
  | some name =>
    unfold schedCreate
    by_cases hfull : s.taskCountValue ≥ schedMaxTasks
    · simp [Sched.schedCreate, hfull]
    · cases hf : (List.finRange 32).find? fun t => s.state t = .dead with
      | none =>
        have hf' : ((List.finRange 32).find? fun t => (Sched.schedLockIrq (withIrqs b s)).state t = .dead) = none := hf
        simp only [Sched.schedCreate, hf']
        simp [hfull, hf]
      | some t =>
        have hf' : ((List.finRange 32).find? fun t => (Sched.schedLockIrq (withIrqs b s)).state t = .dead) = some t := hf
        simp only [Sched.schedCreate, hf']
        simp only [exec_map, exec_bind_bind, exec_fetch, hfull, ↓reduceIte, exec_schedLockIrq, hf, exec_attempt,
          exec_modify, exec_schedUnlockIrq, exec_pure_bind, exec_pure, Option.map_bind, Function.comp_apply,
          Option.map_some, stopState_done, Function.comp_def, schedLockIrq_withIrqs, schedQueueRemove_withIrqs,
          withIrqs_taskCountValue, withIrqs_irqsEnabled, Option.bind_eq_bind, Option.bind_map, describeTask_withIrqs,
          schedQueueAdd_withIrqs, withIrqs_currentTask, withIrqs_schedulerLocked]
        refine Option.bind_congr fun s₁ _ => Option.bind_congr fun s₂ _ => ?_
        cases b <;> rfl

theorem schedPreempt_exec :
    ((Value.void <$> schedPreempt).exec b s).map (stopState s.currentTask [.yield b]) =
      Sched.schedPreempt (withIrqs b s) := by
  unfold schedPreempt Sched.schedPreempt
  by_cases hp : s.preemptPending = true
  · by_cases hl : s.schedulerLocked = 0
    · simp only [Bool.not_eq_eq_eq_not, Bool.not_true, ne_eq, ite_not, exec_map, exec_bind_bind, exec_fetch, hp,
        Bool.true_eq_false, ↓reduceIte, hl, exec_modify, Bool.false_eq_true, withIrqs_preemptPending,
        withIrqs_schedulerLocked, not_true_eq_false, withIrqs_currentTask, withIrqs_irqsEnabled]
      exact schedYield_exec rfl (finishes_pure _ _ _ _)
    · simp [hp, hl]
  · simp [hp]

theorem schedTick_exec (regs : Bool) :
    ((Value.void <$> schedTick regs).exec b s).map (stopState prev frames) =
      some (Sched.schedTick regs (withIrqs b s)) := by
  unfold schedTick Sched.schedTick
  cases regs with
  | false => rfl
  | true =>
    by_cases hl : s.schedulerLocked = 0
    · cases hc : s.currentTask with
      | none => simp [hl, hc]; rfl
      | some c =>
        simp only [Bool.not_true, Bool.false_eq_true, ↓reduceIte, ne_eq, ite_not, exec_map, exec_bind_bind,
          exec_fetch, hl, exec_modify, hc, exec_pure, Option.map_some, stopState_done, withIrqs_schedulerLocked,
          not_true_eq_false, or_self, withIrqs_currentTask, withIrqs_irqsEnabled, Option.some.injEq]
        exact (tickCurrent_withIrqs b _ c).symm
    · simp [hl]

theorem schedUnblock_exec (item : Option TaskRef) :
    ((Value.void <$> schedUnblock item).exec b s).map (stopState prev frames) =
      Sched.schedUnblock item (withIrqs b s) := by
  cases item with
  | none => rfl
  | some t =>
    unfold schedUnblock Sched.schedUnblock
    by_cases hb : s.state t = .blocked
    · have htest : unblockTest (some t) (withIrqs b s) = some t := by simp [unblockTest, hb]
      rw [htest]
      simp [hb, unblockSection, Option.bind_map, Option.map_bind, Function.comp_def]
    · have htest : unblockTest (some t) (withIrqs b s) = none := by simp [unblockTest, hb]
      rw [htest]
      simp [hb]

theorem schedWakeTask_exec (id : ℕ) :
    ((Value.void <$> schedWakeTask id).exec b s).map (stopState prev frames) =
      Sched.schedWakeTask id (withIrqs b s) := by
  unfold schedWakeTask Sched.schedWakeTask Kernel.schedFind
  cases hf : Sched.schedFind id s with
  | none => simp [hf]
  | some t =>
    simp only [exec_map, exec_bind_bind, exec_fetch, hf, schedFind_withIrqs]
    exact schedUnblock_exec b s prev frames (some t)

theorem schedWakeExpired_exec (nowTick : ℕ) :
    ((Value.word <$> schedWakeExpired nowTick).exec b s).map (stopState prev frames) =
      (Sched.schedWakeExpired nowTick (withIrqs b s)).map Prod.fst := by
  unfold schedWakeExpired Sched.schedWakeExpired
  simp [wakeLoop_withIrqs, Option.bind_map, Option.map_bind, Function.comp_def]

theorem finishes_exit : Finishes (stopState prev frames) none [.exit] fun _ => Value.void <$> runIdle := by
  intro b s hc
  unfold runIdle
  simp only [exec_map, exec_bind_bind, exec_fetch, hc, ↓reduceIte, exec_modify, exec_pure, Option.map_some,
    stopState_done, resume_cons, finishFrame, withIrqs_currentTask, setState_withIrqs, withIrqs_schedulerLocked,
    withIrqs_irqsEnabled, Option.bind_some]
  rfl

theorem schedExit_exec :
    ((Value.void <$> schedExit).exec b s).map (stopState none [.yield b, .exit]) = Sched.schedExit (withIrqs b s) := by
  unfold schedExit Sched.schedExit
  cases hc : s.currentTask with
  | none => simp [hc]
  | some c =>
    by_cases h0 : s.id c = 0
    · simp [hc, h0]
    · simp only [exec_map, exec_bind_bind, exec_fetch, hc, h0, ↓reduceIte, exec_schedLockIrq, exec_attempt,
        exec_modify, exec_schedUnlockIrq, Option.map_bind, Function.comp_apply, withIrqs_currentTask,
        withIrqs_id, schedLockIrq_withIrqs, bury_withIrqs, withIrqs_irqsEnabled, Option.bind_eq_bind,
        Option.bind_map, withIrqs_schedulerLocked]
      refine Option.bind_congr fun s₁ _ => ?_
      refine (schedYield_exec rfl (finishes_exit _ _)).trans ?_
      cases b <;> rfl

theorem schedKill_exec (id : ℕ) :
    ((Value.void <$> schedKill id).exec b s).map (stopState none [.yield b, .exit]) =
      Sched.schedKill id (withIrqs b s) := by
  unfold schedKill Sched.schedKill
  by_cases h0 : id = 0
  · simp [h0]
  · rw [if_neg h0, if_neg h0]
    by_cases hself : s.currentTask.any fun c => s.id c = id
    · rw [if_pos (show (withIrqs b s).currentTask.any (fun c => (withIrqs b s).id c = id) from hself)]
      simp only [exec_map, exec_bind_bind, exec_fetch, hself, ↓reduceIte]
      exact schedExit_exec b s
    · rw [if_neg (show ¬(withIrqs b s).currentTask.any (fun c => (withIrqs b s).id c = id) from hself)]
      unfold Kernel.schedFind
      simp only [exec_map, exec_bind_bind, exec_fetch, hself, Bool.false_eq_true, ↓reduceIte, exec_schedLockIrq,
        schedLockIrq_withIrqs, schedFind_withIrqs, withIrqs_irqsEnabled, schedUnlockIrq_withIrqs, withIrqs_id,
        bury_withIrqs, Option.bind_eq_bind]
      cases Sched.schedFind id s with
      | none => simp
      | some t =>
        by_cases ht : s.id t = 0
        · simp [ht]
        · simp [ht, Option.bind_map, Option.map_bind, Function.comp_def]

theorem schedSetPolicy_exec (policy : ℕ) :
    ((Value.void <$> schedSetPolicy policy).exec b s).map (stopState prev frames) =
      some (Sched.schedSetPolicy policy (withIrqs b s)) := by
  match policy with
  | 0 => rfl
  | 1 => rfl
  | n + 2 => simp [schedSetPolicy, Sched.schedSetPolicy]

theorem schedSetPriority_exec (item : Option TaskRef) (priority : ℕ) :
    ((Value.void <$> schedSetPriority item priority).exec b s).map (stopState prev frames) =
      some (Sched.schedSetPriority item priority (withIrqs b s)) := by
  unfold schedSetPriority Sched.schedSetPriority
  cases item with
  | none => rfl
  | some t =>
    by_cases hd : s.state t = .dead
    · simp [hd]
    · simp [hd]

theorem schedUnlock_exec :
    ((Value.void <$> schedUnlock).exec b s).map (stopState prev frames) = some (Sched.schedUnlock (withIrqs b s)) := by
  unfold schedUnlock Sched.schedUnlock
  by_cases hl : s.schedulerLocked > 0
  · simp only [exec_map, exec_bind_bind, exec_fetch, hl, ↓reduceIte, exec_modify, exec_pure, Option.map_some,
      stopState_done, withIrqs_schedulerLocked, withIrqs_currentTask, withIrqs_irqsEnabled, Option.some.injEq]
    rfl
  · simp [hl]

end

/-- What a call of the scheduler's model is among the kernel's calls. -/
def kernelCall : Sched.Call → Call
  | .create name eip esp => .schedCreate name eip esp
  | .yield => .schedYield
  | .tick regs => .schedTick regs
  | .preempt => .schedPreempt
  | .block => .schedBlock
  | .blockTask id => .schedBlockTask id
  | .unblock item => .schedUnblock item
  | .wakeTask id => .schedWakeTask id
  | .sleepUntil wakeTick => .schedSleepUntil wakeTick
  | .wakeExpired nowTick => .schedWakeExpired nowTick
  | .kill id => .schedKill id
  | .exit => .schedExit
  | .setPolicy policy => .schedSetPolicy policy
  | .setPriority item priority => .schedSetPriority item priority
  | .lock => .schedLock
  | .unlock => .schedUnlock

def schedCode : Sched.Call → Prog State Value
  | .create name eip esp => .task <$> schedCreate name eip esp
  | .yield => .void <$> schedYield
  | .tick regs => .void <$> schedTick regs
  | .preempt => .void <$> schedPreempt
  | .block => .void <$> schedBlock
  | .blockTask id => .void <$> schedBlockTask id
  | .unblock item => .void <$> schedUnblock item
  | .wakeTask id => .void <$> schedWakeTask id
  | .sleepUntil wakeTick => .void <$> schedSleepUntil wakeTick
  | .wakeExpired nowTick => .word <$> schedWakeExpired nowTick
  | .kill id => .void <$> schedKill id
  | .exit => .void <$> schedExit
  | .setPolicy policy => .void <$> schedSetPolicy policy
  | .setPriority item priority => .void <$> schedSetPriority item priority
  | .lock => .void <$> schedLock
  | .unlock => .void <$> schedUnlock

/-- The task whose stack a switch inside the call leaves: a task that has exited leaves none. -/
def leaver (s : State) : Sched.Call → Option TaskRef
  | .exit => none
  | .kill _ => none
  | _ => s.currentTask

/-- The functions that a switch inside the call leaves open, made under the flag `b`. -/
def openFrames (b : Bool) : Sched.Call → List Frame
  | .block => [.yield b, .blockTask]
  | .blockTask _ => [.yield b, .blockTask]
  | .sleepUntil _ => [.yield b, .blockTask, .sleepUntil]
  | .exit => [.yield b, .exit]
  | .kill _ => [.yield b, .exit]
  | _ => [.yield b]

theorem schedCode_exec (call : Sched.Call) (b : Bool) (s : State) :
    ((schedCode call).exec b s).map (stopState (leaver s call) (openFrames b call)) = call.run (withIrqs b s) := by
  cases call with
  | create name eip esp => exact schedCreate_exec b s _ _ name eip esp
  | yield => exact schedYield_exec rfl (finishes_pure _ _ _ _)
  | tick regs => exact schedTick_exec b s _ _ regs
  | preempt => exact schedPreempt_exec b s
  | block => exact schedBlock_exec b s _
  | blockTask id => exact schedBlockTask_exec id rfl (finishes_pure _ _ _ _)
  | unblock item => exact schedUnblock_exec b s _ _ item
  | wakeTask id => exact schedWakeTask_exec b s _ _ id
  | sleepUntil wakeTick => exact schedSleepUntil_exec b s wakeTick
  | wakeExpired nowTick => exact schedWakeExpired_exec b s _ _ nowTick
  | kill id => exact schedKill_exec b s id
  | exit => exact schedExit_exec b s
  | setPolicy policy => exact schedSetPolicy_exec b s _ _ policy
  | setPriority item priority => exact schedSetPriority_exec b s _ _ item priority
  | lock => rfl
  | unlock => exact schedUnlock_exec b s _ _

theorem kernelCall_code (call : Sched.Call) (rounds : ℕ) :
    (kernelCall call).code rounds = inSched (schedCode call) := by
  cases call <;> rfl

theorem inSched_exec (p : Prog State α) (b : Bool) (m : Memory) :
    (inSched p).exec b m = (p.exec b m.sched).map (Stop.zoom (·.sched) (fun s m => { m with sched := s }) m) := by
  apply exec_zoom
  · intro s m
    rfl
  · intro s s' m
    rfl
  · intro m
    rfl

/-- In the machine, a call of the scheduler that nobody interrupts leads to the state that its model gives, and
leaves the other objects alone. The rest of what the thread does is `k`. -/
theorem sched_uninterrupted (call : Sched.Call) (rounds : ℕ) {t : TaskRef} {c : Cpu TaskRef Memory Value} {s : State}
    {k : Value → Prog Memory Value} (hcall : c.At t ((kernelCall call).code rounds >>= k))
    (hrun : call.run (withIrqs c.flag c.memory.sched) = some s) :
    ∃ stop c', Cpu.system.Leads (Cpu.Spares t) c c' ∧
      c'.Stopped t k (stop.zoom (·.sched) (fun s m => { m with sched := s }) c.memory) ∧
      stopState (leaver c.memory.sched call) (openFrames c.flag call) stop = s := by
  rw [← schedCode_exec] at hrun
  obtain ⟨stop, hexec, hs⟩ := Option.map_eq_some_iff.mp hrun
  rw [kernelCall_code] at hcall
  obtain ⟨c', hleads, hstop⟩ := hcall.exec (by rw [inSched_exec, hexec]; rfl)
  exact ⟨stop, c', hleads, hstop, hs⟩

end Novium.Kernel
