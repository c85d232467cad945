import Novium.Kernel.Sections
import Novium.Lib.Cpu

/-! Every call of the scheduler and of the IPC objects returns with the interrupt flag that it was
made with. -/

namespace Novium.Kernel

open Novium.Lib Novium.Lib.Prog Novium.Sched Novium.Ipc

variable {σ α : Type} {W : Bool → Prop}

section

variable {Q : Bool → Bool → Prop} {R : Bool → Unit → Prop} {b : Bool}

@[simp] theorem along_cpuIrqsEnabled : (cpuIrqsEnabled : Prog σ Bool).Along W Q b ↔ Q b b := Iff.rfl

@[simp] theorem along_cpuDisableIrqs : (cpuDisableIrqs : Prog σ Unit).Along W R b ↔ R false () := Iff.rfl

@[simp] theorem along_schedLockIrq : schedLockIrq.Along W Q b ↔ Q false b := Iff.rfl

@[simp] theorem along_schedUnlockIrq (was : Bool) : (schedUnlockIrq was).Along W R b ↔ R (was || b) () :=
  along_enableIf was

@[simp] theorem along_schedSwitch (prev : Option TaskRef) (nextTask : TaskRef) :
    (schedSwitch prev nextTask).Along W R b ↔ W b ∧ R b () := Iff.rfl

end

theorem schedYield_restores (hW : W false) : Restores W schedYield := by
  intro b
  simp only [schedYield, along_bind, along_schedLockIrq, along_fetch]
  intro s
  split_ifs
  · simp
  · simp only [along_bind, along_ask]
    intro s r _
    cases r with
    | none => simp
    | some nextTask =>
      simp only [along_bind, along_fetch]
      intro s
      split_ifs
      · simp
      · simp [hW]

theorem undoBlock_restores (hW : W false) (t : TaskRef) : Restores W (undoBlock t) := by
  intro b
  simp only [undoBlock, along_bind, along_schedLockIrq, along_fetch]
  intro s
  split_ifs
  · simp [hW]
  · simp

theorem schedBlockTask_restores (hW : W false) (id : ℕ) : Restores W (schedBlockTask id) := by
  intro b
  simp only [schedBlockTask, schedFind, along_bind, along_schedLockIrq, along_fetch]
  intro s
  cases Sched.schedFind id s with
  | none => simp
  | some t =>
    simp only [along_bind, along_fetch]
    intro s
    split_ifs
    · simp
    · -- the block of the caller, with the yield in it
      simp only [along_bind, along_attempt, along_modify, along_schedUnlockIrq]
      refine fun _ _ _ => ⟨hW, hW, fun _ _ _ => ⟨hW, ?_⟩⟩
      apply (schedYield_restores hW).along
      intro _
      apply (undoBlock_restores hW t).along
      simp
    · simp [hW]

theorem schedBlock_restores (hW : W false) : Restores W schedBlock := by
  intro b
  simp only [schedBlock, along_bind, along_fetch]
  intro s
  cases s.currentTask with
  | none => simp
  | some c =>
    simp only
    split_ifs
    · simp
    · exact schedBlockTask_restores hW _ b

theorem schedUnblock_restores (hW : W false) (item : Option TaskRef) : Restores W (schedUnblock item) := by
  intro b
  cases item with
  | none => simp [schedUnblock]
  | some t =>
    simp only [schedUnblock, along_bind, along_fetch]
    intro s
    split_ifs
    · simp
    · simp [hW]

theorem schedWakeTask_restores (hW : W false) (id : ℕ) : Restores W (schedWakeTask id) := by
  intro b
  simp only [schedWakeTask, schedFind, along_bind, along_fetch]
  intro s
  cases Sched.schedFind id s with
  | none => simp
  | some t => exact schedUnblock_restores hW (some t) b

theorem schedCreate_restores (hW : W false) (name : Option (ℕ → UInt8)) (eip esp : ℕ) :
    Restores W (schedCreate name eip esp) := by
  intro b
  cases name with
  | none => simp [schedCreate]
  | some name =>
    simp only [schedCreate, along_bind, along_fetch]
    intro s
    split_ifs
    · simp
    · simp only [along_bind, along_schedLockIrq, along_fetch]
      intro s
      cases (List.finRange 32).find? fun t => s.state t = .dead with
      | none => simp
      | some t => simp [hW]

theorem schedWakeExpired_restores (hW : W false) (nowTick : ℕ) : Restores W (schedWakeExpired nowTick) := by
  intro b
  simp [schedWakeExpired, hW]

theorem schedHasRunnable_restores : Restores W schedHasRunnable := by
  intro b
  simp only [schedHasRunnable, along_bind, along_schedLockIrq, along_ask]
  intro s found _
  cases found <;> simp

theorem schedGetStats_restores (stats : Bool) : Restores W (schedGetStats stats) := by
  intro b
  cases stats <;> simp [schedGetStats]

theorem restores_modify (hW : ∀ b, W b) (f : σ → σ) : Restores W (modify f) := fun b => ⟨hW b, rfl⟩

theorem schedTick_restores (hW : ∀ b, W b) (regs : Bool) : Restores W (schedTick regs) := by
  intro b
  cases regs with
  | false => simp [schedTick]
  | true =>
    simp only [schedTick, Bool.not_true, Bool.false_eq_true, if_false, along_bind, along_fetch]
    intro s
    split_ifs
    · simp
    · simp only [along_bind, along_modify, along_fetch]
      refine ⟨hW b, fun s => ?_⟩
      cases s.currentTask <;> simp [hW]

theorem schedPreempt_restores (hW : ∀ b, W b) : Restores W schedPreempt := by
  intro b
  simp only [schedPreempt, along_bind, along_fetch]
  intro s
  split_ifs
  · simp
  · simp only [along_bind, along_fetch]
    intro s
    split_ifs
    · simp
    · simp only [along_bind, along_modify]
      exact ⟨hW b, schedYield_restores (hW false) b⟩

theorem schedSleepUntil_restores (hW : ∀ b, W b) (wakeTick : ℕ) : Restores W (schedSleepUntil wakeTick) := by
  intro b
  simp only [schedSleepUntil, along_bind, along_fetch]
  intro s
  cases s.currentTask with
  | none => simp
  | some c =>
    simp only
    split_ifs
    · simp
    · simp only [along_bind, along_modify]
      refine ⟨hW b, (schedBlockTask_restores (hW false) _).along fun _ => ?_⟩
      exact ⟨hW b, rfl⟩

theorem runIdle_restores (hW : ∀ b, W b) : Restores W runIdle := by
  intro b
  simp only [runIdle, along_bind, along_fetch]
  intro s
  split_ifs
  · exact restores_modify hW _ b
  · simp

theorem schedExit_restores (hW : ∀ b, W b) : Restores W schedExit := by
  intro b
  simp only [schedExit, along_bind, along_fetch]
  intro s
  cases s.currentTask with
  | none => simp
  | some c =>
    simp only
    split_ifs
    · simp
    · simp only [along_bind, along_schedLockIrq, along_attempt, along_modify, along_schedUnlockIrq]
      refine fun _ _ _ => ⟨hW false, hW false, ?_⟩
      apply (schedYield_restores (hW false)).along
      intro _
      rw [Bool.or_false]
      exact runIdle_restores hW b

theorem schedKill_restores (hW : ∀ b, W b) (id : ℕ) : Restores W (schedKill id) := by
  intro b
  unfold schedKill
  split_ifs
  · simp
  · simp only [along_bind, along_fetch]
    intro s
    split_ifs
    · exact schedExit_restores hW b
    · simp only [schedFind, along_bind, along_schedLockIrq, along_fetch]
      intro s
      cases Sched.schedFind id s with
      | none => simp
      | some t =>
        simp only [along_bind, along_fetch]
        intro s
        split_ifs
        · simp
        · simp [hW]

theorem schedSetPolicy_restores (hW : ∀ b, W b) (policy : ℕ) : Restores W (schedSetPolicy policy) := by
  intro b
  unfold schedSetPolicy
  split_ifs
  · simp
  · exact restores_modify hW _ b

theorem schedSetPriority_restores (hW : ∀ b, W b) (item : Option TaskRef) (priority : ℕ) :
    Restores W (schedSetPriority item priority) := by
  intro b
  cases item with
  | none => simp [schedSetPriority]
  | some t =>
    simp only [schedSetPriority, along_bind, along_fetch]
    intro s
    split_ifs
    · simp
    · exact restores_modify hW _ b

theorem schedGetPriority_restores (item : Option TaskRef) : Restores W (schedGetPriority item) := by
  intro b
  cases item <;> simp [schedGetPriority]

theorem schedUnlock_restores (hW : ∀ b, W b) : Restores W schedUnlock := by
  intro b
  simp only [schedUnlock, along_bind, along_fetch]
  intro s
  split_ifs
  · exact restores_modify hW _ b
  · simp

theorem inSched_restores {p : Prog State α} (h : Restores W p) : Restores W (inSched p) := h.zoom _ _

theorem ipcSelfId_restores : Restores W ipcSelfId := by
  apply (inSched_restores (restores_fetch _)).bind
  intro self
  cases self with
  | none => exact restores_pure 0
  | some t => exact restores_fetch _

theorem ipcWaitTakeLive_restores (hW : ∀ b, W b) (w : WaitRef) : Restores W (ipcWaitTakeLive w) := by
  intro b
  simp [ipcWaitTakeLive, hW]

theorem parkSection_keeps (hW : W false) (w : WaitRef) (ready : Memory → Bool) (self : ℕ) :
    (parkSection w ready self).Along W (fun b _ => b = false) false := by
  simp only [parkSection, along_bind, along_fetch]
  intro m
  split_ifs
  · rfl
  · rw [along_bind]
    apply ((ipcWaitAdd_dark w self).along hW).mono
    rintro _ added rfl
    split_ifs
    · rfl
    · rw [along_bind]
      exact (inSched_restores (schedBlock_restores hW)).along fun _ => rfl

theorem parkLoop_restores (hW : W false) (w : WaitRef) (ready : Memory → Bool) (self rounds : ℕ) :
    Restores W (parkLoop w ready self rounds) := by
  induction rounds with
  | zero => exact fun _ => trivial
  | succ rounds ih =>
    intro b
    simp only [parkLoop, along_bind, along_cpuIrqsEnabled, along_cpuDisableIrqs]
    -- `SchedBlock` comes back with the flag clear, and the entry is taken out under it
    apply (parkSection_keeps hW w ready self).mono
    rintro _ result rfl
    cases result with
    | some status => simp
    | none =>
      simp only [along_bind, along_cpuDisableIrqs, ipcWaitRemove, along_modify, along_enableIf, Bool.or_false]
      exact ⟨hW, ih b⟩

theorem ipcPark_restores (hW : W false) (rounds : ℕ) (w : WaitRef) (ready : Memory → Bool) :
    Restores W (ipcPark rounds w ready) := by
  apply ipcSelfId_restores.bind
  intro self
  split_ifs
  · exact restores_pure _
  · exact parkLoop_restores hW w ready self rounds

theorem ipcWakeOne_restores (hW : W false) (w : WaitRef) : Restores W (ipcWakeOne w) := by
  apply (masked_restores (ipcWaitTakeLive_dark w) hW).bind
  intro id
  split_ifs
  · exact inSched_restores (schedWakeTask_restores hW id)
  · exact restores_pure ()

theorem wakeIfOk_restores (hW : W false) (w : WaitRef) (status : IpcStatus) :
    Restores W (if status = .ok then do ipcWakeOne w; return status else return status) := by
  split_ifs
  · exact (ipcWakeOne_restores hW w).bind fun _ => restores_pure _
  · exact restores_pure _

theorem ipcPortIsCreated_restores (port : Option ℕ) : Restores W (ipcPortIsCreated port) := by
  cases port with
  | none => exact restores_pure false
  | some x => exact restores_fetch _

theorem ipcPortCreate_restores (hW : W false) (port : Option ℕ) : Restores W (ipcPortCreate port) := by
  intro b
  cases port with
  | none => simp [ipcPortCreate]
  | some x =>
    simp only [ipcPortCreate, along_bind, along_cpuIrqsEnabled, along_cpuDisableIrqs, along_fetch]
    intro m
    split_ifs
    · simp
    · simp [hW]

theorem ipcPortDestroy_restores (hW : W false) (port : Option ℕ) : Restores W (ipcPortDestroy port) := by
  cases port with
  | none => exact restores_pure _
  | some x =>
    apply (ipcPortIsCreated_restores _).bind
    intro created
    split_ifs
    · exact restores_pure _
    · exact masked_restores (destroySection_dark x) hW

theorem ipcPortQueued_restores (port : Option ℕ) : Restores W (ipcPortQueued port) := by
  cases port with
  | none => exact restores_pure 0
  | some x =>
    apply (ipcPortIsCreated_restores _).bind
    intro created
    split_ifs
    · exact restores_pure 0
    · exact restores_fetch _

theorem badSend_restores (port message : Option ℕ) : Restores W (badSend port message) := by
  apply (ipcPortIsCreated_restores _).bind
  intro created
  split_ifs
  · exact restores_pure true
  · cases message with
    | none => exact restores_pure true
    | some msg => exact restores_fetch _

theorem badReceive_restores (port out : Option ℕ) : Restores W (badReceive port out) := by
  apply (ipcPortIsCreated_restores _).bind
  intro created
  split_ifs <;> exact restores_pure _

theorem ipcTrySend_restores (hW : W false) (port message : Option ℕ) : Restores W (ipcTrySend port message) := by
  apply (badSend_restores port message).bind
  intro bad
  split_ifs
  · exact restores_pure _
  · cases port with
    | none => exact restores_pure _
    | some x =>
      cases message with
      | none => exact restores_pure _
      | some msg =>
        apply (masked_restores (sendSection_dark x msg) hW).bind
        exact wakeIfOk_restores hW _

theorem retryLoop_restores {attempt park : Prog Memory IpcStatus} (hattempt : Restores W attempt)
    (hpark : Restores W park) (again : IpcStatus) (rounds : ℕ) : Restores W (retryLoop attempt park again rounds) := by
  induction rounds with
  | zero => exact fun _ => trivial
  | succ rounds ih =>
    apply hattempt.bind
    intro status
    split_ifs
    · exact restores_pure _
    · apply hpark.bind
      intro status
      split_ifs
      · exact restores_pure _
      · exact ih

theorem ipcSend_restores (hW : W false) (rounds : ℕ) (port message : Option ℕ) :
    Restores W (ipcSend rounds port message) := by
  apply (badSend_restores port message).bind
  intro bad
  split_ifs
  · exact restores_pure _
  · cases port with
    | none => exact restores_pure _
    | some x =>
      exact retryLoop_restores (ipcTrySend_restores hW (some x) message) (ipcPark_restores hW rounds _ _) _ _

theorem ipcTryReceive_restores (hW : W false) (port out : Option ℕ) : Restores W (ipcTryReceive port out) := by
  apply (badReceive_restores port out).bind
  intro bad
  split_ifs
  · exact restores_pure _
  · cases port with
    | none => exact restores_pure _
    | some x =>
      cases out with
      | none => exact restores_pure _
      | some out =>
        apply (masked_restores (receiveSection_dark x out) hW).bind
        exact wakeIfOk_restores hW _

theorem ipcReceive_restores (hW : W false) (rounds : ℕ) (port out : Option ℕ) :
    Restores W (ipcReceive rounds port out) := by
  apply (badReceive_restores port out).bind
  intro bad
  split_ifs
  · exact restores_pure _
  · cases port with
    | none => exact restores_pure _
    | some x =>
      exact retryLoop_restores (ipcTryReceive_restores hW (some x) out) (ipcPark_restores hW rounds _ _) _ _

theorem semInit_restores (hW : ∀ b, W b) (sem : Option ℕ) (initial limit : ℕ) :
    Restores W (semInit sem initial limit) := by
  intro b
  cases sem <;> simp [semInit, hW]

theorem semTryWait_restores (hW : W false) (sem : Option ℕ) : Restores W (semTryWait sem) := by
  cases sem with
  | none => exact restores_pure _
  | some x => exact masked_restores (tryWaitSection_dark x) hW

theorem semWait_restores (hW : W false) (rounds : ℕ) (sem : Option ℕ) : Restores W (semWait rounds sem) := by
  cases sem with
  | none => exact restores_pure _
  | some x => exact retryLoop_restores (semTryWait_restores hW (some x)) (ipcPark_restores hW rounds _ _) _ _

theorem semPost_restores (hW : W false) (sem : Option ℕ) : Restores W (semPost sem) := by
  cases sem with
  | none => exact restores_pure _
  | some x =>
    apply (masked_restores (postSection_dark x) hW).bind
    exact wakeIfOk_restores hW _

theorem semCount_restores (sem : Option ℕ) : Restores W (semCount sem) := by
  cases sem with
  | none => exact restores_pure 0
  | some x => exact restores_fetch _

theorem mutexInit_restores (hW : ∀ b, W b) (mutex : Option ℕ) : Restores W (mutexInit mutex) := by
  intro b
  cases mutex <;> simp [mutexInit, hW]

theorem mutexHeldByCaller_restores (mutex : Option ℕ) : Restores W (mutexHeldByCaller mutex) := by
  cases mutex with
  | none => exact restores_pure false
  | some x =>
    apply (restores_fetch _).bind
    intro locked
    split_ifs
    · exact restores_pure false
    · exact (restores_fetch _).bind fun _ => ipcSelfId_restores.bind fun _ => restores_pure _

theorem passedOn_restores (x : ℕ) (status : IpcStatus) : Restores W (passedOn x status) := by
  unfold passedOn
  split_ifs
  · exact mutexHeldByCaller_restores _
  · exact restores_pure false

theorem mutexTryLock_restores (hW : W false) (mutex : Option ℕ) : Restores W (mutexTryLock mutex) := by
  cases mutex with
  | none => exact restores_pure _
  | some x => exact masked_restores (tryLockSection_dark x) hW

theorem mutexLockLoop_restores (hW : W false) (rounds x n : ℕ) : Restores W (mutexLockLoop rounds x n) := by
  induction n with
  | zero => exact fun _ => trivial
  | succ n ih =>
    apply (mutexTryLock_restores hW (some x)).bind
    intro status
    apply (passedOn_restores x status).bind
    intro passed
    split_ifs
    · exact restores_pure _
    · exact restores_pure _
    · apply (ipcPark_restores hW rounds _ _).bind
      intro status
      split_ifs
      · exact restores_pure _
      · exact ih

theorem mutexLock_restores (hW : W false) (rounds : ℕ) (mutex : Option ℕ) : Restores W (mutexLock rounds mutex) := by
  cases mutex with
  | none => exact restores_pure _
  | some x =>
    apply (mutexHeldByCaller_restores _).bind
    intro held
    split_ifs
    · exact restores_pure _
    · exact mutexLockLoop_restores hW rounds x rounds

theorem mutexUnlock_restores (hW : W false) (mutex : Option ℕ) : Restores W (mutexUnlock mutex) := by
  cases mutex with
  | none => exact restores_pure _
  | some x =>
    apply (masked_restores (unlockSection_dark x) hW).bind
    intro r
    simp only
    split_ifs
    · exact (inSched_restores (schedWakeTask_restores hW _)).bind fun _ => restores_pure _
    · exact restores_pure _

end Novium.Kernel
