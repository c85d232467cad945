import Novium.Kernel.IpcCode

/-! The sections of the kernel do not set the interrupt flag, and only the one of `IpcPark`
switches. -/

namespace Novium.Kernel

open Novium.Lib Novium.Lib.Prog Novium.Sched Novium.Ipc

variable {α : Type} {leaves : Bool}

theorem schedLockIrq_dark {g : Bool → Prog State α} (h : (g false).Dark leaves) : (schedLockIrq >>= g).Dark leaves := h

theorem schedUnlockIrq_dark : (schedUnlockIrq false).Dark leaves := trivial

theorem schedYield_dark : schedYield.Dark true := by
  apply schedLockIrq_dark
  apply (dark_fetch _).bind
  intro locked
  split_ifs
  · exact schedUnlockIrq_dark
  · apply (dark_ask _).bind
    intro found
    cases found with
    | none => exact schedUnlockIrq_dark
    | some nextTask =>
      apply (dark_fetch _).bind
      intro prevTask
      split_ifs
      · exact schedUnlockIrq_dark
      · exact (dark_attempt _).bind fun _ => (dark_attempt _).bind fun _ => (dark_modify _).bind fun _ => rfl

theorem undoBlock_dark (t : TaskRef) : (undoBlock t).Dark leaves := by
  apply schedLockIrq_dark
  apply (dark_fetch _).bind
  intro st
  split_ifs
  · exact (dark_attempt _).bind fun _ => (dark_modify _).bind fun _ => schedUnlockIrq_dark
  · exact schedUnlockIrq_dark

theorem schedBlockTask_dark (id : ℕ) : (schedBlockTask id).Dark true := by
  apply schedLockIrq_dark
  apply (dark_fetch _).bind
  intro found
  cases found with
  | none => exact schedUnlockIrq_dark
  | some t =>
    apply (dark_fetch _).bind
    intro s
    split_ifs
    · exact schedUnlockIrq_dark
    · apply (dark_attempt _).bind
      intro _
      apply (dark_modify _).bind
      intro _
      apply (dark_attempt _).bind
      intro _
      exact schedUnlockIrq_dark.bind fun _ => schedYield_dark.bind fun _ => undoBlock_dark t
    · apply (dark_attempt _).bind
      intro _
      apply (dark_modify _).bind
      intro _
      exact (dark_attempt _).bind fun _ => schedUnlockIrq_dark

theorem schedBlock_dark : schedBlock.Dark true := by
  apply (dark_fetch _).bind
  intro s
  cases s.currentTask with
  | none => exact dark_pure ()
  | some c =>
    simp only
    split_ifs
    · exact dark_pure ()
    · exact schedBlockTask_dark _

theorem ipcSelfId_dark : ipcSelfId.Dark leaves := by
  apply ((dark_fetch _).zoom _ _).bind
  intro self
  cases self with
  | none => exact dark_pure 0
  | some t => exact dark_fetch _

theorem ipcWaitAdd_dark (w : WaitRef) (id : ℕ) : (ipcWaitAdd w id).Dark leaves := by
  apply (dark_fetch _).bind
  intro added
  cases added with
  | none => exact dark_pure false
  | some q => exact (dark_modify _).bind fun _ => dark_pure true

theorem ipcWaitTakeLive_dark (w : WaitRef) : (ipcWaitTakeLive w).Dark leaves := dark_act _

theorem parkSection_dark (w : WaitRef) (ready : Memory → Bool) (self : ℕ) : (parkSection w ready self).Dark true := by
  apply (dark_fetch _).bind
  intro r
  split_ifs
  · exact dark_pure _
  · apply (ipcWaitAdd_dark w self).bind
    intro added
    split_ifs
    · exact dark_pure _
    · exact (schedBlock_dark.zoom _ _).bind fun _ => dark_pure none

theorem destroySection_dark (x : ℕ) : (destroySection x).Dark leaves := by
  apply (dark_fetch _).bind
  intro p
  split_ifs
  · exact dark_pure _
  · exact (dark_modify _).bind fun _ => dark_pure _

theorem sendSection_dark (x message : ℕ) : (sendSection x message).Dark leaves := by
  apply (dark_fetch _).bind
  intro count
  split_ifs
  · exact dark_pure _
  · exact (ipcSelfId_dark.bind fun _ => dark_modify _).bind fun _ => dark_pure _

theorem receiveSection_dark (x out : ℕ) : (receiveSection x out).Dark leaves := by
  apply (dark_fetch _).bind
  intro count
  split_ifs
  · exact dark_pure _
  · exact ((dark_modify _).bind fun _ => dark_modify _).bind fun _ => dark_pure _

theorem tryWaitSection_dark (x : ℕ) : (tryWaitSection x).Dark leaves := by
  apply (dark_fetch _).bind
  intro count
  split_ifs
  · exact dark_pure _
  · exact (dark_modify _).bind fun _ => dark_pure _

theorem postSection_dark (x : ℕ) : (postSection x).Dark leaves := by
  apply (dark_fetch _).bind
  intro s
  split_ifs
  · exact dark_pure _
  · exact (dark_modify _).bind fun _ => dark_pure _

theorem tryLockSection_dark (x : ℕ) : (tryLockSection x).Dark leaves := by
  apply (dark_fetch _).bind
  intro locked
  split_ifs
  · exact dark_pure _
  · exact ipcSelfId_dark.bind fun _ => (dark_modify _).bind fun _ => dark_pure _

theorem unlockSection_dark (x : ℕ) : (unlockSection x).Dark leaves := by
  apply (dark_fetch _).bind
  intro mu
  apply ipcSelfId_dark.bind
  intro self
  split_ifs
  · exact dark_pure _
  · apply (ipcWaitTakeLive_dark _).bind
    intro nxt
    split_ifs
    · exact (dark_modify _).bind fun _ => dark_pure _
    · exact (dark_modify _).bind fun _ => dark_pure _

end Novium.Kernel
