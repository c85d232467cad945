import Novium.Kernel.SchedExec
import Novium.Ipc.PortLife

/-! The sections of the IPC calls are single steps of the kernel, and come to the functions that the
models of the objects take as one step. -/

namespace Novium.Kernel

open Novium.Lib Novium.Lib.Prog Novium.Sched Novium.Ipc

namespace Memory

variable (x : ℕ) (m : Memory)

@[simp] theorem setPort_self : m.setPort x (m.ports x) = m := by simp [setPort]

@[simp] theorem setSem_self : m.setSem x (m.sems x) = m := by simp [setSem]

@[simp] theorem setMutex_self : m.setMutex x (m.mutexes x) = m := by simp [setMutex]

@[simp] theorem setMutex_mutexes (mu : IpcMutex) : (m.setMutex x mu).mutexes x = mu := by simp [setMutex]

@[simp] theorem setMutex_setMutex (mu mu' : IpcMutex) : (m.setMutex x mu).setMutex x mu' = m.setMutex x mu' := by
  simp [setMutex]

@[simp] theorem setWait_sched (q : IpcWait) (w : WaitRef) : (m.setWait q w).sched = m.sched := by
  cases w <;> rfl

/-- What `IpcSelfId` returns. -/
def selfId : ℕ :=
  match m.sched.currentTask with
  | none => 0
  | some self => m.sched.id self

def live (id : ℕ) : Bool := (Sched.schedFind id m.sched).isSome

end Memory

@[simp] theorem ipcSelfId_exec {α : Type} (g : ℕ → Prog Memory α) (b : Bool) (m : Memory) :
    (ipcSelfId >>= g).exec b m = (g m.selfId).exec b m := by
  unfold ipcSelfId Memory.selfId
  have hfetch : inSched schedCurrent = fetch fun m : Memory => m.sched.currentTask := rfl
  rw [exec_bind_bind, hfetch, exec_fetch]
  cases m.sched.currentTask <;> simp

/-- The sections that do not switch. -/
inductive Section where
  | take (w : WaitRef)
  | destroy (x : ℕ)
  | send (x message : ℕ)
  | receive (x out : ℕ)
  | tryWait (x : ℕ)
  | post (x : ℕ)
  | tryLock (x : ℕ)
  | unlock (x : ℕ)

namespace Section

/-- What a section tells the rest of its call. -/
abbrev Result : Section → Type
  | .take _ => ℕ
  | .unlock _ => IpcStatus × ℕ
  | _ => IpcStatus

def code : (sec : Section) → Prog Memory sec.Result
  | .take w => Kernel.ipcWaitTakeLive w
  | .destroy x => destroySection x
  | .send x message => sendSection x message
  | .receive x out => receiveSection x out
  | .tryWait x => tryWaitSection x
  | .post x => postSection x
  | .tryLock x => tryLockSection x
  | .unlock x => unlockSection x

/-- By the functions of the models of the objects. -/
def effect : (sec : Section) → Memory → Option (sec.Result × Memory)
  | .take w, m => (Ipc.ipcWaitTakeLive m.live (m.wait w)).map fun (q, id) => (id, m.setWait q w)
  | .destroy x, m =>
    let (p, status) := Ipc.ipcPortDestroy (m.ports x)
    some (status, m.setPort x p)
  | .send x message, m =>
    if (m.ports x).count = ipcPortCapacity then some (.errFull, m)
    else some (.ok, m.setPort x (Ipc.portPush m.selfId (m.messages message) (m.ports x)))
  | .receive x out, m =>
    if (m.ports x).count = 0 then some (.errEmpty, m)
    else some (.ok, (m.setMessage out ((m.ports x).slots (m.ports x).head)).setPort x (Ipc.portPop (m.ports x)))
  | .tryWait x, m =>
    let (s, status) := Ipc.semTryWait (m.sems x)
    some (status, m.setSem x s)
  | .post x, m =>
    let (s, status) := Ipc.semPost (m.sems x)
    some (status, m.setSem x s)
  | .tryLock x, m =>
    let (mu, status) := Ipc.mutexTryLock m.selfId (m.mutexes x)
    some (status, m.setMutex x mu)
  | .unlock x, m => (Ipc.mutexUnlock m.live m.selfId (m.mutexes x)).map fun (mu, r) => (r, m.setMutex x mu)

theorem code_dark (sec : Section) : sec.code.Dark false := by
  cases sec with
  | take w => exact ipcWaitTakeLive_dark w
  | destroy x => exact destroySection_dark x
  | send x message => exact sendSection_dark x message
  | receive x out => exact receiveSection_dark x out
  | tryWait x => exact tryWaitSection_dark x
  | post x => exact postSection_dark x
  | tryLock x => exact tryLockSection_dark x
  | unlock x => exact unlockSection_dark x

theorem code_exec (sec : Section) (m : Memory) :
    sec.code.exec false m = (sec.effect m).map fun r => .done r.1 false r.2 := by
  cases sec with
  | take w =>
    have h : (Kernel.ipcWaitTakeLive w).exec false m = _ := exec_act_end _
    rw [code, effect, h, Option.map_map, Option.map_map]
    rfl
  | destroy x =>
    simp only [code, effect, destroySection, Ipc.ipcPortDestroy, exec_fetch]
    split_ifs <;> simp
  | send x message =>
    simp only [code, effect, sendSection, portPush, exec_fetch]
    split_ifs <;> simp
  | receive x out =>
    simp only [code, effect, receiveSection, portPop, exec_fetch]
    split_ifs
    · simp
    · simp
      rfl
  | tryWait x =>
    simp only [code, effect, tryWaitSection, Ipc.semTryWait, exec_fetch]
    split_ifs <;> simp
  | post x =>
    simp only [code, effect, postSection, Ipc.semPost, exec_fetch]
    split_ifs <;> simp
  | tryLock x =>
    simp only [code, effect, tryLockSection, Ipc.mutexTryLock, exec_fetch]
    split_ifs <;> simp
  | unlock x =>
    simp only [code, effect, unlockSection, Ipc.mutexUnlock, exec_fetch, ipcSelfId_exec]
    split_ifs
    · simp
    · have hlive : (fun id => (Sched.schedFind id m.sched).isSome) = m.live := rfl
      simp only [Kernel.ipcWaitTakeLive, exec_act, hlive, Memory.wait, Option.map_map, Option.bind_map]
      cases Ipc.ipcWaitTakeLive m.live (m.mutexes x).wait with
      | none => rfl
      | some r =>
        obtain ⟨q, nxt⟩ := r
        by_cases hnxt : nxt = 0
        · simp [hnxt, IpcMutex.passTo, Memory.setWait]
        · simp [hnxt, IpcMutex.passTo, Memory.setWait]

end Section

variable {α : Type} {t : TaskRef} {c c' : Cpu TaskRef Memory α}

/-- With interrupts off, a section on the thread `t` is one step for the rest of the kernel, and the step is the one of
the object's model. In every run the thread is inside the section, or the run has come through the end of it. -/
theorem section_atomic (sec : Section) {k : sec.Result → Prog Memory α} (h : c.At t (sec.code >>= k))
    (hf : c.flag = false) (hrun : Cpu.system.Leads (Cpu.Spares t) c c') :
    c'.Inside t false sec.code c.memory k ∨
      ∃ r d, sec.effect c.memory = some (r, d.memory) ∧ d.At t (k r) ∧ d.flag = false ∧
        Cpu.system.Leads (Cpu.Spares t) c d ∧ Cpu.system.Leads (Cpu.Spares t) d c' := by
  rcases h.atomic sec.code_dark hf hrun with hin | ⟨stop, d, hexec, hstop, hcd, hdc⟩
  · exact .inl hin
  · rw [sec.code_exec] at hexec
    obtain ⟨⟨r, m⟩, heffect, rfl⟩ := Option.map_eq_some_iff.mp hexec
    obtain ⟨hat, hflag, rfl⟩ := hstop
    exact .inr ⟨r, d, heffect, hat, hflag, hcd, hdc⟩

theorem parkSection_exec {w : WaitRef} {ready : Memory → Bool} {self : ℕ} {m : Memory} {q : IpcWait}
    (hready : ready m = false) (hadd : Ipc.ipcWaitAdd (m.wait w) self = some q) :
    (parkSection w ready self).exec false m =
      (((fun _ => none) <$> schedBlock).exec false m.sched).map
        (Stop.zoom (·.sched) (fun s m => { m with sched := s }) (m.setWait q w)) := by
  have hblock : (inSched schedBlock >>= fun _ => pure none) =
      inSched ((fun _ => (none : Option IpcStatus)) <$> schedBlock) :=
    (zoom_bind schedBlock (fun _ => pure none) _ _).symm
  unfold parkSection Kernel.ipcWaitAdd
  rw [exec_fetch, hready]
  simp only [Bool.false_eq_true, ↓reduceIte, exec_bind_bind, exec_fetch, hadd, exec_modify, exec_pure_bind, hblock,
    Bool.not_true]
  rw [inSched_exec, Memory.setWait_sched]

/-- From the test of `Ready` to the switch inside `SchedBlock` nobody comes in between: a caller that has found the
object not ready is on the queue and blocked when the next task runs. -/
theorem park_atomic {w : WaitRef} {ready : Memory → Bool} {self : ℕ} {q : IpcWait}
    {k : Option IpcStatus → Prog Memory α} (h : c.At t (parkSection w ready self >>= k)) (hf : c.flag = false)
    (hready : ready c.memory = false) (hadd : Ipc.ipcWaitAdd (c.memory.wait w) self = some q)
    (hrun : Cpu.system.Leads (Cpu.Spares t) c c') :
    c'.Inside t true (parkSection w ready self) c.memory k ∨
      ∃ stop d, Sched.schedBlock (withIrqs false c.memory.sched) =
          some (stopState c.memory.sched.currentTask [.yield false, .blockTask] stop) ∧
        d.Stopped t k (stop.zoom (·.sched) (fun s m => { m with sched := s }) (c.memory.setWait q w)) ∧
        Cpu.system.Leads (Cpu.Spares t) c d ∧ Cpu.system.Leads (Cpu.Spares t) d c' := by
  rcases h.atomic (parkSection_dark w ready self) hf hrun with hin | ⟨stop, d, hexec, hstop, hcd, hdc⟩
  · exact .inl hin
  · rw [parkSection_exec hready hadd] at hexec
    obtain ⟨stop, hblock, rfl⟩ := Option.map_eq_some_iff.mp hexec
    refine .inr ⟨stop, d, ?_, hstop, hcd, hdc⟩
    rw [← schedBlock_exec, hblock]
    rfl

end Novium.Kernel
