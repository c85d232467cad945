import Novium.Ipc.Machine

/-! The mutex of `ipc/sync.c`. The calls are cut where another task can come in:
`MutexHeldByCaller` runs with interrupts on, so its two reads are two steps. -/

namespace Novium.Ipc

open Novium.Lib

structure IpcMutex where
  locked : Bool
  owner : ℕ
  wait : IpcWait

def mutexInit : IpcMutex := ⟨false, 0, emptyWait⟩

def mutexIsFree (m : IpcMutex) : Bool := !m.locked

/-- The section of `MutexTryLock`. -/
def mutexTryLock (self : ℕ) (m : IpcMutex) : IpcMutex × IpcStatus :=
  if m.locked then (m, .errBusy) else ({ m with locked := true, owner := self }, .ok)

/-- The mutex passed on to the waiter `nxt`, or opened when that is 0. -/
def IpcMutex.passTo (m : IpcMutex) (w : IpcWait) (nxt : ℕ) : IpcMutex :=
  if nxt ≠ 0 then { m with owner := nxt, wait := w } else ⟨false, 0, w⟩

/-- The section of `MutexUnlock`: the mutex, the status and `Next`. -/
def mutexUnlock (live : ℕ → Bool) (self : ℕ) (m : IpcMutex) : Option (IpcMutex × IpcStatus × ℕ) :=
  if !m.locked ∨ m.owner ≠ self then some (m, .errOwner, 0)
  else (ipcWaitTakeLive live m.wait).map fun (w, nxt) => (m.passTo w nxt, .ok, nxt)

inductive MutexOp where
  | lock | tryLock | unlock
  deriving DecidableEq, Repr

/-- A call, with a null pointer or on the mutex. -/
structure MutexCall where
  op : MutexOp
  null : Bool

inductive MutexPc where
  /-- between calls, behind one that returned `last` -/
  | out (last : Option IpcStatus)
  /-- `MutexLock` in its first `MutexHeldByCaller`: about to read `Locked`, `Owner` -/
  | selfLocked
  | selfOwner
  | lockTry
  /-- `MutexLock` in the `MutexHeldByCaller` behind `IpcErrBusy` -/
  | busyLocked
  | busyOwner
  | park (p : ParkPc)
  | tryLock
  | unlock
  | unlockWake (nxt : ℕ)
  deriving DecidableEq, Repr

/-- Where a task is, and whether it holds the mutex by what the calls told it: an
`IpcOk` from a lock and none since from an unlock. -/
structure MutexLoc where
  pc : MutexPc
  holds : Bool
  deriving DecidableEq, Repr

namespace MutexLoc

def goto (l : MutexLoc) (pc : MutexPc) : MutexLoc := { l with pc := pc }

def ret (l : MutexLoc) (st : IpcStatus) : MutexLoc := { l with pc := .out (some st) }

def retLock (l : MutexLoc) (st : IpcStatus) : MutexLoc := ⟨.out (some st), l.holds || st = .ok⟩

/-- Behind the section of an unlock with status `st`. -/
def unlocked (l : MutexLoc) (st : IpcStatus) (nxt : ℕ) : MutexLoc :=
  ⟨if st = .ok ∧ nxt ≠ 0 then .unlockWake nxt else .out (some st), l.holds && st ≠ .ok⟩

end MutexLoc

def mutexStart (c : MutexCall) (l : MutexLoc) : Option MutexLoc :=
  match l.pc with
  | .out _ =>
    if c.null then some (l.ret .errInvalid)
    else match c.op with
      | .lock => some (l.goto .selfLocked)
      | .tryLock => some (l.goto .tryLock)
      | .unlock => some (l.goto .unlock)
  | _ => none

def mutexStep (live : ℕ → Bool) (self : ℕ) (m : IpcMutex) (l : MutexLoc) :
    Option (IpcMutex × MutexLoc × Effect) :=
  match l.pc with
  | .out _ => none
  | .selfLocked => some (m, l.goto (if m.locked then .selfOwner else .lockTry), .stay)
  | .selfOwner =>
    if m.owner = self then some (m, l.ret .errOwner, .stay) else some (m, l.goto .lockTry, .stay)
  | .lockTry =>
    match mutexTryLock self m with
    | (m', .errBusy) => some (m', l.goto .busyLocked, .stay)
    | (m', st) => some (m', l.retLock st, .stay)
  | .busyLocked => some (m, l.goto (if m.locked then .busyOwner else .park .check), .stay)
  | .busyOwner =>
    if m.owner = self then some (m, l.retLock .ok, .stay) else some (m, l.goto (.park .check), .stay)
  | .park p =>
    match ipcPark self (mutexIsFree m) m.wait p with
    | (w, .inl p', eff) => some ({ m with wait := w }, l.goto (.park p'), eff)
    | (w, .inr .ok, eff) => some ({ m with wait := w }, l.goto .lockTry, eff)
    | (w, .inr st, eff) => some ({ m with wait := w }, l.ret st, eff)
  | .tryLock =>
    let (m', st) := mutexTryLock self m
    some (m', l.retLock st, .stay)
  | .unlock => (mutexUnlock live self m).map fun (m', st, nxt) => (m', l.unlocked st nxt, .stay)
  | .unlockWake nxt => some (m, l.ret .ok, .wake nxt)

def mutexCode : Code IpcMutex MutexLoc MutexCall where
  rest := ⟨.out none, false⟩
  start := mutexStart
  step := mutexStep

abbrev MutexWorld := World IpcMutex MutexLoc

abbrev MutexEvent := Event MutexCall

/-- Any tasks making any calls on one mutex after `MutexInit`. -/
def mutexSystem : System MutexWorld MutexEvent := mutexCode.system (· = mutexInit)

/-- In the loop of `MutexLock`, without the mutex. -/
def MutexPc.waits : MutexPc → Bool
  | .lockTry => true
  | .busyLocked => true
  | .busyOwner => true
  | .park _ => true
  | _ => false

theorem mutexStart_cases {c : MutexCall} {l l' : MutexLoc} (h : mutexStart c l = some l') :
    l'.holds = l.holds ∧ l'.pc.waits = false ∧ l.pc.waits = false := by
  unfold mutexStart at h
  split at h
  · rename_i last hpc
    rw [hpc]
    split_ifs at h with hnull
    · cases h
      exact ⟨rfl, rfl, rfl⟩
    · split at h <;> cases h <;> exact ⟨rfl, rfl, rfl⟩
  · cases h

inductive MutexChange (live : ℕ → Bool) (self : ℕ) (m : IpcMutex) (l : MutexLoc) : IpcMutex → MutexLoc → Prop where
  | keep {l' : MutexLoc} (holds : l'.holds = l.holds)
      (waits : l'.pc.waits = true → l.pc.waits = true ∨ m.locked = false ∨ m.owner ≠ self) :
      MutexChange live self m l m l'
  | told (pc : l.pc = .busyOwner) (owner : m.owner = self) : MutexChange live self m l m (l.retLock .ok)
  | park {l' : MutexLoc} (p : ParkPc) (pc : l.pc = .park p) (holds : l'.holds = l.holds)
      (stays : ∀ p', (ipcPark self (mutexIsFree m) m.wait p).2.1 = .inl p' → l'.pc = .park p') :
      MutexChange live self m l { m with wait := (ipcPark self (mutexIsFree m) m.wait p).1 } l'
  | take (free : m.locked = false) :
      MutexChange live self m l { m with locked := true, owner := self } (l.retLock .ok)
  | unlock {w : IpcWait} {nxt : ℕ} (pc : l.pc = .unlock) (locked : m.locked = true) (owner : m.owner = self)
      (taken : ipcWaitTakeLive live m.wait = some (w, nxt)) :
      MutexChange live self m l (m.passTo w nxt) (l.unlocked .ok nxt)

theorem mutexTryLock_change (live : ℕ → Bool) (self : ℕ) (m : IpcMutex) (l : MutexLoc) :
    (m.locked = true ∧ mutexTryLock self m = (m, .errBusy)) ∨
      (mutexTryLock self m = ({ m with locked := true, owner := self }, .ok) ∧
        MutexChange live self m l { m with locked := true, owner := self } (l.retLock .ok)) := by
  unfold mutexTryLock
  cases h : m.locked with
  | true => exact Or.inl ⟨rfl, by simp⟩
  | false => exact Or.inr ⟨by simp, .take h⟩

theorem mutexStep_change {live : ℕ → Bool} {self : ℕ} {m m' : IpcMutex} {l l' : MutexLoc} {eff : Effect}
    (h : mutexStep live self m l = some (m', l', eff)) : MutexChange live self m l m' l' := by
  unfold mutexStep at h
  cases hpc : l.pc with
  | out last => simp [hpc] at h
  | selfLocked =>
    simp only [hpc, Option.some.injEq, Prod.mk.injEq] at h
    obtain ⟨rfl, rfl, -⟩ := h
    refine .keep rfl fun hw => Or.inr (Or.inl ?_)
    cases hl : m.locked with
    | true => simp [MutexLoc.goto, hl, MutexPc.waits] at hw
    | false => rfl
  | selfOwner =>
    simp only [hpc] at h
    split_ifs at h with ho
    · cases h
      exact .keep rfl fun hw => by simp [MutexLoc.ret, MutexPc.waits] at hw
    · cases h
      exact .keep rfl fun _ => Or.inr (Or.inr ho)
  | lockTry =>
    simp only [hpc] at h
    rcases mutexTryLock_change live self m l with ⟨hl, he⟩ | ⟨he, hc⟩
    · simp only [he] at h
      cases h
      exact .keep rfl fun _ => Or.inl (by simp [hpc, MutexPc.waits])
    · simp only [he] at h
      cases h
      exact hc
  | busyLocked =>
    simp only [hpc, Option.some.injEq, Prod.mk.injEq] at h
    obtain ⟨rfl, rfl, -⟩ := h
    exact .keep rfl fun _ => Or.inl (by simp [hpc, MutexPc.waits])
  | busyOwner =>
    simp only [hpc] at h
    split_ifs at h with ho
    · cases h
      exact .told hpc ho
    · cases h
      exact .keep rfl fun _ => Or.inl (by simp [hpc, MutexPc.waits])
  | park p =>
    simp only [hpc] at h
    have hpark := @MutexChange.park live self m l l' p hpc
    split at h
    · rename_i he
      rw [he] at hpark
      cases h
      exact hpark rfl fun p' hp' => by cases hp'; rfl
    · rename_i he
      rw [he] at hpark
      cases h
      exact hpark rfl fun p' hp' => by cases hp'
    · rename_i he
      rw [he] at hpark
      cases h
      exact hpark rfl fun p' hp' => by cases hp'
  | tryLock =>
    simp only [hpc] at h
    rcases mutexTryLock_change live self m l with ⟨hl, he⟩ | ⟨he, hc⟩
    · simp only [he] at h
      cases h
      exact .keep (by simp [MutexLoc.retLock]) fun hw => by simp [MutexLoc.retLock, MutexPc.waits] at hw
    · simp only [he] at h
      cases h
      exact hc
  | unlock =>
    simp only [hpc] at h
    obtain ⟨⟨m₁, st, nxt⟩, hu, he⟩ := Option.map_eq_some_iff.mp h
    cases he
    unfold mutexUnlock at hu
    split_ifs at hu with hno
    · cases hu
      exact .keep (by simp [MutexLoc.unlocked]) fun hw => by simp [MutexLoc.unlocked, MutexPc.waits] at hw
    · obtain ⟨⟨w, nxt'⟩, ht, he⟩ := Option.map_eq_some_iff.mp hu
      cases he
      simp only [Bool.not_eq_eq_eq_not, Bool.not_true, not_or, Bool.not_eq_false, not_not] at hno
      exact .unlock hpc hno.1 hno.2 ht
  | unlockWake nxt =>
    simp only [hpc] at h
    cases h
    exact .keep rfl fun hw => by simp [MutexLoc.ret, MutexPc.waits] at hw

end Novium.Ipc
