import Novium.Ipc.HandOff

/-! What a task is told that does nothing but lock and unlock one mutex, and a mutex whose owner sleeps for it: nobody
ever opens it. -/

namespace Novium.Ipc

open Novium.Lib

/-- Inside a `MutexLock`. -/
def MutexPc.locking : MutexPc → Bool
  | .selfLocked | .selfOwner => true
  | pc => pc.waits

section

variable {live : ℕ → Bool} {self : ℕ} {m m' : IpcMutex} {l l' : MutexLoc} {eff : Effect}

theorem lock_step (h : mutexStep live self m l = some (m', l', eff)) (hpc : l.pc.locking = true) (h0 : self ≠ 0)
    (howner : l.pc = .selfOwner → m.owner ≠ self) (hroom : m.wait.count < ipcMaxWaiters) :
    (l'.holds = l.holds ∧ l'.pc.locking = true ∧ (l.pc.waits = true → l'.pc.waits = true)) ∨
      (l'.pc = .out (some .ok) ∧ l'.holds = true) := by
  unfold mutexStep at h
  cases hl : l.pc with
  | out last | tryLock | unlock | unlockWake => simp [hl, MutexPc.locking, MutexPc.waits] at hpc
  | selfLocked =>
    simp only [hl] at h
    cases h
    refine .inl ⟨rfl, ?_, fun hw => by cases hw⟩
    cases m.locked <;> rfl
  | selfOwner =>
    simp only [hl, if_neg (howner hl)] at h
    cases h
    exact .inl ⟨rfl, rfl, fun hw => by cases hw⟩
  | lockTry =>
    simp only [hl] at h
    obtain ⟨-, he⟩ | ⟨he, -⟩ := mutexTryLock_change live self m l
    · rw [he] at h
      cases h
      exact .inl ⟨rfl, rfl, fun _ => rfl⟩
    · rw [he] at h
      cases h
      exact .inr ⟨rfl, by simp [MutexLoc.retLock]⟩
  | busyLocked =>
    simp only [hl] at h
    cases h
    refine .inl ⟨rfl, ?_, fun _ => ?_⟩ <;> cases m.locked <;> rfl
  | busyOwner =>
    simp only [hl] at h
    split_ifs at h
    · cases h
      exact .inr ⟨rfl, by simp [MutexLoc.retLock]⟩
    · cases h
      exact .inl ⟨rfl, rfl, fun _ => rfl⟩
  | park p =>
    simp only [hl] at h
    have hst : ∀ st, (ipcPark self (mutexIsFree m) m.wait p).2.1 = .inr st → st = .ok := by
      intro st hst
      cases p with
      | woken => cases hst
      | check =>
        obtain ⟨q, hadd⟩ := ipcWaitAdd_room self hroom
        simp only [ipcPark, if_neg h0, hadd] at hst
        split_ifs at hst
        cases hst
        rfl
    split at h
    · cases h
      exact .inl ⟨rfl, rfl, fun _ => rfl⟩
    · cases h
      exact .inl ⟨rfl, rfl, fun _ => rfl⟩
    next w st eff' hno he =>
      exact absurd (hst st (congrArg (fun r => r.2.1) he)) fun e => hno (by rw [e])

theorem unlock_step (h : mutexStep live self m l = some (m', l', eff)) (hpc : l.pc = .unlock) (hl : m.locked = true)
    (ho : m.owner = self) : l'.holds = false ∧ (l'.pc = .out (some .ok) ∨ ∃ nxt, l'.pc = .unlockWake nxt) := by
  simp only [mutexStep, hpc, mutexUnlock, hl, ho, Bool.not_true, Bool.false_eq_true, ne_eq, not_true, or_self,
    if_false] at h
  obtain ⟨⟨m₁, st, nxt⟩, hu, he⟩ := Option.map_eq_some_iff.mp h
  obtain ⟨⟨q, nxt'⟩, -, hq⟩ := Option.map_eq_some_iff.mp hu
  cases hq
  cases he
  refine ⟨by simp [MutexLoc.unlocked], ?_⟩
  by_cases hn : nxt' = 0
  · simp [MutexLoc.unlocked, hn]
  · simp [MutexLoc.unlocked, hn]

end

/-- The owner of a locked mutex holds it or is about to be told so. -/
def Owned (w : MutexWorld) : Prop :=
  w.obj.locked = true → (w.loc w.obj.owner).holds = true ∨ (w.loc w.obj.owner).pc.waits = true

section

variable {w : MutexWorld} {self : ℕ} {m' : IpcMutex} {l' : MutexLoc} {eff : Effect}

/-- A waiter does not leave the loop of `MutexLock` without the mutex. -/
theorem owned_lock (h : Owned w) (hs : mutexStep w.tasks.live self w.obj (w.loc self) = some (m', l', eff))
    (hpc : (w.loc self).pc.locking = true) (hheld : (w.loc self).holds = false)
    (hstays : (l'.holds = (w.loc self).holds ∧ l'.pc.locking = true ∧ ((w.loc self).pc.waits = true → l'.pc.waits = true)) ∨
      (l'.pc = .out (some .ok) ∧ l'.holds = true)) :
    Owned ⟨m', eff.apply self w.tasks, Function.update w.loc self l'⟩ := by
  have hkeep : w.obj.locked = true →
      (Function.update w.loc self l' w.obj.owner).holds = true ∨ (Function.update w.loc self l' w.obj.owner).pc.waits = true := by
    intro hl
    by_cases ho : w.obj.owner = self
    · have hown := h hl
      rw [ho, hheld] at hown
      rw [ho, Function.update_self]
      obtain hno | hwaits := hown
      · cases hno
      · exact hstays.elim (fun hst => .inr (hst.2.2 hwaits)) fun hst => .inl hst.2
    · rw [Function.update_of_ne ho]
      exact h hl
  cases mutexStep_change hs with
  | keep | told | park => exact hkeep
  | take =>
    intro _
    simp [MutexLoc.retLock]
  | unlock hunlock =>
    rw [hunlock] at hpc
    cases hpc

theorem owned_unlock (hwf : WellFormed w.obj.wait) (hq : Queued w)
    (hs : mutexStep w.tasks.live self w.obj (w.loc self) = some (m', l', eff)) (hpc : (w.loc self).pc = .unlock)
    (hheld : (w.loc self).holds = true) (hl : w.obj.locked = true) (ho : w.obj.owner = self) :
    Owned ⟨m', eff.apply self w.tasks, Function.update w.loc self l'⟩ := by
  have hreturn := unlock_step hs hpc hl ho
  cases mutexStep_change hs with
  | keep hholds =>
    rw [hreturn.1, hheld] at hholds
    cases hholds
  | told hbusy =>
    rw [hpc] at hbusy
    cases hbusy
  | park p hpark =>
    rw [hpc] at hpark
    cases hpark
  | take hfree =>
    rw [hl] at hfree
    cases hfree
  | @unlock q nxt _ _ _ htake =>
    obtain ⟨-, ⟨h0, hin, -⟩ | ⟨h0, -⟩⟩ := ipcWaitTakeLive_cases hwf htake
    · intro _
      have hpark := hq nxt hin
      have hne : nxt ≠ self := by
        rintro rfl
        rw [hpc] at hpark
        cases hpark
      refine .inr ?_
      simp only [IpcMutex.passTo, if_pos h0, Function.update_of_ne hne, hpark]
      rfl
    · intro hl'
      simp [IpcMutex.passTo, h0] at hl'

theorem Owned.quiet {l' : MutexLoc} (h : Owned w) (hholds : l'.holds = (w.loc self).holds)
    (hpc : (w.loc self).pc.waits = false) (ts : Tasks) : Owned ⟨w.obj, ts, Function.update w.loc self l'⟩ := by
  intro hl
  simp only
  by_cases ho : w.obj.owner = self
  · have hown := h hl
    rw [ho, hpc] at hown
    obtain hheld | hno := hown
    · rw [ho, Function.update_self, hholds]
      exact .inl hheld
    · cases hno
  · rw [Function.update_of_ne ho]
    exact h hl

end

/-- The owner of the mutex is inside `IpcPark` for it. -/
def Stranded (w : MutexWorld) (id : ℕ) : Prop :=
  id ≠ 0 ∧ w.obj.locked = true ∧ w.obj.owner = id ∧ ∃ p, (w.loc id).pc = .park p

/-- The owner is not killed, and finds room in the queue whenever it goes back to sleep. -/
def KeepsStranded (id : ℕ) (w : MutexWorld) (e : MutexEvent) : Prop :=
  e ≠ .kill id ∧ (e = .step id → w.obj.wait.count < ipcMaxWaiters)

theorem Stranded.step {w : MutexWorld} {id self : ℕ} {m' : IpcMutex} {l' : MutexLoc} {eff : Effect} (h : Stranded w id)
    (hroom : self = id → w.obj.wait.count < ipcMaxWaiters)
    (hs : mutexStep w.tasks.live self w.obj (w.loc self) = some (m', l', eff)) :
    Stranded ⟨m', eff.apply self w.tasks, Function.update w.loc self l'⟩ id := by
  obtain ⟨h0, hl, ho, p, hp⟩ := h
  by_cases hself : self = id
  · subst hself
    have hfree : mutexIsFree w.obj = false := by simp [mutexIsFree, hl]
    cases p with
    | check =>
      obtain ⟨q, hadd⟩ := ipcWaitAdd_room self (hroom rfl)
      rw [mutexStep_check hp h0 hl hadd] at hs
      cases hs
      exact ⟨h0, hl, ho, .woken, by simp [MutexLoc.goto]⟩
    | woken =>
      rw [mutexStep_woken hp] at hs
      cases hs
      exact ⟨h0, hl, ho, .check, by simp [MutexLoc.goto]⟩
  · have hloc : (Function.update w.loc self l' id).pc = .park p := by
      rw [Function.update_of_ne (Ne.symm hself), hp]
    have hc := mutexStep_change hs
    cases hc with
    | keep => exact ⟨h0, hl, ho, p, hloc⟩
    | told _ howner => exact absurd (howner.symm.trans ho) hself
    | park => exact ⟨h0, hl, ho, p, hloc⟩
    | take hfree =>
      rw [hl] at hfree
      cases hfree
    | unlock _ _ howner => exact absurd (howner.symm.trans ho) hself

theorem Stranded.next {w w' : MutexWorld} {id : ℕ} {e : MutexEvent} (hf : mutexCode.Fresh w) (h : Stranded w id)
    (hok : KeepsStranded id w e) (hn : mutexSystem.next w e = some w') : Stranded w' id := by
  obtain ⟨i, c, l, rfl, -, hs, rfl⟩ | ⟨i, o, l, eff, rfl, -, hs, rfl⟩ | ⟨i, -, rfl⟩ | ⟨i, rfl, rfl⟩ | ⟨rfl, rfl⟩ :=
    Code.next_cases hn
  · obtain ⟨h0, hl, ho, p, hp⟩ := h
    refine ⟨h0, hl, ho, p, ?_⟩
    have hi : id ≠ i := by
      rintro rfl
      have hstart : mutexStart c (w.loc id) = some l := hs
      rw [mutexStart, hp] at hstart
      cases hstart
    simpa only [Function.update_of_ne hi] using hp
  · exact h.step (fun hi => hok.2 (by rw [hi])) hs
  · exact h
  · exact h
  · obtain ⟨h0, hl, ho, p, hp⟩ := h
    refine ⟨h0, hl, ho, p, ?_⟩
    have hi : id ≠ w.tasks.nextId := by
      rintro rfl
      rw [(hf _ (Nat.le_refl _)).1] at hp
      cases hp
    simpa only [Function.update_of_ne hi] using hp

end Novium.Ipc
