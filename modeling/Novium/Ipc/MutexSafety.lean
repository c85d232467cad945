import Novium.Ipc.Mutex

/-! What holds of the mutex in every run, and what holds as long as two things do
not happen: the idle task misreading the owner, and the death of the owner. -/

namespace Novium.Ipc

open Novium.Lib

/-- An open mutex has no owner and an empty queue. -/
structure MutexInv (m : IpcMutex) : Prop where
  wait : WellFormed m.wait
  free : m.locked = false → m.owner = 0 ∧ m.wait.count = 0

theorem mutexInit_inv : MutexInv mutexInit := ⟨wellFormed_empty, fun _ => ⟨rfl, rfl⟩⟩

theorem passTo_inv {live : ℕ → Bool} {m : IpcMutex} {w : IpcWait} {nxt : ℕ} (h : MutexInv m)
    (hlock : m.locked = true) (htake : ipcWaitTakeLive live m.wait = some (w, nxt)) :
    MutexInv (m.passTo w nxt) := by
  obtain ⟨hwf, hcase⟩ := ipcWaitTakeLive_cases h.wait htake
  unfold IpcMutex.passTo
  split_ifs with hn
  · exact ⟨hwf, fun hl => by simp [hlock] at hl⟩
  · rcases hcase with ⟨h0, -⟩ | ⟨-, hc, -⟩
    · exact absurd h0 hn
    · exact ⟨hwf, fun _ => ⟨rfl, hc⟩⟩

theorem MutexChange.inv {live : ℕ → Bool} {self : ℕ} {m m' : IpcMutex} {l l' : MutexLoc} (h : MutexInv m)
    (hc : MutexChange live self m l m' l') : MutexInv m' := by
  cases hc with
  | keep => exact h
  | told => exact h
  | park p =>
    refine ⟨ipcPark_wellFormed h.wait, fun hl => ⟨(h.free hl).1, ?_⟩⟩
    -- only a locked mutex lets a waiter in
    have hempty := (h.free hl).2
    have hready : mutexIsFree m = true := by simpa [mutexIsFree] using hl
    rcases ipcPark_cases self (mutexIsFree m) m.wait p with ⟨st, he⟩ | ⟨w', -, hr, -⟩ | he
    · rw [he]
      exact hempty
    · rw [hready] at hr
      cases hr
    · rw [he]
      simp [ipcWaitRemove, hempty]
  | take => exact ⟨h.wait, fun hl => by cases hl⟩
  | unlock _ hlock _ htake => exact passTo_inv h hlock htake

theorem mutex_next_inv {w w' : MutexWorld} {e : MutexEvent} (h : MutexInv w.obj)
    (hn : mutexSystem.next w e = some w') : MutexInv w'.obj := by
  rcases Code.next_cases hn with ⟨_, _, _, -, -, -, rfl⟩ | ⟨_, _, _, _, -, -, hs, rfl⟩ | ⟨_, -, rfl⟩ |
    ⟨_, -, rfl⟩ | ⟨-, rfl⟩
  · exact h
  · exact (mutexStep_change hs).inv h
  · exact h
  · exact h
  · exact h

theorem mutex_inv {ok : MutexWorld → MutexEvent → Prop} {w : MutexWorld} (h : mutexSystem.ReachableIf ok w) :
    MutexInv w.obj := by
  refine h.invariant ?_ fun s e s' hi _ hn => mutex_next_inv hi hn
  rintro w ⟨-, rfl, rfl⟩
  exact mutexInit_inv

/-- Whatever the queue held when the mutex was unlocked, no slot of an open mutex
names a live task. -/
theorem open_mutex_no_waiter {w : MutexWorld} (h : mutexSystem.Reachable w) (hfree : w.obj.locked = false) :
    ∀ i, ipcWaitIsLive w.tasks.live (w.obj.wait.ids i) = false := by
  intro i
  have hi : MutexInv w.obj := mutex_inv h
  have hslot : w.obj.wait.ids i = 0 := hi.wait.clear i (by rw [(hi.free hfree).2]; omega)
  simp [ipcWaitIsLive, hslot]

theorem mutex_boot : mutexSystem.init (mutexCode.boot mutexInit) := ⟨mutexInit, rfl, rfl⟩

def lockCall (id : ℕ) : MutexEvent := .call id ⟨.lock, false⟩
def tryLockCall (id : ℕ) : MutexEvent := .call id ⟨.tryLock, false⟩
def unlockCall (id : ℕ) : MutexEvent := .call id ⟨.unlock, false⟩

/-- Tasks 1 and 2, of which 1 has the mutex and 2 has parked for it. -/
def oneParked : List MutexEvent :=
  [.create, .create, tryLockCall 1, .step 1, lockCall 2] ++ List.replicate 6 (.step 2)

/-- The waiter dies and the mutex is opened. -/
theorem open_mutex_stale_waiter :
    ∃ w, mutexSystem.Reachable w ∧ w.obj.locked = false ∧ (w.loc 1).pc = .out (some .ok) ∧
      ∀ i, ipcWaitIsLive w.tasks.live (w.obj.wait.ids i) = false := by
  obtain ⟨w, -, hw, hp⟩ := System.exists_reachableIf (S := mutexSystem) (fun _ _ => True) mutex_boot
    (oneParked ++ [.kill 2, unlockCall 1, .step 1])
    (fun w => w.obj.locked = false ∧ (w.loc 1).pc = .out (some .ok)) (by decide +kernel)
  obtain ⟨hfree, hpc⟩ := of_decide_eq_true hp
  exact ⟨w, hw, hfree, hpc, open_mutex_no_waiter hw hfree⟩

/-- The task that owns the locked mutex is killed, or exits. -/
def killsOwner (w : MutexWorld) : MutexEvent → Bool
  | .kill id => w.obj.locked && id ≠ 0 && w.obj.owner = id
  | _ => false

def SparesOwner (w : MutexWorld) (e : MutexEvent) : Prop := killsOwner w e = false

instance (w : MutexWorld) (e : MutexEvent) : Decidable (SparesOwner w e) :=
  inferInstanceAs (Decidable (_ = _))

def OwnerLive (w : MutexWorld) : Prop :=
  w.obj.locked = true → w.obj.owner = 0 ∨ w.tasks.live w.obj.owner = true

theorem MutexChange.ownerLive {ts : Tasks} {self : ℕ} {m m' : IpcMutex} {l l' : MutexLoc} (hi : MutexInv m)
    (hself : ts.live self = true) (h : m.locked = true → m.owner = 0 ∨ ts.live m.owner = true)
    (hc : MutexChange ts.live self m l m' l') : m'.locked = true → m'.owner = 0 ∨ ts.live m'.owner = true := by
  cases hc with
  | keep => exact h
  | told => exact h
  | park => exact h
  | take => exact fun _ => Or.inr hself
  | @unlock w nxt _ _ _ htake =>
    obtain ⟨-, hcase⟩ := ipcWaitTakeLive_cases hi.wait htake
    intro hl
    unfold IpcMutex.passTo at hl ⊢
    split_ifs at hl ⊢ with hn
    rcases hcase with ⟨-, -, hlive, -⟩ | ⟨h0, -⟩
    · exact Or.inr hlive
    · exact absurd h0 hn

theorem ownerLive_next {w w' : MutexWorld} {e : MutexEvent} (hi : MutexInv w.obj) (h : OwnerLive w)
    (hok : SparesOwner w e) (hn : mutexSystem.next w e = some w') : OwnerLive w' := by
  rcases Code.next_cases hn with ⟨_, _, _, -, -, -, rfl⟩ | ⟨id, o, l, eff, -, hrun, hs, rfl⟩ | ⟨id, -, rfl⟩ |
    ⟨id, rfl, rfl⟩ | ⟨-, rfl⟩
  · exact h
  · intro hl
    simp only [Effect.apply_live hrun]
    exact (mutexStep_change hs).ownerLive hi (Tasks.live_iff.mpr (by simp [hrun])) h hl
  · intro hl
    simpa using h hl
  · intro hl
    refine (h hl).imp_right fun hlive => ?_
    rw [Tasks.kill_live, if_neg]
    · exact hlive
    · rintro ⟨ho, h0⟩
      have hl' : w.obj.locked = true := hl
      simp [SparesOwner, killsOwner, hl', h0, show w.obj.owner = id from ho] at hok
  · intro hl
    refine (h hl).imp_right fun hlive => ?_
    rw [Tasks.create_live]
    split_ifs
    · rfl
    · exact hlive

theorem ownerLive {w : MutexWorld} (h : mutexSystem.ReachableIf SparesOwner w) : OwnerLive w := by
  refine h.invariantFrom (I := OwnerLive) (J := fun w => MutexInv w.obj) (fun _ => mutex_inv) ?_
    fun _ _ _ => ownerLive_next
  rintro w ⟨-, rfl, rfl⟩ hl
  cases hl

/-- Nobody can open the mutex once its owner is dead. -/
theorem not_ownerLive_next {w w' : MutexWorld} {e : MutexEvent} (hbad : ¬ SparesOwner w e)
    (hn : mutexSystem.next w e = some w') : ¬ OwnerLive w' := by
  cases e with
  | kill id =>
    obtain ⟨hl, h0, ho⟩ : w.obj.locked = true ∧ id ≠ 0 ∧ w.obj.owner = id := by
      simpa [SparesOwner, killsOwner] using hbad
    cases hn
    intro hlive
    have hcase : w.obj.owner = 0 ∨ (w.tasks.kill id).live w.obj.owner = true := hlive hl
    simp [ho, h0, Tasks.kill_live] at hcase
  | call => exact absurd rfl hbad
  | step => exact absurd rfl hbad
  | undo => exact absurd rfl hbad
  | create => exact absurd rfl hbad

/-- While no owner dies holding the mutex, a locked mutex belongs to the idle task or
to a live one. The next step keeps this exactly if it does not kill the owner. -/
theorem locked_mutex_owner_live {w : MutexWorld} (h : mutexSystem.ReachableIf SparesOwner w) :
    OwnerLive w ∧ ∀ e w', mutexSystem.next w e = some w' → (OwnerLive w' ↔ SparesOwner w e) := by
  refine ⟨ownerLive h, fun e w' hn => ⟨fun hlive => ?_, fun hok => ?_⟩⟩
  · by_contra hbad
    exact not_ownerLive_next hbad hn hlive
  · exact ownerLive_next (mutex_inv h) (ownerLive h) hok hn

/-- The owner outlives a waiter that is killed. -/
theorem locked_mutex_owner_live_killed_waiter :
    ∃ w, mutexSystem.ReachableIf SparesOwner w ∧ w.obj.owner = 1 ∧
      (w.obj.owner = 0 ∨ w.tasks.live w.obj.owner = true) := by
  obtain ⟨w, -, hw, hp⟩ := System.exists_reachableIf (S := mutexSystem) SparesOwner mutex_boot
    (oneParked ++ [.kill 2]) (fun w => w.obj.locked = true ∧ w.obj.owner = 1) (by decide +kernel)
  obtain ⟨hl, ho⟩ := of_decide_eq_true hp
  exact ⟨w, hw, ho, (locked_mutex_owner_live hw).1 hl⟩

/-- Task 1 takes the mutex and is killed. -/
theorem locked_mutex_dead_owner :
    ∃ w, mutexSystem.runIf (fun _ _ => True) (mutexCode.boot mutexInit)
        [.create, tryLockCall 1, .step 1, .kill 1] = some w ∧ mutexSystem.Reachable w ∧
      w.obj.locked = true ∧ ¬ (w.obj.owner = 0 ∨ w.tasks.live w.obj.owner = true) := by
  obtain ⟨w, hrun, hw, hp⟩ := System.exists_reachableIf (S := mutexSystem) (fun _ _ => True) mutex_boot
    [.create, tryLockCall 1, .step 1, .kill 1]
    (fun w => w.obj.locked = true ∧ ¬ (w.obj.owner = 0 ∨ w.tasks.live w.obj.owner = true)) (by decide +kernel)
  exact ⟨w, hrun, hw, of_decide_eq_true hp⟩

/-- The idle task, behind an `IpcErrBusy` and a read of `Locked` that found it set,
reads `Owner` after the mutex was opened. The idle task has id 0, and so has nobody. -/
def misreadsOwner (w : MutexWorld) : MutexEvent → Bool
  | .step id => id = 0 && (w.loc 0).pc = .busyOwner && !w.obj.locked
  | _ => false

def IdleReadsLocked (w : MutexWorld) (e : MutexEvent) : Prop := misreadsOwner w e = false

instance (w : MutexWorld) (e : MutexEvent) : Decidable (IdleReadsLocked w e) :=
  inferInstanceAs (Decidable (_ = _))

/-- A live task between the `IpcOk` of a lock and the section of its next unlock. -/
def Holder (w : MutexWorld) (id : ℕ) : Prop := (w.loc id).holds = true ∧ w.tasks.live id = true

instance (w : MutexWorld) (id : ℕ) : Decidable (Holder w id) := inferInstanceAs (Decidable (_ ∧ _))

def HoldersOwn (w : MutexWorld) : Prop := ∀ id, Holder w id → w.obj.locked = true ∧ w.obj.owner = id

theorem holdersOwn_step {w : MutexWorld} {self : ℕ} {m' : IpcMutex} {l' : MutexLoc} {eff : Effect}
    (hi : MutexInv w.obj) (h : HoldersOwn w) (hok : IdleReadsLocked w (.step self))
    (hrun : w.tasks.run self = .runnable) (hc : MutexChange w.tasks.live self w.obj (w.loc self) m' l') :
    HoldersOwn ⟨m', eff.apply self w.tasks, Function.update w.loc self l'⟩ := by
  have hself : w.tasks.live self = true := Tasks.live_iff.mpr (by simp [hrun])
  rintro id ⟨hh, hlive⟩
  simp only [Effect.apply_live hrun] at hlive
  by_cases hid : id = self
  · subst hid
    simp only [Function.update_self] at hh
    cases hc with
    | keep holds => exact h id ⟨holds ▸ hh, hself⟩
    | told hpc ho =>
      refine ⟨?_, ho⟩
      -- an owner other than 0 has the mutex locked, and the idle task read it so
      by_contra hl
      have hfree : w.obj.locked = false := by simpa using hl
      obtain rfl : id = 0 := by rw [← ho]; exact (hi.free hfree).1
      simp [IdleReadsLocked, misreadsOwner, hpc, hfree] at hok
    | park p hpc holds => exact h id ⟨holds ▸ hh, hself⟩
    | take => exact ⟨rfl, rfl⟩
    | unlock => simp [MutexLoc.unlocked] at hh
  · simp only [Function.update_of_ne hid] at hh
    obtain ⟨hl, ho⟩ := h id ⟨hh, hlive⟩
    cases hc with
    | keep => exact ⟨hl, ho⟩
    | told => exact ⟨hl, ho⟩
    | park => exact ⟨hl, ho⟩
    | take hfree => simp [hl] at hfree
    | unlock _ _ ho' => exact absurd (ho.symm.trans ho') hid

theorem holdersOwn_next {w w' : MutexWorld} {e : MutexEvent} (hi : MutexInv w.obj) (h : HoldersOwn w)
    (hok : IdleReadsLocked w e) (hn : mutexSystem.next w e = some w') : HoldersOwn w' := by
  rcases Code.next_cases hn with ⟨id, c, l, -, -, hs, rfl⟩ | ⟨id, o, l, eff, rfl, hrun, hs, rfl⟩ |
    ⟨id, -, rfl⟩ | ⟨id, -, rfl⟩ | ⟨-, rfl⟩
  · rintro i ⟨hh, hlive⟩
    refine h i ⟨?_, hlive⟩
    by_cases hi' : i = id
    · subst hi'
      simp only [Function.update_self] at hh
      rwa [(mutexStart_cases hs).1] at hh
    · simpa only [Function.update_of_ne hi'] using hh
  · exact holdersOwn_step hi h hok hrun (mutexStep_change hs)
  · rintro i ⟨hh, hlive⟩
    exact h i ⟨hh, by simpa using hlive⟩
  · rintro i ⟨hh, hlive⟩
    refine h i ⟨hh, ?_⟩
    simp only [Tasks.kill_live] at hlive
    split_ifs at hlive with hk
    exact hlive
  · rintro i ⟨hh, hlive⟩
    by_cases hnew : i = w.tasks.nextId
    · subst hnew
      simp [mutexCode] at hh
    · simp only [Function.update_of_ne hnew] at hh
      simp only [Tasks.create_live, if_neg hnew] at hlive
      exact h i ⟨hh, hlive⟩

theorem holdersOwn {w : MutexWorld} (h : mutexSystem.ReachableIf IdleReadsLocked w) : HoldersOwn w := by
  refine h.invariantFrom (J := fun w => MutexInv w.obj) (fun _ => mutex_inv) ?_ fun _ _ _ => holdersOwn_next
  rintro w ⟨-, rfl, rfl⟩ id ⟨hh, -⟩
  cases hh

/-- At most one live task holds the mutex, and `Locked` and `Owner` say so. -/
def Exclusive (w : MutexWorld) : Prop :=
  (∀ i j, Holder w i → Holder w j → i = j) ∧ ∀ i, Holder w i → w.obj.locked = true ∧ w.obj.owner = i

theorem HoldersOwn.exclusive {w : MutexWorld} (h : HoldersOwn w) : Exclusive w :=
  ⟨fun i j hi hj => (h i hi).2.symm.trans (h j hj).2, h⟩

theorem not_exclusive_next {w w' : MutexWorld} {e : MutexEvent} (hi : MutexInv w.obj)
    (hbad : ¬ IdleReadsLocked w e) (hn : mutexSystem.next w e = some w') : ¬ Exclusive w' := by
  rcases Code.next_cases hn with ⟨_, _, _, rfl, -⟩ | ⟨id, o, l, eff, rfl, hrun, hs, rfl⟩ | ⟨_, rfl, -⟩ |
    ⟨_, rfl, -⟩ | ⟨rfl, -⟩
  · exact absurd rfl hbad
  · obtain ⟨rfl, hpc, hfree⟩ : id = 0 ∧ (w.loc 0).pc = .busyOwner ∧ w.obj.locked = false := by
      simpa [IdleReadsLocked, misreadsOwner] using hbad
    simp only [mutexCode, mutexStep, hpc, (hi.free hfree).1, if_true] at hs
    cases hs
    intro hex
    have hlock := (hex.2 0 ⟨by simp [MutexLoc.retLock], by simp [Effect.apply, Tasks.live, hrun]⟩).1
    rw [show w.obj.locked = true from hlock] at hfree
    cases hfree
  · exact absurd rfl hbad
  · exact absurd rfl hbad
  · exact absurd rfl hbad

/-- As long as the idle task does not misread the owner, at most one live task holds
the mutex, and `Locked` and `Owner` say so. The next step keeps this exactly if it is
not such a misread. -/
theorem mutual_exclusion {w : MutexWorld} (h : mutexSystem.ReachableIf IdleReadsLocked w) :
    Exclusive w ∧ ∀ e w', mutexSystem.next w e = some w' → (Exclusive w' ↔ IdleReadsLocked w e) := by
  refine ⟨(holdersOwn h).exclusive, fun e w' hn => ⟨fun hex => ?_, fun hok => ?_⟩⟩
  · by_contra hbad
    exact not_exclusive_next (mutex_inv h) hbad hn hex
  · exact (holdersOwn_next (mutex_inv h) (holdersOwn h) hok hn).exclusive

/-- Task 1 hands the mutex it holds to nobody, task 2 takes it. -/
theorem mutual_exclusion_retaken :
    ∃ w, mutexSystem.ReachableIf IdleReadsLocked w ∧ Holder w 2 ∧ ∀ i, Holder w i → i = 2 := by
  obtain ⟨w, -, hw, hp⟩ := System.exists_reachableIf (S := mutexSystem) IdleReadsLocked mutex_boot
    [.create, .create, tryLockCall 1, .step 1, unlockCall 1, .step 1, lockCall 2, .step 2, .step 2]
    (fun w => Holder w 2) (by decide +kernel)
  have h2 : Holder w 2 := of_decide_eq_true hp
  exact ⟨w, hw, h2, fun i hi => (mutual_exclusion hw).1.1 i 2 hi h2⟩

/-- The idle task is preempted between its two reads while task 1 opens the mutex;
its `MutexLock` returns `IpcOk`, and task 1 takes the mutex again. -/
theorem mutual_exclusion_idle_misreads :
    ∃ w, mutexSystem.runIf (fun _ _ => True) (mutexCode.boot mutexInit)
        [.create, tryLockCall 1, .step 1, lockCall 0, .step 0, .step 0, .step 0, .step 0,
          unlockCall 1, .step 1, .step 0, tryLockCall 1, .step 1] = some w ∧ mutexSystem.Reachable w ∧
      Holder w 0 ∧ Holder w 1 ∧ ¬ Exclusive w := by
  obtain ⟨w, hrun, hw, hp⟩ := System.exists_reachableIf (S := mutexSystem) (fun _ _ => True) mutex_boot
    [.create, tryLockCall 1, .step 1, lockCall 0, .step 0, .step 0, .step 0, .step 0,
      unlockCall 1, .step 1, .step 0, tryLockCall 1, .step 1]
    (fun w => Holder w 0 ∧ Holder w 1) (by decide +kernel)
  obtain ⟨h0, h1⟩ := of_decide_eq_true hp
  exact ⟨w, hrun, hw, h0, h1, fun hex => absurd (hex.1 0 1 h0 h1) (by decide)⟩

end Novium.Ipc
