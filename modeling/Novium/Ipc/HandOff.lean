import Novium.Ipc.MutexSafety
import Novium.Ipc.Parking

/-! Passing the mutex on. A waiter that `MutexUnlock` made the owner looks at `Locked`
alone when it wakes, finds the mutex taken and sleeps again, on a mutex that nobody
but itself may open. -/

namespace Novium.Ipc

open Novium.Lib

/-- A `MutexUnlock` of the owner finds a live task in the queue and passes the mutex
to it. -/
def handsOff (w : MutexWorld) : MutexEvent → Bool
  | .step id => (w.loc id).pc = .unlock && w.obj.locked && w.obj.owner = id &&
      (List.range w.obj.wait.count).any fun i => ipcWaitIsLive w.tasks.live (w.obj.wait.ids i)
  | _ => false

def NoHandOff (w : MutexWorld) (e : MutexEvent) : Prop := handsOff w e = false

instance (w : MutexWorld) (e : MutexEvent) : Decidable (NoHandOff w e) :=
  inferInstanceAs (Decidable (_ = _))

def Parked (w : MutexWorld) (id : ℕ) : Prop :=
  id ∈ w.obj.wait ∧ w.tasks.run id = .blocked ∧ ∃ p, (w.loc id).pc = .park p

/-- A task sleeps in `IpcPark` on a mutex it owns. -/
def OwnerParked (w : MutexWorld) : Prop := ∃ id, Parked w id ∧ w.obj.locked = true ∧ w.obj.owner = id

/-- The owner is not in the waiting loop of `MutexLock`. -/
def OwnerServed (w : MutexWorld) : Prop := w.obj.locked = true → (w.loc w.obj.owner).pc.waits = false

theorem unlock_opens {w : MutexWorld} {self nxt : ℕ} {q : IpcWait} (hi : MutexInv w.obj)
    (hok : NoHandOff w (.step self)) (hpc : (w.loc self).pc = .unlock) (hl : w.obj.locked = true)
    (ho : w.obj.owner = self) (ht : ipcWaitTakeLive w.tasks.live w.obj.wait = some (q, nxt)) : nxt = 0 := by
  obtain ⟨-, ⟨h0, ⟨i, hi', hx⟩, hlive, -⟩ | ⟨h0, -⟩⟩ := ipcWaitTakeLive_cases hi.wait ht
  · exfalso
    simp only [NoHandOff, handsOff, hpc, hl, ho, decide_true, Bool.and_self, Bool.true_and] at hok
    have := List.any_eq_false.mp hok i (List.mem_range.mpr hi')
    simp [ipcWaitIsLive, hx, h0, hlive] at this
  · exact h0

theorem ownerServed_step {w : MutexWorld} {self : ℕ} {m' : IpcMutex} {l' : MutexLoc} {eff : Effect}
    (hi : MutexInv w.obj) (h : OwnerServed w) (hok : NoHandOff w (.step self))
    (hc : MutexChange w.tasks.live self w.obj (w.loc self) m' l') :
    OwnerServed ⟨m', eff.apply self w.tasks, Function.update w.loc self l'⟩ := by
  intro hl
  cases hc with
  | keep _ hw =>
    by_cases ho : w.obj.owner = self
    · simp only [ho, Function.update_self]
      by_contra hwaits
      rcases hw (by simpa using hwaits) with hw | hw | hw
      · have := h hl
        rw [ho, hw] at this
        cases this
      · simp [show w.obj.locked = true from hl] at hw
      · exact hw ho
    · simp only [Function.update_of_ne ho]
      exact h hl
  | told hpc ho =>
    have := h hl
    rw [ho, hpc] at this
    cases this
  | park p hpc =>
    by_cases ho : w.obj.owner = self
    · have := h hl
      rw [ho, hpc] at this
      cases this
    · simp only [Function.update_of_ne ho]
      exact h hl
  | take => simp [MutexLoc.retLock, MutexPc.waits]
  | unlock hpc hlock ho ht =>
    have h0 := unlock_opens hi hok hpc hlock ho ht
    simp [IpcMutex.passTo, h0] at hl

theorem ownerServed_next {w w' : MutexWorld} {e : MutexEvent} (hi : MutexInv w.obj) (h : OwnerServed w)
    (hok : NoHandOff w e) (hn : mutexSystem.next w e = some w') : OwnerServed w' := by
  have hmove : ∀ id l, l.pc.waits = false → OwnerServed { w with loc := Function.update w.loc id l } := by
    intro id l hl hlock
    simp only [Function.update_apply]
    split_ifs
    · exact hl
    · exact h hlock
  rcases Code.next_cases hn with ⟨id, c, l, -, -, hs, rfl⟩ | ⟨id, o, l, eff, rfl, hrun, hs, rfl⟩ |
    ⟨id, -, rfl⟩ | ⟨id, -, rfl⟩ | ⟨-, rfl⟩
  · exact hmove id l (mutexStart_cases hs).2.1
  · exact ownerServed_step hi h hok (mutexStep_change hs)
  · exact h
  · exact h
  · exact hmove _ _ rfl

/-- Whoever is in the queue stands behind the `SchedBlock` of `IpcPark`. -/
def Queued (w : MutexWorld) : Prop := ∀ id ∈ w.obj.wait, (w.loc id).pc = .park .woken

section

variable {live : ℕ → Bool} {self : ℕ} {m m' : IpcMutex} {l l' : MutexLoc}

theorem mutexStep_woken (hpc : l.pc = .park .woken) : mutexStep live self m l =
    some ({ m with wait := ipcWaitRemove m.wait self }, l.goto (.park .check), .stay) := by
  simp [mutexStep, hpc, ipcPark]

theorem mutexStep_check {q : IpcWait} (hpc : l.pc = .park .check) (h0 : self ≠ 0) (hl : m.locked = true)
    (hadd : ipcWaitAdd m.wait self = some q) :
    mutexStep live self m l = some ({ m with wait := q }, l.goto (.park .woken), .block) := by
  simp [mutexStep, hpc, ipcPark, h0, mutexIsFree, hl, hadd]

theorem mutexStep_unlock {q : IpcWait} {nxt : ℕ} (hpc : l.pc = .unlock) (hl : m.locked = true)
    (ho : m.owner = self) (ht : ipcWaitTakeLive live m.wait = some (q, nxt)) :
    mutexStep live self m l = some (m.passTo q nxt, l.unlocked .ok nxt, .stay) := by
  simp [mutexStep, hpc, mutexUnlock, hl, ho, ht]

theorem mutexStep_unlockWake {nxt : ℕ} (hpc : l.pc = .unlockWake nxt) :
    mutexStep live self m l = some (m, l.ret .ok, .wake nxt) := by
  simp [mutexStep, hpc]

end

/-- The queue of the mutex, and the place behind the `SchedBlock` of `MutexLock`. -/
def mutexView : QueueView IpcMutex MutexLoc := ⟨IpcMutex.wait, fun l => l.pc = .park .woken⟩

theorem passTo_wait (m : IpcMutex) (q : IpcWait) (nxt : ℕ) : (m.passTo q nxt).wait = q := by
  unfold IpcMutex.passTo
  split_ifs <;> rfl

theorem mutexView_step {live : ℕ → Bool} {self : ℕ} {m m' : IpcMutex} {l l' : MutexLoc} {eff : Effect}
    (h : mutexStep live self m l = some (m', l', eff)) :
    QueueStep live self m.wait (mutexView.asleep l) m'.wait (mutexView.asleep l') := by
  by_cases hp : ∃ p, l.pc = .park p
  · obtain ⟨p, hpc⟩ := hp
    have hpark := queueStep_park live self (mutexIsFree m) m.wait p
    simp only [mutexStep, hpc] at h
    split at h
    all_goals
      rename_i he
      rw [he] at hpark
      cases h
      simpa [mutexView, hpc, MutexLoc.goto, MutexLoc.ret] using hpark
  · have hup : mutexView.asleep l = false := decide_eq_false fun hpc => hp ⟨.woken, hpc⟩
    rw [hup]
    cases mutexStep_change h with
    | keep | told | take => exact .same
    | park p hpc => exact absurd ⟨p, hpc⟩ hp
    | unlock _ _ _ htake =>
      rw [passTo_wait]
      exact .pick htake

theorem mutexView_lawful : mutexView.Lawful mutexCode fun _ _ => True where
  rest := rfl
  start {c l l'} h := by
    have hout := (mutexStart_cases h).2.2
    refine decide_eq_false fun hpc => ?_
    rw [hpc] at hout
    cases hout
  step _ h := mutexView_step h

theorem mutex_seated {ok : MutexWorld → MutexEvent → Prop} {w : MutexWorld} (h : mutexSystem.ReachableIf ok w) :
    mutexView.Seated w := by
  refine QueueView.seated mutexView_lawful ?_ (fun _ _ _ => trivial) h
  rintro o rfl
  rfl

theorem queued {ok : MutexWorld → MutexEvent → Prop} {w : MutexWorld} (h : mutexSystem.ReachableIf ok w) :
    Queued w :=
  fun id hin => of_decide_eq_true ((mutex_seated h).asleep id hin)

theorem next_step {w : MutexWorld} {id : ℕ} {o : IpcMutex} {l : MutexLoc} {eff : Effect}
    (hrun : w.tasks.run id = .runnable) (hs : mutexStep w.tasks.live id w.obj (w.loc id) = some (o, l, eff)) :
    mutexSystem.next w (.step id) = some ⟨o, eff.apply id w.tasks, Function.update w.loc id l⟩ := by
  have hs' : mutexCode.step w.tasks.live id w.obj (w.loc id) = some (o, l, eff) := hs
  simp [mutexSystem, Code.system, Code.next, hrun, hs']

theorem runnable_of_next {w w' : MutexWorld} {id : ℕ} (hn : mutexSystem.next w (.step id) = some w') :
    w.tasks.run id = .runnable := by
  by_contra hrun
  simp [mutexSystem, Code.system, Code.next, hrun] at hn

section

variable {w : MutexWorld} {id : ℕ}

theorem checking_owner_parks (hwf : WellFormed w.obj.wait) (hroom : w.obj.wait.count < ipcMaxWaiters)
    (h0 : id ≠ 0) (hl : w.obj.locked = true) (ho : w.obj.owner = id) (hrun : w.tasks.run id = .runnable)
    (hpc : (w.loc id).pc = .park .check) : ∃ w', mutexSystem.next w (.step id) = some w' ∧ OwnerParked w' := by
  obtain ⟨q, hadd⟩ := ipcWaitAdd_room id hroom
  have hmem : id ∈ q := ((ipcWaitAdd_spec hwf h0 hadd).2 id).mpr (Or.inr rfl)
  refine ⟨_, next_step hrun (mutexStep_check hpc h0 hl hadd), id, ⟨hmem, ?_, .woken, ?_⟩, hl, ho⟩
  · simp [Effect.apply]
  · simp [MutexLoc.goto]

theorem woken_owner_parks (hwf : WellFormed w.obj.wait) (hroom : w.obj.wait.count < ipcMaxWaiters)
    (h0 : id ≠ 0) (hl : w.obj.locked = true) (ho : w.obj.owner = id) (hrun : w.tasks.run id = .runnable)
    (hpc : (w.loc id).pc = .park .woken) :
    ∃ w', mutexSystem.Leads (fun _ _ => True) w w' ∧ OwnerParked w' := by
  have hle := ipcWaitRemove_count_le w.obj.wait id
  obtain ⟨w', hn, hparked⟩ := checking_owner_parks
    (w := ⟨{ w.obj with wait := ipcWaitRemove w.obj.wait id }, w.tasks,
      Function.update w.loc id ((w.loc id).goto (.park .check))⟩)
    (ipcWaitRemove_spec hwf id).1 (Nat.lt_of_le_of_lt hle hroom) h0 hl ho hrun (by simp [MutexLoc.goto])
  exact ⟨w', .tail (.tail .refl trivial (next_step hrun (mutexStep_woken hpc))) trivial hn, hparked⟩

theorem named_owner_parks {self : ℕ} (hwf : WellFormed w.obj.wait) (hroom : w.obj.wait.count < ipcMaxWaiters)
    (h0 : id ≠ 0) (hl : w.obj.locked = true) (ho : w.obj.owner = id) (hlive : w.tasks.live id = true)
    (hpc : (w.loc id).pc = .park .woken) (hself : w.tasks.run self = .runnable)
    (hwake : (w.loc self).pc = .unlockWake id) :
    ∃ w', mutexSystem.Leads (fun _ _ => True) w w' ∧ OwnerParked w' := by
  have hne : id ≠ self := by
    rintro rfl
    rw [hpc] at hwake
    cases hwake
  have hrun : (w.tasks.wake id).run id = .runnable := by
    rw [Tasks.wake_run]
    cases hr : w.tasks.run id with
    | gone => simp [Tasks.live, hr] at hlive
    | runnable => simp
    | blocked => simp
  obtain ⟨w', hleads, hparked⟩ := woken_owner_parks
    (w := ⟨w.obj, w.tasks.wake id, Function.update w.loc self ((w.loc self).ret .ok)⟩) hwf hroom h0 hl ho hrun
    (by simpa only [Function.update_of_ne hne] using hpc)
  exact ⟨w', .trans (.tail .refl trivial (next_step hself (mutexStep_unlockWake hwake))) hleads, hparked⟩

end

theorem handsOff_cases {w : MutexWorld} {e : MutexEvent} (hi : MutexInv w.obj) (h : handsOff w e = true) :
    ∃ self q nxt, e = .step self ∧ (w.loc self).pc = .unlock ∧ w.obj.locked = true ∧ w.obj.owner = self ∧
      ipcWaitTakeLive w.tasks.live w.obj.wait = some (q, nxt) ∧ nxt ≠ 0 ∧ nxt ∈ w.obj.wait ∧
      w.tasks.live nxt = true ∧ WellFormed q ∧ q.count < ipcMaxWaiters := by
  cases e with
  | step self =>
    simp only [handsOff, Bool.and_eq_true, decide_eq_true_eq, List.any_eq_true, List.mem_range] at h
    obtain ⟨⟨⟨hpc, hl⟩, ho⟩, i, hi', hlive⟩ := h
    obtain ⟨q, nxt, ht, hwf, hcase⟩ := ipcWaitTakeLive_spec w.tasks.live hi.wait
    have hbound := hi.wait.bound
    rcases hcase with ⟨h0, hmem, hnxt, hcount, -⟩ | ⟨-, -, hdead⟩
    · exact ⟨self, q, nxt, rfl, hpc, hl, ho, ht, h0, hmem, hnxt, hwf, by omega⟩
    · simp [ipcWaitIsLive, hdead _ ⟨i, hi', rfl⟩] at hlive
  | call => cases h
  | undo => cases h
  | kill => cases h
  | create => cases h

/-- Whatever state it is made in, a hand-off can be followed by the new owner falling
asleep on its own mutex. -/
theorem handOff_strands {w w' : MutexWorld} {e : MutexEvent} (hi : MutexInv w.obj) (hq : Queued w)
    (hoff : handsOff w e = true) (hn : mutexSystem.next w e = some w') :
    ∃ w'', mutexSystem.Leads (fun _ _ => True) w' w'' ∧ OwnerParked w'' := by
  obtain ⟨self, q, nxt, rfl, hpc, hl, ho, ht, h0, hmem, hlive, hwf, hroom⟩ := handsOff_cases hi hoff
  have hwoken := hq nxt hmem
  have hne : nxt ≠ self := by
    rintro rfl
    rw [hpc] at hwoken
    cases hwoken
  have hself := runnable_of_next hn
  have hunlock := next_step hself (mutexStep_unlock hpc hl ho ht)
  rw [hn, Option.some.injEq] at hunlock
  rw [show w.obj.passTo q nxt = { w.obj with owner := nxt, wait := q } from if_pos h0] at hunlock
  subst hunlock
  refine named_owner_parks hwf hroom h0 hl rfl hlive ?_ hself ?_
  · simpa only [Function.update_of_ne hne] using hwoken
  · simp [MutexLoc.unlocked, h0]

/-- As long as no unlock hands the mutex to a waiter, no task sleeps in `IpcPark` on a
mutex it owns. The next hand-off opens a way to such a state. -/
theorem owner_not_parked {w : MutexWorld} (h : mutexSystem.ReachableIf NoHandOff w) :
    ¬ OwnerParked w ∧ ∀ e w', mutexSystem.next w e = some w' → handsOff w e = true →
      ∃ w'', mutexSystem.Leads (fun _ _ => True) w' w'' ∧ OwnerParked w'' := by
  have hs : OwnerServed w := by
    refine h.invariantFrom (J := fun w => MutexInv w.obj) (fun _ => mutex_inv) ?_ fun _ _ _ => ownerServed_next
    rintro w ⟨-, rfl, rfl⟩ hl
    cases hl
  refine ⟨?_, fun e w' hn hoff => handOff_strands (mutex_inv h) (queued h) hoff hn⟩
  rintro ⟨id, ⟨-, -, p, hpc⟩, hl, rfl⟩
  have hserved := hs hl
  rw [hpc] at hserved
  cases hserved

/-- Task 2 sleeps for the mutex that task 1 owns and is about to unlock. -/
theorem owner_not_parked_waiter :
    ∃ w, mutexSystem.ReachableIf NoHandOff w ∧ w.tasks.run 2 = .blocked ∧ w.obj.locked = true ∧
      ¬ OwnerParked w ∧ ∃ w' w'', mutexSystem.next w (.step 1) = some w' ∧
        mutexSystem.Leads (fun _ _ => True) w' w'' ∧ OwnerParked w'' := by
  obtain ⟨w, -, hw, hp⟩ := System.exists_reachableIf (S := mutexSystem) NoHandOff mutex_boot
    (oneParked ++ [unlockCall 1])
    (fun w => w.tasks.run 2 = .blocked ∧ w.obj.locked = true ∧ handsOff w (.step 1) = true ∧
      (mutexSystem.next w (.step 1)).isSome) (by decide +kernel)
  obtain ⟨hb, hl, hoff, hsome⟩ := of_decide_eq_true hp
  obtain ⟨w', hn⟩ := Option.isSome_iff_exists.mp hsome
  obtain ⟨hnot, hnext⟩ := owner_not_parked hw
  obtain ⟨w'', hleads, hparked⟩ := hnext _ w' hn hoff
  exact ⟨w, hw, hb, hl, hnot, w', w'', hn, hleads, hparked⟩

/-- Task 1 unlocks and hands the mutex to task 2, which wakes, finds the mutex locked
by itself and sleeps again. -/
theorem handed_owner_parks :
    ∃ w, mutexSystem.runIf (fun _ _ => True) (mutexCode.boot mutexInit)
        (oneParked ++ [unlockCall 1, .step 1, .step 1, .step 2, .step 2]) = some w ∧
      mutexSystem.Reachable w ∧ OwnerParked w := by
  obtain ⟨w, hrun, hw, hp⟩ := System.exists_reachableIf (S := mutexSystem) (fun _ _ => True) mutex_boot
    (oneParked ++ [unlockCall 1, .step 1, .step 1, .step 2, .step 2])
    (fun w => (w.obj.wait.count = 1 ∧ w.obj.wait.ids 0 = 2) ∧ w.tasks.run 2 = .blocked ∧
      (w.loc 2).pc = .park .woken ∧ w.obj.locked = true ∧ w.obj.owner = 2) (by decide +kernel)
  obtain ⟨⟨hc, hid⟩, hb, hpc, hl, ho⟩ := of_decide_eq_true hp
  exact ⟨w, hrun, hw, 2, ⟨⟨0, by omega, hid⟩, hb, _, hpc⟩, hl, ho⟩

end Novium.Ipc
