import Novium.Ipc.Stranded
import Mathlib.Data.List.Nodup
import Mathlib.Data.List.Perm.Subperm

/-! The mutex test of `init/main.c`: two tasks that run `ipc_lock_task` count up `LockRounds` under one mutex, until
`ipc_test_tasks` sets `LockStop`. Any interleaving, with the read, the write and the comparison of `LockRounds` as steps
of their own. -/

namespace Novium.Selftest

open Novium.Lib Novium.Ipc

/-- Where `ipc_lock_task` stands, with its local `Seen`. -/
inductive LockPc where
  /-- `while (!LockStop)` -/
  | loop
  | locking
  /-- `Seen = LockRounds` -/
  | read
  /-- `LockRounds = Seen + 1` -/
  | write (seen : ℕ)
  /-- `LockRounds != Seen + 1` -/
  | compare (seen : ℕ)
  /-- about to call `MutexUnlock` -/
  | unlock
  | unlocking
  | finished
  deriving DecidableEq, Repr

structure LockTest where
  world : MutexWorld
  tasks : List ℕ
  pc : ℕ → LockPc
  lockRounds : ℕ
  lockStop : Bool
  lockBad : ℕ
  /-- How often a task has written `LockRounds`. -/
  writes : ℕ

inductive LockEvent where
  | create
  | stop
  | task (id : ℕ)
  | undo (id : ℕ)
  deriving DecidableEq, Repr

def LockTest.goto (r : LockTest) (id : ℕ) (pc : LockPc) : LockTest := { r with pc := Function.update r.pc id pc }

def LockTest.within (r : LockTest) (e : MutexEvent) : Option LockTest :=
  (mutexCode.next r.world e).map fun w => { r with world := w }

def lockTaskStep (id : ℕ) (r : LockTest) : Option LockTest :=
  match r.pc id with
  | .loop => if r.lockStop then some (r.goto id .finished) else (r.goto id .locking).within (lockCall id)
  | .locking =>
    match (r.world.loc id).pc with
    | .out st =>
      if st ≠ some .ok then some { r.goto id .finished with lockBad := u32 (r.lockBad + 1) } else some (r.goto id .read)
    | _ => r.within (.step id)
  | .read => some (r.goto id (.write r.lockRounds))
  | .write seen => some { r.goto id (.compare seen) with lockRounds := u32 (seen + 1), writes := r.writes + 1 }
  | .compare seen =>
    some { r.goto id .unlock with lockBad := if r.lockRounds ≠ u32 (seen + 1) then u32 (r.lockBad + 1) else r.lockBad }
  | .unlock => (r.goto id .unlocking).within (unlockCall id)
  | .unlocking =>
    match (r.world.loc id).pc with
    | .out _ => some (r.goto id .loop)
    | _ => r.within (.step id)
  | .finished => none

/-- `ipc_test_tasks` creates two tasks and sets `LockStop` at any time after. Blocks may be undone by the scheduler. -/
def lockTest : System LockTest LockEvent where
  init r := r = ⟨mutexCode.boot mutexInit, [], fun _ => .loop, 0, false, 0, 0⟩
  next r
    | .create => if r.tasks.length < 2 then
        { r with tasks := r.tasks ++ [r.world.tasks.nextId] }.within .create
      else none
    | .stop => if r.tasks.length = 2 then some { r with lockStop := true } else none
    | .task id => if id ∈ r.tasks ∧ r.world.tasks.run id = .runnable then lockTaskStep id r else none
    | .undo id => r.within (.undo id)

def entry : MutexOp → MutexPc
  | .lock => .selfLocked
  | .tryLock => .tryLock
  | .unlock => .unlock

/-- Where the task stands in the mutex code, and whether it holds the mutex. -/
def LockPc.Fits (pc : LockPc) (l : MutexLoc) : Prop :=
  match pc with
  | .loop | .finished => l.holds = false ∧ ∃ st, l.pc = .out st
  | .locking => (l.holds = false ∧ l.pc.locking = true) ∨ (l.holds = true ∧ l.pc = .out (some .ok))
  | .read | .write _ | .compare _ | .unlock => l.holds = true ∧ ∃ st, l.pc = .out st
  | .unlocking => (l.holds = true ∧ l.pc = .unlock) ∨
      (l.holds = false ∧ (l.pc = .out (some .ok) ∨ ∃ nxt, l.pc = .unlockWake nxt))

/-- What a task has seen of `LockRounds` is still so. -/
def LockPc.Sees (pc : LockPc) (lockRounds : ℕ) : Prop :=
  match pc with
  | .write seen => seen = lockRounds
  | .compare seen => lockRounds = u32 (seen + 1)
  | _ => True

structure LockSound (r : LockTest) : Prop where
  world : mutexSystem.ReachableIf IdleReadsLocked r.world
  few : r.tasks.length ≤ 2
  alive : ∀ i ∈ r.tasks, i ≠ 0 ∧ r.world.tasks.live i = true
  rest : ∀ i, i ∉ r.tasks → r.world.loc i = ⟨.out none, false⟩ ∧ r.pc i = .loop
  fits : ∀ i, (r.pc i).Fits (r.world.loc i)
  sees : ∀ i, (r.pc i).Sees r.lockRounds
  owned : Owned r.world
  bad : r.lockBad = 0
  rounds : r.lockRounds = u32 r.writes

section

variable {r r' : LockTest}

theorem LockSound.init (h : lockTest.init r) : LockSound r := by
  obtain rfl := h
  exact ⟨.init ⟨_, rfl, rfl⟩, by simp, by simp, fun _ _ => ⟨rfl, rfl⟩, fun _ => ⟨rfl, none, rfl⟩, fun _ => trivial,
    (fun h => by cases h), rfl, rfl⟩

theorem LockSound.room (h : LockSound r) : r.world.obj.wait.count < ipcMaxWaiters := by
  have hwf : WellFormed r.world.obj.wait := (mutex_inv h.world).wait
  have hsub : ((List.range r.world.obj.wait.count).map r.world.obj.wait.ids) ⊆ r.tasks := by
    intro x hx
    obtain ⟨i, hi, rfl⟩ := List.mem_map.mp hx
    by_contra hout
    have hpc := queued h.world _ ⟨i, List.mem_range.mp hi, rfl⟩
    rw [(h.rest _ hout).1] at hpc
    cases hpc
  have hnodup : ((List.range r.world.obj.wait.count).map r.world.obj.wait.ids).Nodup := by
    refine (List.nodup_map_iff_inj_on List.nodup_range).mpr fun i hi j hj he => ?_
    exact hwf.distinct i (List.mem_range.mp hi) j (List.mem_range.mp hj) he
  have hlen := (List.subperm_of_subset hnodup hsub).length_le
  rw [List.length_map, List.length_range] at hlen
  have hfew := h.few
  have h16 : ipcMaxWaiters = 16 := rfl
  omega

theorem LockSound.goes (h : LockSound r) {id : ℕ} (hid : id ∈ r.tasks) {w : MutexWorld} {pc : LockPc} {n k : ℕ}
    (hw : mutexSystem.ReachableIf IdleReadsLocked w) (halive : ∀ i, r.world.tasks.live i = true → w.tasks.live i = true)
    (hloc : ∀ i, i ≠ id → w.loc i = r.world.loc i) (howned : Owned w) (hfits : pc.Fits (w.loc id))
    (hothers : ∀ i, i ≠ id → (r.pc i).Sees n) (hsees : pc.Sees n) (hrounds : n = u32 k) :
    LockSound { r with world := w, pc := Function.update r.pc id pc, lockRounds := n, writes := k } where
  world := hw
  few := h.few
  alive i hi := (h.alive i hi).imp_right (halive i)
  rest i hi := by
    have hne : i ≠ id := fun e => hi (e ▸ hid)
    simp only [hloc i hne, Function.update_of_ne hne]
    exact h.rest i hi
  fits i := by
    by_cases hi : i = id
    · subst hi
      simpa only [Function.update_self] using hfits
    · simp only [hloc i hi, Function.update_of_ne hi]
      exact h.fits i
  sees i := by
    by_cases hi : i = id
    · subst hi
      simpa only [Function.update_self] using hsees
    · simp only [Function.update_of_ne hi]
      exact hothers i hi
  owned := howned
  bad := h.bad
  rounds := hrounds

theorem LockSound.goto (h : LockSound r) {id : ℕ} (hid : id ∈ r.tasks) {pc : LockPc} (hfits : pc.Fits (r.world.loc id))
    (hsees : pc.Sees r.lockRounds) : LockSound (r.goto id pc) :=
  h.goes hid h.world (fun _ hi => hi) (fun _ _ => rfl) h.owned hfits (fun i _ => h.sees i) hsees h.rounds

theorem LockSound.calls (h : LockSound r) {id : ℕ} (hid : id ∈ r.tasks) {op : MutexOp} {pc : LockPc}
    (hout : ∃ st, (r.world.loc id).pc = .out st)
    (hn : (r.goto id pc).within (.call id ⟨op, false⟩) = some r')
    (hfits : ∀ l, l.holds = (r.world.loc id).holds →
      l.pc = entry op → pc.Fits l)
    (hsees : pc.Sees r.lockRounds) : LockSound r' := by
  obtain ⟨w, hw, rfl⟩ := Option.map_eq_some_iff.mp hn
  have hreach : mutexSystem.ReachableIf IdleReadsLocked w := h.world.step (e := .call id ⟨op, false⟩) rfl hw
  obtain ⟨_, c, l, he, -, hs, rfl⟩ | ⟨_, _, _, _, he, -⟩ | ⟨_, he, -⟩ | ⟨_, he, -⟩ | ⟨he, -⟩ := Code.next_cases hw
  · cases he
    have hl : l.holds = (r.world.loc id).holds ∧
        l.pc = entry op := by
      obtain ⟨st, hst⟩ := hout
      have hstart : mutexStart ⟨op, false⟩ (r.world.loc id) = some l := hs
      simp only [mutexStart, hst, Bool.false_eq_true, if_false] at hstart
      cases op <;> cases hstart <;> exact ⟨rfl, rfl⟩
    refine h.goes hid hreach (fun _ hi => hi) (fun i hi => Function.update_of_ne hi _ _) ?_ ?_ (fun i _ => h.sees i) hsees
      h.rounds
    · obtain ⟨st, hst⟩ := hout
      exact h.owned.quiet hl.1 (by rw [hst]; rfl) _
    · simpa only [Function.update_self] using hfits l hl.1 hl.2
  all_goals cases he

theorem LockSound.steps (h : LockSound r) {id : ℕ} (hid : id ∈ r.tasks) (hn : r.within (.step id) = some r')
    (hstep : ∀ m' l' eff, mutexStep r.world.tasks.live id r.world.obj (r.world.loc id) = some (m', l', eff) →
      (r.pc id).Fits l' ∧ Owned ⟨m', eff.apply id r.world.tasks, Function.update r.world.loc id l'⟩) :
    LockSound r' := by
  obtain ⟨w, hw, rfl⟩ := Option.map_eq_some_iff.mp hn
  have hidle : IdleReadsLocked r.world (.step id) := by
    simp [IdleReadsLocked, misreadsOwner, (h.alive id hid).1]
  have hreach : mutexSystem.ReachableIf IdleReadsLocked w := h.world.step hidle hw
  obtain ⟨o, l, eff, hrun, hs, rfl⟩ := Code.step_cases hw
  obtain ⟨hfits, howned⟩ := hstep o l eff hs
  have hgoes := h.goes hid hreach (fun i hi => by rwa [Effect.apply_live hrun])
    (fun i hi => Function.update_of_ne hi _ _) howned
    (by simpa only [Function.update_self] using hfits) (fun i _ => h.sees i) (h.sees id) h.rounds
  rwa [Function.update_eq_self] at hgoes

theorem LockSound.holder (h : LockSound r) {i : ℕ} (hheld : (r.world.loc i).holds = true) :
    i ∈ r.tasks ∧ r.world.obj.locked = true ∧ r.world.obj.owner = i := by
  have hi : i ∈ r.tasks := by
    by_contra hno
    rw [(h.rest i hno).1] at hheld
    cases hheld
  exact ⟨hi, holdersOwn h.world i ⟨hheld, (h.alive i hi).2⟩⟩

theorem LockSound.lock_steps (h : LockSound r) {id : ℕ} (hid : id ∈ r.tasks) (hpc : r.pc id = .locking)
    (hin : (r.world.loc id).holds = false ∧ (r.world.loc id).pc.locking = true) (hn : r.within (.step id) = some r') :
    LockSound r' := by
  refine h.steps hid hn fun m' l' eff hs => ?_
  have howner : (r.world.loc id).pc = .selfOwner → r.world.obj.owner ≠ id := by
    intro hself ho
    have hl : r.world.obj.locked = true := by
      by_contra hfree
      have h0 := ((mutex_inv h.world).free (by simpa using hfree)).1
      exact (h.alive id hid).1 (ho.symm.trans h0)
    have hown := h.owned hl
    rw [ho, hin.1, hself] at hown
    obtain hno | hno := hown <;> cases hno
  have hstays := lock_step hs hin.2 (h.alive id hid).1 howner h.room
  refine ⟨?_, owned_lock h.owned hs hin.2 hin.1 hstays⟩
  rw [hpc]
  exact hstays.imp (fun hst => ⟨hst.1.trans hin.1, hst.2.1⟩) fun hst => ⟨hst.2, hst.1⟩

theorem LockSound.unlock_steps (h : LockSound r) {id : ℕ} (hid : id ∈ r.tasks) (hpc : r.pc id = .unlocking)
    (hout : ∀ st, (r.world.loc id).pc ≠ .out st) (hn : r.within (.step id) = some r') : LockSound r' := by
  refine h.steps hid hn fun m' l' eff hs => ?_
  have hfits := h.fits id
  rw [hpc] at hfits ⊢
  obtain ⟨hheld, hunlock⟩ | ⟨hheld, hno | ⟨nxt, hwake⟩⟩ := hfits
  · obtain ⟨-, hl, ho⟩ := h.holder hheld
    exact ⟨.inr (unlock_step hs hunlock hl ho),
      owned_unlock (mutex_inv h.world).wait (queued h.world) hs hunlock hheld hl ho⟩
  · exact absurd hno (hout _)
  · rw [mutexStep_unlockWake hwake] at hs
    cases hs
    have hholds : ((r.world.loc id).ret .ok).holds = (r.world.loc id).holds := rfl
    exact ⟨.inr ⟨hheld, .inl rfl⟩, h.owned.quiet hholds (by rw [hwake]; rfl) _⟩

/-- While one task is between its read and its comparison, the other is not. -/
theorem LockSound.others_see (h : LockSound r) {id : ℕ} (hheld : (r.world.loc id).holds = true) {i : ℕ} (hi : i ≠ id)
    (n : ℕ) : (r.pc i).Sees n := by
  have hfits := h.fits i
  cases hpc : r.pc i with
  | loop | locking | read | unlock | unlocking | finished => trivial
  | write seen | compare seen =>
    rw [hpc] at hfits
    exact absurd ((h.holder hfits.1).2.2.symm.trans (h.holder hheld).2.2) hi

theorem LockSound.task (h : LockSound r) {id : ℕ} (hid : id ∈ r.tasks) (hn : lockTaskStep id r = some r') :
    LockSound r' := by
  have hfits := h.fits id
  have hsees := h.sees id
  unfold lockTaskStep at hn
  cases hpc : r.pc id with
  | loop =>
    rw [hpc] at hfits
    simp only [hpc] at hn
    split_ifs at hn
    · obtain rfl := Option.some.inj hn
      exact h.goto hid hfits trivial
    · exact h.calls hid hfits.2 hn (fun l hheld hl => .inl ⟨hheld.trans hfits.1, by rw [hl]; rfl⟩) trivial
  | locking =>
    rw [hpc] at hfits
    simp only [hpc] at hn
    split at hn
    next st hout =>
      obtain ⟨hheld, rfl⟩ : (r.world.loc id).holds = true ∧ st = some .ok := by
        obtain ⟨-, hno⟩ | ⟨hheld, hok⟩ := hfits
        · rw [hout] at hno
          cases hno
        · rw [hout] at hok
          cases hok
          exact ⟨hheld, rfl⟩
      simp only [ne_eq, not_true, if_false, Option.some.injEq] at hn
      subst hn
      exact h.goto hid ⟨hheld, _, hout⟩ trivial
    next hin =>
      obtain hlocking | ⟨-, hno⟩ := hfits
      · exact h.lock_steps hid hpc hlocking hn
      · exact absurd hno (hin _)
  | read =>
    rw [hpc] at hfits
    simp only [hpc] at hn
    obtain rfl := Option.some.inj hn
    exact h.goto hid hfits rfl
  | write seen =>
    rw [hpc] at hfits hsees
    simp only [hpc] at hn
    obtain rfl := Option.some.inj hn
    obtain rfl : seen = r.lockRounds := hsees
    exact h.goes hid h.world (fun _ hi => hi) (fun _ _ => rfl) h.owned hfits
      (fun i hi => h.others_see hfits.1 hi _) rfl (by rw [h.rounds, u32_add])
  | compare seen =>
    rw [hpc] at hfits hsees
    simp only [hpc, ne_eq, show r.lockRounds = u32 (seen + 1) from hsees, not_true, if_false] at hn
    obtain rfl := Option.some.inj hn
    exact h.goto hid hfits trivial
  | unlock =>
    rw [hpc] at hfits
    simp only [hpc] at hn
    exact h.calls hid hfits.2 hn (fun l hheld hl => .inl ⟨hheld.trans hfits.1, hl⟩) trivial
  | unlocking =>
    rw [hpc] at hfits
    simp only [hpc] at hn
    split at hn
    next st hout =>
      obtain rfl := Option.some.inj hn
      obtain ⟨-, hno⟩ | ⟨hheld, -⟩ := hfits
      · rw [hout] at hno
        cases hno
      · exact h.goto hid ⟨hheld, _, hout⟩ trivial
    next hin => exact h.unlock_steps hid hpc hin hn
  | finished =>
    simp only [hpc] at hn
    cases hn

theorem LockSound.create (h : LockSound r) (hfew : r.tasks.length < 2)
    (hn : { r with tasks := r.tasks ++ [r.world.tasks.nextId] }.within .create = some r') : LockSound r' := by
  obtain ⟨w, hw, rfl⟩ := Option.map_eq_some_iff.mp hn
  have hfresh : mutexCode.Fresh r.world := Code.fresh h.world
  have hreach : mutexSystem.ReachableIf IdleReadsLocked w := h.world.step (e := .create) rfl hw
  have hnew : r.world.tasks.nextId ∉ r.tasks := fun hin => Nat.lt_irrefl _ (Code.live_lt hfresh (h.alive _ hin).2)
  have hloc : Function.update r.world.loc r.world.tasks.nextId mutexCode.rest = r.world.loc := by
    rw [← (hfresh _ (Nat.le_refl _)).1, Function.update_eq_self]
  obtain rfl := Option.some.inj hw
  simp only [hloc] at hreach ⊢
  refine ⟨hreach, ?_, ?_, ?_, h.fits, h.sees, h.owned, h.bad, h.rounds⟩
  · rw [List.length_append, List.length_singleton]
    omega
  · intro i hi
    rw [Tasks.create_live]
    obtain hi | hi := List.mem_append.mp hi
    · refine ⟨(h.alive i hi).1, ?_⟩
      split_ifs
      · rfl
      · exact (h.alive i hi).2
    · obtain rfl := List.mem_singleton.mp hi
      exact ⟨Code.nextId_ne_zero h.world, by simp⟩
  · intro i hi
    exact h.rest i fun hin => hi (List.mem_append_left _ hin)

theorem LockSound.next (h : LockSound r) {e : LockEvent} (hn : lockTest.next r e = some r') : LockSound r' := by
  cases e with
  | create =>
    simp only [lockTest] at hn
    split_ifs at hn with hfew
    exact h.create hfew hn
  | stop =>
    simp only [lockTest] at hn
    split_ifs at hn
    obtain rfl := Option.some.inj hn
    exact ⟨h.world, h.few, h.alive, h.rest, h.fits, h.sees, h.owned, h.bad, h.rounds⟩
  | task id =>
    simp only [lockTest] at hn
    split_ifs at hn with hid
    exact h.task hid.1 hn
  | undo id =>
    obtain ⟨w, hw, rfl⟩ := Option.map_eq_some_iff.mp hn
    have hreach : mutexSystem.ReachableIf IdleReadsLocked w := h.world.step (e := .undo id) rfl hw
    simp only [Code.next] at hw
    split_ifs at hw
    obtain rfl := Option.some.inj hw
    exact ⟨hreach, h.few, fun i hi => (h.alive i hi).imp_right fun hl => by rwa [Tasks.wake_live], h.rest, h.fits,
      h.sees, h.owned, h.bad, h.rounds⟩

theorem lockSound (h : lockTest.Reachable r) : LockSound r :=
  h.invariant (fun _ => LockSound.init) fun _ _ _ hs hn => hs.next hn

/-- Behind an `IpcOk` of `MutexLock`, and before the `MutexUnlock`. -/
def LockPc.critical : LockPc → Bool
  | .read | .write _ | .compare _ | .unlock => true
  | _ => false

/-- `LockBad` stays 0 and no increment of `LockRounds` is lost, whatever the interleaving: the two tasks are never
inside at once, and no call fails. -/
theorem lock_test_counts (h : lockTest.Reachable r) :
    r.lockBad = 0 ∧ r.lockRounds = u32 r.writes ∧
      ∀ i j, (r.pc i).critical = true → (r.pc j).critical = true → i = j := by
  have hs := lockSound h
  have hheld : ∀ i, (r.pc i).critical = true → r.world.obj.owner = i := by
    intro i hi
    have hfits := hs.fits i
    cases hpc : r.pc i with
    | loop | locking | unlocking | finished =>
      rw [hpc] at hi
      cases hi
    | read | write seen | compare seen | unlock =>
      rw [hpc] at hfits
      exact (hs.holder hfits.1).2.2
  exact ⟨hs.bad, hs.rounds, fun i j hi hj => (hheld i hi).symm.trans (hheld j hj)⟩

def zeroLockTest : LockTest := ⟨mutexCode.boot mutexInit, [], fun _ => .loop, 0, false, 0, 0⟩

/-- Task 1 has the mutex and task 2 has parked for it. -/
def contention : List LockEvent := [.create, .create] ++ List.replicate 4 (.task 1) ++ List.replicate 7 (.task 2)

theorem lock_test_counts_contention : ∃ r, lockTest.Reachable r ∧ r.writes = 1 ∧ r.lockBad = 0 ∧ r.lockRounds = 1 := by
  obtain ⟨r, -, hr, hp⟩ := System.exists_reachableIf (S := lockTest) (s := zeroLockTest) (fun _ _ => True) rfl
    (contention ++ List.replicate 2 (.task 1)) (fun r => r.writes = 1) (by decide)
  obtain ⟨hbad, hrounds, -⟩ := lock_test_counts hr
  exact ⟨r, hr, of_decide_eq_true hp, hbad, by rw [hrounds, of_decide_eq_true hp]; rfl⟩

theorem next_world {e : LockEvent} (hn : lockTest.next r e = some r') :
    (r'.world = r.world ∨ ∃ e', mutexSystem.next r.world e' = some r'.world ∧ ∀ i, e' ≠ .kill i) ∧
      (r'.lockRounds = r.lockRounds ∨ ∃ i seen, r.pc i = .write seen) := by
  have hwithin : ∀ (q : LockTest) (e' : MutexEvent), q.within e' = some r' → q.world = r.world →
      q.lockRounds = r.lockRounds → (∀ i, e' ≠ .kill i) →
      (r'.world = r.world ∨ ∃ e', mutexSystem.next r.world e' = some r'.world ∧ ∀ i, e' ≠ .kill i) ∧
        (r'.lockRounds = r.lockRounds ∨ ∃ i seen, r.pc i = .write seen) := by
    intro q e' hq hworld hrounds hkill
    obtain ⟨w, hw, rfl⟩ := Option.map_eq_some_iff.mp hq
    rw [hworld] at hw
    exact ⟨.inr ⟨e', hw, hkill⟩, .inl hrounds⟩
  cases e with
  | create =>
    simp only [lockTest] at hn
    split_ifs at hn
    exact hwithin _ _ hn rfl rfl fun _ he => by cases he
  | stop =>
    simp only [lockTest] at hn
    split_ifs at hn
    obtain rfl := Option.some.inj hn
    exact ⟨.inl rfl, .inl rfl⟩
  | undo id => exact hwithin _ _ hn rfl rfl fun _ he => by cases he
  | task id =>
    simp only [lockTest] at hn
    split_ifs at hn
    unfold lockTaskStep at hn
    split at hn
    · split_ifs at hn
      · obtain rfl := Option.some.inj hn
        exact ⟨.inl rfl, .inl rfl⟩
      · exact hwithin _ _ hn rfl rfl fun _ he => by cases he
    · split at hn
      · split_ifs at hn
        all_goals
          obtain rfl := Option.some.inj hn
          exact ⟨.inl rfl, .inl rfl⟩
      · exact hwithin _ _ hn rfl rfl fun _ he => by cases he
    · obtain rfl := Option.some.inj hn
      exact ⟨.inl rfl, .inl rfl⟩
    next seen hpc =>
      obtain rfl := Option.some.inj hn
      exact ⟨.inl rfl, .inr ⟨id, seen, hpc⟩⟩
    · obtain rfl := Option.some.inj hn
      exact ⟨.inl rfl, .inl rfl⟩
    · exact hwithin _ _ hn rfl rfl fun _ he => by cases he
    · split at hn
      · obtain rfl := Option.some.inj hn
        exact ⟨.inl rfl, .inl rfl⟩
      · exact hwithin _ _ hn rfl rfl fun _ he => by cases he
    · cases hn

theorem stranded_next {id : ℕ} {e : LockEvent} (hs : LockSound r) (h : Stranded r.world id)
    (hn : lockTest.next r e = some r') : Stranded r'.world id ∧ r'.lockRounds = r.lockRounds := by
  obtain ⟨hworld, hrounds⟩ := next_world hn
  refine ⟨?_, hrounds.resolve_right ?_⟩
  · obtain he | ⟨e', hnext, hkill⟩ := hworld
    · rwa [he]
    · exact h.next (Code.fresh hs.world) ⟨hkill id, fun _ => hs.room⟩ hnext
  · rintro ⟨i, seen, hpc⟩
    have hfits := hs.fits i
    rw [hpc] at hfits
    obtain ⟨hheld, st, hout⟩ := hfits
    obtain ⟨-, -, ho, p, hp⟩ := h
    rw [← ho, (hs.holder hheld).2.2, hout] at hp
    cases hp

theorem LockPc.Fits.of_unlock {pc : LockPc} {l : MutexLoc} (h : pc.Fits l) (hl : l.pc = .unlock) :
    pc = .unlocking ∧ l.holds = true := by
  cases pc with
  | unlocking =>
    obtain ⟨hheld, -⟩ | ⟨-, hno | ⟨nxt, hno⟩⟩ := h
    · exact ⟨rfl, hheld⟩
    · rw [hl] at hno
      cases hno
    · rw [hl] at hno
      cases hno
  | loop | finished | read | write seen | compare seen | unlock =>
    obtain ⟨-, st, hout⟩ := h
    rw [hl] at hout
    cases hout
  | locking => obtain ⟨-, hno⟩ | ⟨-, hno⟩ := h <;> rw [hl] at hno <;> cases hno

theorem LockPc.Fits.of_park {pc : LockPc} {l : MutexLoc} (h : pc.Fits l) {p : ParkPc} (hl : l.pc = .park p) :
    pc = .locking := by
  cases pc with
  | locking => rfl
  | loop | finished | read | write seen | compare seen | unlock =>
    obtain ⟨-, st, hout⟩ := h
    rw [hl] at hout
    cases hout
  | unlocking => obtain ⟨-, hno⟩ | ⟨-, hno | ⟨nxt, hno⟩⟩ := h <;> rw [hl] at hno <;> cases hno

theorem unlock_strands {w w' : MutexWorld} {self : ℕ} (hinv : MutexInv w.obj) (hq : Queued w)
    (hpc : (w.loc self).pc = .unlock) (hl : w.obj.locked = true) (ho : w.obj.owner = self)
    (hlive : ∀ x ∈ w.obj.wait, w.tasks.live x = true) (hwait : w.obj.wait.count ≠ 0)
    (hn : mutexSystem.next w (.step self) = some w') : ∃ id ∈ w.obj.wait, Stranded w' id := by
  obtain ⟨o, l, eff, -, hs, rfl⟩ := Code.step_cases hn
  obtain ⟨q, nxt, htake, -⟩ := ipcWaitTakeLive_spec w.tasks.live hinv.wait
  have hstep := mutexStep_unlock hpc hl ho htake
  have hs' : mutexStep w.tasks.live self w.obj (w.loc self) = some (o, l, eff) := hs
  rw [hstep] at hs'
  cases hs'
  obtain ⟨-, ⟨h0, hin, -⟩ | ⟨-, -, hdead⟩⟩ := ipcWaitTakeLive_cases hinv.wait htake
  · have hpark := hq nxt hin
    have hne : nxt ≠ self := by
      rintro rfl
      rw [hpc] at hpark
      cases hpark
    refine ⟨nxt, hin, h0, ?_, ?_, .woken, ?_⟩
    · simpa [IpcMutex.passTo, h0] using hl
    · simp [IpcMutex.passTo, h0]
    · simpa only [Function.update_of_ne hne] using hpark
  · have hin : w.obj.wait.ids 0 ∈ w.obj.wait := ⟨0, Nat.pos_of_ne_zero hwait, rfl⟩
    have hno := hdead _ hin
    rw [hlive _ hin] at hno
    cases hno

/-- The first `MutexUnlock` that finds the other task in the queue stalls the test for good. Whatever happens behind it,
the mutex stays locked, `LockRounds` stands still, and the task that was handed the mutex does not return from
`MutexLock`. -/
theorem lock_test_stalls (h : lockTest.Reachable r) {id : ℕ} (hpc : (r.world.loc id).pc = .unlock)
    (hwait : r.world.obj.wait.count ≠ 0) (hn : lockTest.next r (.task id) = some r') :
    ∃ other ∈ r.tasks, ∀ r'', lockTest.Leads (fun _ _ => True) r' r'' →
      r''.lockRounds = r.lockRounds ∧ r''.world.obj.locked = true ∧ r''.world.obj.owner = other ∧
        r''.pc other = .locking := by
  have hs := lockSound h
  obtain ⟨hunlocking, hheld⟩ := (hs.fits id).of_unlock hpc
  obtain ⟨-, hl, ho⟩ := hs.holder hheld
  have hqueued : ∀ x ∈ r.world.obj.wait, x ∈ r.tasks := by
    intro x hx
    by_contra hno
    have hpark := queued hs.world x hx
    rw [(hs.rest x hno).1] at hpark
    cases hpark
  obtain ⟨w, hw, hrounds, hrest⟩ : ∃ w, mutexSystem.next r.world (.step id) = some w ∧
      r'.lockRounds = r.lockRounds ∧ r'.world = w := by
    simp only [lockTest] at hn
    split_ifs at hn
    simp only [lockTaskStep, hunlocking, hpc] at hn
    obtain ⟨w, hw, rfl⟩ := Option.map_eq_some_iff.mp hn
    exact ⟨w, hw, rfl, rfl⟩
  obtain ⟨other, hother, hstranded⟩ := unlock_strands (mutex_inv hs.world) (queued hs.world) hpc hl ho
    (fun x hx => (hs.alive x (hqueued x hx)).2) hwait hw
  refine ⟨other, hqueued other hother, fun r'' hlead => ?_⟩
  -- along the rest of the run
  have hkept : LockSound r'' ∧ Stranded r''.world other ∧ r''.lockRounds = r.lockRounds := by
    refine hlead.invariant (I := fun q => LockSound q ∧ Stranded q.world other ∧ q.lockRounds = r.lockRounds)
      (fun q e q' hq _ hstep => ?_) ⟨hs.next hn, by rw [hrest]; exact hstranded, hrounds⟩
    obtain ⟨hsound, hstr, hsame⟩ := hq
    obtain ⟨hstr', hsame'⟩ := stranded_next hsound hstr hstep
    exact ⟨hsound.next hstep, hstr', hsame'.trans hsame⟩
  obtain ⟨hsound, ⟨-, hl'', ho'', p, hp⟩, hsame⟩ := hkept
  exact ⟨hsame, hl'', ho'', (hsound.fits other).of_park hp⟩

/-- Task 1 unlocks after one round. -/
theorem lock_test_stalls_first : ∃ r r', lockTest.Reachable r ∧ lockTest.next r (.task 1) = some r' ∧
    r.lockRounds = 1 ∧ ∃ other ∈ r.tasks, ∀ r'', lockTest.Leads (fun _ _ => True) r' r'' →
      r''.lockRounds = r.lockRounds ∧ r''.world.obj.locked = true ∧ r''.world.obj.owner = other ∧
        r''.pc other = .locking := by
  obtain ⟨r, -, hr, hp⟩ := System.exists_reachableIf (S := lockTest) (s := zeroLockTest) (fun _ _ => True) rfl
    (contention ++ List.replicate 4 (.task 1))
    (fun r => ((r.world.loc 1).pc = .unlock ∧ r.world.obj.wait.count ≠ 0) ∧ r.lockRounds = 1 ∧
      (lockTest.next r (.task 1)).isSome = true) (by decide)
  obtain ⟨⟨hpc, hwait⟩, hrounds, hsome⟩ := of_decide_eq_true hp
  obtain ⟨r', hn⟩ := Option.isSome_iff_exists.mp hsome
  exact ⟨r, r', hr, hn, hrounds, lock_test_stalls hr hpc hwait hn⟩

end

end Novium.Selftest
