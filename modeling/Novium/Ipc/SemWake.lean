import Novium.Ipc.SemCount

/-! Who gets a permit. A post leaves its permit in `Count` and wakes one waiter to fetch
it; so a permit can lie idle when that waiter is killed on the way, and any task that
comes first can take it. -/

namespace Novium.Ipc

open Novium.Lib

variable {initial limit : ℕ} {w w' : SemWorld} {e : SemEvent}

def SemPc.role : SemPc → Role
  | .waitTry => .seek
  | .park p => .park p
  | .wake _ p => .ofWake p
  | .out _ | .tryWait | .post => .out

/-- The permits, and the queue of those that wait for one. -/
def semLot : Lot SemObj SemPc := ⟨(·.sem.wait), (·.sem.count), SemPc.role⟩

theorem role_afterPark (r : ParkPc ⊕ IpcStatus) : (SemPc.afterPark r).role = .afterPark r := by
  rcases r with p | st
  · rfl
  · cases st <;> rfl

theorem lotStep_take {live : ℕ → Bool} {self a a' : ℕ} {q : IpcWait} {pc : SemPc} (hat : pc = .waitTry ∨ pc = .tryWait)
    (hlt : a' < a) : LotStep live self q a pc.role .stay q a' .out := by
  rcases hat with rfl | rfl
  · exact .get hlt
  · exact .other hlt.le (.inl rfl)

theorem SemChange.lotStep {live : ℕ → Bool} {self : ℕ} {o o' : SemObj} {pc pc' : SemPc} {eff : Effect}
    (hc : SemChange live self o pc o' pc' eff) :
    LotStep live self o.sem.wait o.sem.count pc.role eff o'.sem.wait o'.sem.count pc'.role := by
  cases hc with
  | take hat hpos =>
    rw [recount_wait, recount_count]
    exact lotStep_take hat (sub32_one_lt hpos)
  | waitFails h0 => exact .fail h0
  | tryFails => exact .other le_rfl (.inl rfl)
  | park p =>
    rw [role_afterPark]
    exact lotStep_park live self o.sem.wait o.sem.count p
  | post =>
    rw [recount_wait, recount_count]
    exact .give (u32_le _)
  | full => exact .other le_rfl (.inl rfl)
  | @wake found p q r _ hone =>
    have hstep := lotStep_wake self o.sem.count hone
    cases r <;> exact hstep

theorem semLot_lawful : semLot.Lawful semCode fun _ _ => True where
  rest := rfl
  start {c l l'} h := by
    cases l with
    | out last =>
      simp only [semCode, semStart] at h
      split_ifs at h
      · cases h
        exact ⟨rfl, .inl rfl⟩
      · split at h <;> cases h
        · exact ⟨rfl, .inr rfl⟩
        · exact ⟨rfl, .inl rfl⟩
        · exact ⟨rfl, .inl rfl⟩
    | _ => cases h
  step _ h := (semStep_change h).lotStep

theorem sem_seated {ok : SemWorld → SemEvent → Prop} (h : (semSystem initial limit).ReachableIf ok w) :
    semLot.view.Seated w := by
  refine QueueView.seated semLot_lawful.view ?_ (fun _ _ _ => trivial) h
  rintro o rfl
  rfl

theorem sem_covered (h : (semSystem initial limit).ReachableIf (fun w e => semLot.Spares w e) w) :
    semLot.Covered w := by
  refine Lot.covered semLot_lawful ?_ (fun _ _ _ => trivial) (fun _ _ he => he) h
  rintro o rfl
  rfl

/-- A live task is awake inside `SemWait`. -/
def AwakeInWait (w : SemWorld) : Prop := ∃ i, w.tasks.run i = .runnable ∧ (w.loc i = .waitTry ∨ ∃ p, w.loc i = .park p)

/-- A live task is inside `SemPost`, with its `IpcWakeOne` not done. -/
def WakePending (w : SemWorld) : Prop := ∃ j, w.tasks.live j = true ∧ ∃ found p, w.loc j = .wake found p

/-- A permit that is free while a live task sleeps for one will be seen to. -/
def PermitServed (w : SemWorld) : Prop :=
  0 < w.obj.sem.count → (∃ x ∈ w.obj.sem.wait, w.tasks.run x = .blocked) → AwakeInWait w ∨ WakePending w

theorem role_waits {pc : SemPc} (h : pc.role.waits = true) : pc = .waitTry ∨ ∃ p, pc = .park p := by
  cases pc with
  | waitTry => exact .inl rfl
  | park p => exact .inr ⟨p, rfl⟩
  | wake found p => cases p <;> cases h
  | _ => cases h

theorem role_wake {pc : SemPc} (h : pc.role = .owe ∨ ∃ x, pc.role = .wake x) : ∃ found p, pc = .wake found p := by
  cases pc with
  | wake found p => exact ⟨found, p, rfl⟩
  | _ => rcases h with h | ⟨x, h⟩ <;> cases h

theorem served_of_covered (h : semLot.Covered w) : PermitServed w := by
  intro hpos hsleep
  have hcard := h hsleep
  have hne : (semLot.carriers w).Nonempty := Finset.card_pos.mp (Nat.lt_of_lt_of_le hpos hcard)
  obtain ⟨i, hi⟩ := hne
  obtain ⟨hlive, howe | ⟨-, hwaits, -, hrun | ⟨j, -, hj, hjr⟩⟩⟩ := (Finset.mem_filter.mp hi).2
  · exact .inr ⟨i, hlive, role_wake (.inl howe)⟩
  · exact .inl ⟨i, hrun, role_waits hwaits⟩
  · exact .inr ⟨j, hj, role_wake (.inr ⟨i, hjr⟩)⟩

/-- No permit lies idle as long as no kill takes away a wakeup that is needed. -/
theorem permit_served (h : (semSystem initial limit).ReachableIf (fun w e => semLot.Spares w e) w) : PermitServed w :=
  served_of_covered (sem_covered h)

def parkIn (id : ℕ) : List SemEvent := waitCall id :: List.replicate 2 (.step id)

/-- Three tasks sleep and the first is killed; a post has taken the second off the queue. -/
theorem permit_served_stale_entry :
    ∃ w, (semSystem 0 0).ReachableIf (fun w e => semLot.Spares w e) w ∧ 0 < w.obj.sem.count ∧
      4 ∈ w.obj.sem.wait ∧ w.tasks.run 4 = .blocked ∧ (AwakeInWait w ∨ WakePending w) := by
  obtain ⟨w, -, hw, hp⟩ := System.exists_reachableIf (S := semSystem 0 0) (fun w e => semLot.Spares w e)
    (sem_boot 0 0)
    (List.replicate 4 .create ++ parkIn 2 ++ parkIn 3 ++ parkIn 4 ++ [.kill 2, postCall 1, .step 1, .step 1])
    (fun w => 0 < w.obj.sem.count ∧ 4 ∈ w.obj.sem.wait ∧ w.tasks.run 4 = .blocked) (by decide +kernel)
  obtain ⟨hpos, hin, hb⟩ := of_decide_eq_true hp
  exact ⟨w, hw, hpos, hin, hb, permit_served hw hpos ⟨4, hin, hb⟩⟩

/-- Tasks 2 and 3 sleep, task 1 posts and wakes task 2, which is killed before it runs. -/
theorem permit_stranded :
    ∃ w, (semSystem 0 0).Reachable w ∧ w.obj.sem.count = 1 ∧ 3 ∈ w.obj.sem.wait ∧ w.tasks.run 3 = .blocked ∧
      ¬PermitServed w := by
  obtain ⟨w, -, hw, hp⟩ := System.exists_reachableIf (S := semSystem 0 0) (fun _ _ => True) (sem_boot 0 0)
    (List.replicate 3 .create ++ parkIn 2 ++ parkIn 3 ++ [postCall 1] ++ List.replicate 3 (.step 1) ++ [.kill 2])
    (fun w => w.obj.sem.count = 1 ∧ 3 ∈ w.obj.sem.wait ∧ w.tasks.run 3 = .blocked ∧ w.tasks.nextId = 4 ∧
      (List.range 4).all fun i => w.tasks.run i = .gone || (w.loc i).role = .out ||
        (w.tasks.run i = .blocked && (w.loc i).role = .park .woken)) (by decide +kernel)
  obtain ⟨hc, hin, hb, hnext, hall⟩ := of_decide_eq_true hp
  simp only [List.all_eq_true, List.mem_range, Bool.or_eq_true, Bool.and_eq_true, decide_eq_true_eq] at hall
  have hlt : ∀ i, w.tasks.run i ≠ .gone → i < 4 := fun i hi =>
    hnext ▸ Code.live_lt (Code.fresh hw) (Tasks.live_iff.mpr hi)
  refine ⟨w, hw, hc, hin, hb, fun hserved => ?_⟩
  rcases hserved (by omega) ⟨3, hin, hb⟩ with ⟨i, hrun, hpc⟩ | ⟨j, hlive, found, p, hpc⟩
  · have hi := hall i (hlt i (by simp [hrun]))
    rcases hpc with hpc | ⟨p, hpc⟩ <;> simp [hrun, hpc, SemPc.role] at hi
  · have hrun := Tasks.live_iff.mp hlive
    have hj := hall j (hlt j hrun)
    cases p <;> simp [hpc, SemPc.role, Role.ofWake, hrun] at hj

end Novium.Ipc
