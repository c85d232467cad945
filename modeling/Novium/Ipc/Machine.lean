import Novium.Lib.Runs
import Novium.Ipc.Wait

/-! Tasks that run the calls of one IPC object. An atomic step is a section with
interrupts off, a single read of shared memory outside one, or a call of the
scheduler; any runnable task may make the next one. The scheduler appears only
through the ids it knows: `SchedFind`, `SchedWakeTask`, `SchedBlock`, `SchedKill` and
`SchedCreate` act on `Tasks`, and ids are never reissued. -/

namespace Novium.Ipc

open Novium.Lib

inductive RunState where
  | gone | runnable | blocked
  deriving DecidableEq, Repr

structure Tasks where
  run : ℕ → RunState
  nextId : ℕ

namespace Tasks

/-- After `SchedInit` there is the idle task alone. -/
def boot : Tasks := ⟨fun id => if id = 0 then .runnable else .gone, 1⟩

def live (ts : Tasks) (id : ℕ) : Bool := ts.run id ≠ .gone

def setRun (ts : Tasks) (id : ℕ) (r : RunState) : Tasks := { ts with run := Function.update ts.run id r }

/-- `SchedWakeTask`. Also what becomes of a block that the scheduler undoes. -/
def wake (ts : Tasks) (id : ℕ) : Tasks := if ts.run id = .blocked then ts.setRun id .runnable else ts

def kill (ts : Tasks) (id : ℕ) : Tasks := if id = 0 then ts else ts.setRun id .gone

def create (ts : Tasks) : Tasks := { ts.setRun ts.nextId .runnable with nextId := ts.nextId + 1 }

@[simp] theorem setRun_run (ts : Tasks) (id : ℕ) (r : RunState) (i : ℕ) :
    (ts.setRun id r).run i = if i = id then r else ts.run i := by
  simp [setRun, Function.update_apply]

theorem live_iff {ts : Tasks} {id : ℕ} : ts.live id = true ↔ ts.run id ≠ .gone := by simp [live]

theorem wake_run (ts : Tasks) (id i : ℕ) :
    (ts.wake id).run i = if i = id ∧ ts.run id = .blocked then .runnable else ts.run i := by
  unfold wake
  by_cases h : ts.run id = .blocked
  · simp [h]
  · simp [h]

@[simp] theorem wake_live (ts : Tasks) (id i : ℕ) : (ts.wake id).live i = ts.live i := by
  unfold live
  rw [wake_run]
  split_ifs with h
  · rw [h.1, h.2]
    rfl
  · rfl

@[simp] theorem wake_nextId (ts : Tasks) (id : ℕ) : (ts.wake id).nextId = ts.nextId := by
  unfold wake
  split_ifs <;> rfl

@[simp] theorem kill_nextId (ts : Tasks) (id : ℕ) : (ts.kill id).nextId = ts.nextId := by
  unfold kill
  split_ifs <;> rfl

@[simp] theorem create_nextId (ts : Tasks) : ts.create.nextId = ts.nextId + 1 := rfl

theorem kill_live (ts : Tasks) (id i : ℕ) :
    (ts.kill id).live i = if i = id ∧ id ≠ 0 then false else ts.live i := by
  unfold kill live
  by_cases h : id = 0
  · simp [h]
  · by_cases hi : i = id
    · simp [h, hi]
    · simp [h, hi]

theorem create_live (ts : Tasks) (i : ℕ) : ts.create.live i = if i = ts.nextId then true else ts.live i := by
  unfold create live
  by_cases h : i = ts.nextId <;> simp [h]

end Tasks

/-- What a step asks of the scheduler: nothing, `SchedBlock` of the caller, or
`SchedWakeTask`. -/
inductive Effect where
  | stay
  | block
  | wake (id : ℕ)
  deriving DecidableEq, Repr

def Effect.apply (self : ℕ) (ts : Tasks) : Effect → Tasks
  | .stay => ts
  | .block => ts.setRun self .blocked
  | .wake id => ts.wake id

theorem Effect.apply_live {self : ℕ} {ts : Tasks} (hself : ts.run self = .runnable) (eff : Effect) (i : ℕ) :
    (eff.apply self ts).live i = ts.live i := by
  cases eff with
  | stay => rfl
  | block =>
    unfold Effect.apply Tasks.live
    by_cases h : i = self
    · simp [h, hself]
    · simp [h]
  | wake id => exact Tasks.wake_live ts id i

@[simp] theorem Effect.apply_nextId (self : ℕ) (ts : Tasks) (eff : Effect) :
    (eff.apply self ts).nextId = ts.nextId := by
  cases eff with
  | stay => rfl
  | block => rfl
  | wake id => exact Tasks.wake_nextId ts id

/-- The code of an object of type `O`: where a task stands in it (`L`), which calls it
can make (`C`), and the next step of the task `self` there. -/
structure Code (O L C : Type) where
  rest : L
  start : C → L → Option L
  step : (live : ℕ → Bool) → (self : ℕ) → O → L → Option (O × L × Effect)

structure World (O L : Type) where
  obj : O
  tasks : Tasks
  loc : ℕ → L

inductive Event (C : Type) where
  | call (id : ℕ) (c : C)
  | step (id : ℕ)
  | undo (id : ℕ)
  | kill (id : ℕ)
  | create

namespace Code

variable {O L C : Type} (M : Code O L C)

def next (w : World O L) : Event C → Option (World O L)
  | .call id c =>
    if w.tasks.run id = .runnable then
      (M.start c (w.loc id)).map fun l => { w with loc := Function.update w.loc id l }
    else none
  | .step id =>
    if w.tasks.run id = .runnable then
      (M.step w.tasks.live id w.obj (w.loc id)).map fun (o, l, eff) =>
        ⟨o, eff.apply id w.tasks, Function.update w.loc id l⟩
    else none
  | .undo id => if w.tasks.run id = .blocked then some { w with tasks := w.tasks.wake id } else none
  | .kill id => some { w with tasks := w.tasks.kill id }
  | .create =>
    some { w with tasks := w.tasks.create, loc := Function.update w.loc w.tasks.nextId M.rest }

def boot (o : O) : World O L := ⟨o, Tasks.boot, fun _ => M.rest⟩

/-- The runs from an initialised object. -/
def system (init : O → Prop) : System (World O L) (Event C) where
  init w := ∃ o, init o ∧ w = M.boot o
  next := M.next

theorem next_cases {M : Code O L C} {w w' : World O L} {e : Event C} (h : M.next w e = some w') :
    (∃ id c l, e = .call id c ∧ w.tasks.run id = .runnable ∧ M.start c (w.loc id) = some l ∧
        w' = { w with loc := Function.update w.loc id l }) ∨
      (∃ id o l eff, e = .step id ∧ w.tasks.run id = .runnable ∧
        M.step w.tasks.live id w.obj (w.loc id) = some (o, l, eff) ∧
        w' = ⟨o, eff.apply id w.tasks, Function.update w.loc id l⟩) ∨
      (∃ id, e = .undo id ∧ w' = { w with tasks := w.tasks.wake id }) ∨
      (∃ id, e = .kill id ∧ w' = { w with tasks := w.tasks.kill id }) ∨
      (e = .create ∧
        w' = { w with tasks := w.tasks.create, loc := Function.update w.loc w.tasks.nextId M.rest }) := by
  cases e with
  | call id c =>
    simp only [next] at h
    split_ifs at h with hrun
    obtain ⟨l, hl, rfl⟩ := Option.map_eq_some_iff.mp h
    exact Or.inl ⟨id, c, l, rfl, hrun, hl, rfl⟩
  | step id =>
    simp only [next] at h
    split_ifs at h with hrun
    obtain ⟨⟨o, l, eff⟩, hl, rfl⟩ := Option.map_eq_some_iff.mp h
    exact Or.inr (Or.inl ⟨id, o, l, eff, rfl, hrun, hl, rfl⟩)
  | undo id =>
    simp only [next] at h
    split_ifs at h with hrun
    cases h
    exact Or.inr (Or.inr (Or.inl ⟨id, rfl, rfl⟩))
  | kill id =>
    cases h
    exact Or.inr (Or.inr (Or.inr (Or.inl ⟨id, rfl, rfl⟩)))
  | create =>
    cases h
    exact Or.inr (Or.inr (Or.inr (Or.inr ⟨rfl, rfl⟩)))

theorem step_cases {M : Code O L C} {w w' : World O L} {id : ℕ} (h : M.next w (.step id) = some w') :
    ∃ o l eff, w.tasks.run id = .runnable ∧ M.step w.tasks.live id w.obj (w.loc id) = some (o, l, eff) ∧
      w' = ⟨o, eff.apply id w.tasks, Function.update w.loc id l⟩ := by
  rcases next_cases h with ⟨_, _, _, he, -⟩ | ⟨self, o, l, eff, he, hrun, hs, hw⟩ | ⟨_, he, -⟩ | ⟨_, he, -⟩ | ⟨he, -⟩
  all_goals cases he
  exact ⟨o, l, eff, hrun, hs, hw⟩

/-- No task has had an id that is still to be issued. -/
def Fresh (w : World O L) : Prop :=
  ∀ id, w.tasks.nextId ≤ id → w.loc id = M.rest ∧ w.tasks.live id = false

theorem fresh_next {M : Code O L C} {w w' : World O L} {e : Event C} (h : M.Fresh w)
    (hn : M.next w e = some w') : M.Fresh w' := by
  have hne : ∀ {id i}, w.tasks.run id = .runnable → w.tasks.nextId ≤ i → i ≠ id := by
    rintro id i hr hle rfl
    have := (h i hle).2
    simp [Tasks.live, hr] at this
  rcases next_cases hn with ⟨id, c, l, -, hr, -, rfl⟩ | ⟨id, o, l, eff, -, hr, -, rfl⟩ | ⟨id, -, rfl⟩ |
    ⟨id, -, rfl⟩ | ⟨-, rfl⟩
  · intro i hle
    simp only [Function.update_of_ne (hne hr hle)]
    exact h i hle
  · intro i hle
    simp only [Effect.apply_nextId] at hle
    simp only [Function.update_of_ne (hne hr hle), Effect.apply_live hr]
    exact h i hle
  · intro i hle
    simp only [Tasks.wake_nextId, Tasks.wake_live] at hle ⊢
    exact h i hle
  · intro i hle
    simp only [Tasks.kill_nextId, Tasks.kill_live] at hle ⊢
    refine ⟨(h i hle).1, ?_⟩
    split_ifs
    · rfl
    · exact (h i hle).2
  · intro i hle
    simp only [Tasks.create_nextId] at hle
    have hi : i ≠ w.tasks.nextId := by omega
    simp only [Function.update_of_ne hi, Tasks.create_live, if_neg hi]
    exact h i (by omega)

theorem fresh {M : Code O L C} {init : O → Prop} {ok : World O L → Event C → Prop} {w : World O L}
    (h : (M.system init).ReachableIf ok w) : M.Fresh w := by
  refine h.invariant (I := M.Fresh) ?_ fun _ _ _ hi _ hn => fresh_next hi hn
  rintro w ⟨o, -, rfl⟩ id hle
  refine ⟨rfl, ?_⟩
  have : id ≠ 0 := by
    simp only [boot, Tasks.boot] at hle
    omega
  simp [boot, Tasks.boot, Tasks.live, this]

theorem live_lt {M : Code O L C} {w : World O L} (h : M.Fresh w) {id : ℕ} (hlive : w.tasks.live id = true) :
    id < w.tasks.nextId := by
  by_contra hle
  rw [(h id (by omega)).2] at hlive
  cases hlive

theorem nextId_ne_zero {M : Code O L C} {init : O → Prop} {ok : World O L → Event C → Prop} {w : World O L}
    (h : (M.system init).ReachableIf ok w) : w.tasks.nextId ≠ 0 := by
  refine h.invariant (I := fun w => w.tasks.nextId ≠ 0) ?_ fun w e w' hi _ hn => ?_
  · rintro w ⟨o, -, rfl⟩
    exact Nat.one_ne_zero
  · obtain ⟨_, _, _, -, -, -, rfl⟩ | ⟨_, _, _, _, -, -, -, rfl⟩ | ⟨_, -, rfl⟩ | ⟨_, -, rfl⟩ | ⟨-, rfl⟩ := Code.next_cases hn
    · exact hi
    · simpa using hi
    · simpa using hi
    · simpa using hi
    · exact Nat.succ_ne_zero _

theorem everywhere {M : Code O L C} {init : O → Prop} {ok : World O L → Event C → Prop} {G : O → L → Prop}
    (hinit : ∀ o, init o → G o M.rest) (hrest : ∀ o l, G o l → G o M.rest)
    (hstart : ∀ c o l l', G o l → M.start c l = some l' → G o l')
    (hstep : ∀ live self o l o' l' eff, G o l → M.step live self o l = some (o', l', eff) →
      G o' l' ∧ ∀ k, G o k → G o' k) {w : World O L} (h : (M.system init).ReachableIf ok w) :
    ∀ id, G w.obj (w.loc id) := by
  have hupdate : ∀ {loc : ℕ → L} {o : O} {self : ℕ} {l : L}, G o l → (∀ id, G o (loc id)) →
      ∀ id, G o (Function.update loc self l id) := by
    intro loc o self l hl hall id
    rw [Function.update_apply]
    split_ifs
    · exact hl
    · exact hall id
  refine h.invariant (I := fun w => ∀ id, G w.obj (w.loc id)) ?_ fun w e w' hi _ hn => ?_
  · rintro w ⟨o, ho, rfl⟩ -
    exact hinit o ho
  · rcases next_cases hn with ⟨id, c, l, -, -, hs, rfl⟩ | ⟨self, o, l, eff, -, -, hs, rfl⟩ | ⟨_, -, rfl⟩ |
      ⟨_, -, rfl⟩ | ⟨-, rfl⟩
    · exact hupdate (hstart _ _ _ _ (hi id) hs) hi
    · obtain ⟨hself, hothers⟩ := hstep _ _ _ _ _ _ _ (hi self) hs
      exact hupdate hself fun id => hothers _ (hi id)
    · exact hi
    · exact hi
    · exact hupdate (hrest _ _ (hi 0)) hi

end Code

/-- Inside `IpcPark`: before the section that looks at `Ready`, or behind `SchedBlock`. -/
inductive ParkPc where
  | check | woken
  deriving DecidableEq, Repr

/-- One step of `IpcPark`: the queue, where the call goes on or what it returns, and
the effect. The section of the first step runs into `SchedBlock`. -/
def ipcPark (self : ℕ) (ready : Bool) (w : IpcWait) : ParkPc → IpcWait × (ParkPc ⊕ IpcStatus) × Effect
  | .check =>
    if self = 0 then (w, .inr .errNoTask, .stay)
    else if ready then (w, .inr .ok, .stay)
    else match ipcWaitAdd w self with
      | none => (w, .inr .errFull, .stay)
      | some w' => (w', .inl .woken, .block)
  | .woken => (ipcWaitRemove w self, .inl .check, .stay)

theorem ipcPark_cases (self : ℕ) (ready : Bool) (w : IpcWait) (p : ParkPc) :
    (∃ st, ipcPark self ready w p = (w, .inr st, .stay)) ∨
      (∃ w', self ≠ 0 ∧ ready = false ∧ ipcWaitAdd w self = some w' ∧
        ipcPark self ready w p = (w', .inl .woken, .block)) ∨
      ipcPark self ready w p = (ipcWaitRemove w self, .inl .check, .stay) := by
  cases p with
  | check =>
    simp only [ipcPark]
    split_ifs with h0 hr
    · exact Or.inl ⟨_, rfl⟩
    · exact Or.inl ⟨_, rfl⟩
    · cases hadd : ipcWaitAdd w self with
      | none => exact Or.inl ⟨_, rfl⟩
      | some w' => exact Or.inr (Or.inl ⟨w', h0, by simpa using hr, rfl, rfl⟩)
  | woken => exact Or.inr (Or.inr rfl)

theorem ipcPark_wellFormed {self : ℕ} {ready : Bool} {w : IpcWait} {p : ParkPc} (h : WellFormed w) :
    WellFormed (ipcPark self ready w p).1 := by
  rcases ipcPark_cases self ready w p with ⟨st, he⟩ | ⟨w', h0, -, hadd, he⟩ | he
  · rw [he]
    exact h
  · rw [he]
    exact (ipcWaitAdd_spec h h0 hadd).1
  · rw [he]
    exact (ipcWaitRemove_spec h self).1

/-- Inside `IpcWakeOne`: before its section, or before `SchedWakeTask`. -/
inductive WakePc where
  | take
  | wake (id : ℕ)
  deriving DecidableEq, Repr

/-- One step of `IpcWakeOne`: the queue, where the call goes on unless it returns, and
the effect. -/
def ipcWakeOne (live : ℕ → Bool) (w : IpcWait) : WakePc → Option (IpcWait × Option WakePc × Effect)
  | .take => (ipcWaitTakeLive live w).map fun (w', id) => (w', if id ≠ 0 then some (.wake id) else none, .stay)
  | .wake id => some (w, none, .wake id)

end Novium.Ipc
