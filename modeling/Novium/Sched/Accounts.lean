import Novium.Sched.Micro
import Novium.Sched.Sleep
import Mathlib.Algebra.BigOperators.Ring.Finset
import Mathlib.Data.Fintype.BigOperators

/-! Two laws of all runs, from the small writes: what a descriptor looks like, and who is
charged for the ticks. -/

namespace Novium.Sched

open Novium.Lib

theorem State.modTask_self (s : State) (t : TaskRef) (f : Task → Task) : (s.modTask t f).tasks t = f (s.tasks t) :=
  Function.update_self _ _ _

theorem State.modTask_of_ne (s : State) {t u : TaskRef} (f : Task → Task) (hu : u ≠ t) :
    (s.modTask t f).tasks u = s.tasks u :=
  Function.update_of_ne hu _ _

/-- What every descriptor satisfies: the slice is 10 and not used up, the name ends inside its array, and a dead
descriptor is blank. -/
structure Task.WellFormed (item : Task) : Prop where
  timeSlice : item.timeSlice = 10
  timeUsed : item.timeUsed < 10
  priority : item.priority ≤ 255
  name : ∃ i < schedNameLength, item.name i = 0
  blank : item.state = .dead → item.id = 0 ∧ item.runtime = 0 ∧ item.switches = 0

def WellFormed (s : State) : Prop := ∀ t, (s.tasks t).WellFormed

theorem WellFormed.modTask {s : State} (h : WellFormed s) {t : TaskRef} {f : Task → Task}
    (hf : (f (s.tasks t)).WellFormed) : WellFormed (s.modTask t f) := by
  intro u
  by_cases hu : u = t
  · subst hu
    rw [State.modTask_self]
    exact hf
  · rw [State.modTask_of_ne s f hu]
    exact h u

theorem resetTask_wellFormed (item : Task) : (resetTask item).WellFormed :=
  ⟨rfl, Nat.zero_lt_succ 9, show 1 ≤ 255 by decide, ⟨0, by decide, rfl⟩, fun _ => ⟨rfl, rfl, rfl⟩⟩

theorem copyName_ends (src : ℕ → UInt8) (n i : ℕ) (dst : ℕ → UInt8) : ∃ j ≤ i + n, copyName src n i dst j = 0 := by
  induction n generalizing i dst with
  | zero => exact ⟨i, le_rfl, Function.update_self _ _ _⟩
  | succ n ih =>
    rw [copyName]
    split_ifs
    · exact ⟨i, Nat.le_add_right _ _, Function.update_self _ _ _⟩
    · obtain ⟨j, hj, hz⟩ := ih (i + 1) (Function.update dst i (src i))
      exact ⟨j, by omega, hz⟩

theorem started_wellFormed (eip : ℕ) (name : ℕ → UInt8) (item : Task) : (started eip name item).WellFormed := by
  refine ⟨rfl, Nat.zero_lt_succ 9, show 1 ≤ 255 by decide, ?_, nofun⟩
  obtain ⟨j, hj, hz⟩ := copyName_ends name (schedNameLength - 1) 0 item.name
  exact ⟨j, by unfold schedNameLength at *; omega, hz⟩

theorem describeTask_tasks (t : TaskRef) (name : ℕ → UInt8) (eip esp : ℕ) (s : State) :
    (∀ u, u ≠ t → (describeTask t name eip esp s).tasks u = s.tasks u) ∧
      ∃ item, (describeTask t name eip esp s).tasks t = started eip name item := by
  unfold describeTask schedInitStack State.modTask
  refine ⟨fun u hu => ?_, ?_⟩
  · simp only [Function.update_of_ne hu]
  · simp only [Function.update_self]
    exact ⟨_, rfl⟩

theorem Micro.wellFormed {s s' : State} (hm : Micro s s') (h : WellFormed s) : WellFormed s' := by
  cases hm with
  | links nx hd => exact fun t => ⟨(h t).timeSlice, (h t).timeUsed, (h t).priority, (h t).name, (h t).blank⟩
  | @mark t st ht hst =>
    exact h.modTask ⟨(h t).timeSlice, (h t).timeUsed, (h t).priority, (h t).name, fun e => absurd e hst⟩
  | stamp t w => exact h.modTask ⟨(h t).timeSlice, (h t).timeUsed, (h t).priority, (h t).name, (h t).blank⟩
  | @weigh t p hp => exact h.modTask ⟨(h t).timeSlice, (h t).timeUsed, hp, (h t).name, (h t).blank⟩
  | save t esp => exact h.modTask ⟨(h t).timeSlice, (h t).timeUsed, (h t).priority, (h t).name, (h t).blank⟩
  | @elect t ht =>
    have hel := h.modTask (t := t) (f := elected)
      ⟨(h t).timeSlice, Nat.zero_lt_succ 9, (h t).priority, (h t).name, nofun⟩
    exact hel
  | reset t => exact h.modTask (resetTask_wellFormed _)
  | other ht _ => exact fun t => by rw [ht]; exact h t

theorem tickCurrent_wellFormed {s : State} {c : TaskRef} (h : WellFormed s) (hc : s.state c ≠ .dead) :
    WellFormed (tickCurrent c s) := by
  have hused := (h c).timeUsed
  have hslice : ((s.modTask c ticked).tasks c).timeSlice = 10 := by
    rw [State.modTask_self]
    exact (h c).timeSlice
  have hnow : ((s.modTask c ticked).tasks c).timeUsed = (s.tasks c).timeUsed + 1 := by
    rw [State.modTask_self]
    exact u32_of_lt (by omega)
  unfold tickCurrent
  simp only [hslice, hnow]
  split_ifs with hfull
  · have hzero : WellFormed ((s.modTask c ticked).modTask c fun item => { item with timeUsed := 0 }) := by
      intro u
      by_cases hu : u = c
      · subst hu
        rw [State.modTask_self, State.modTask_self]
        exact ⟨(h u).timeSlice, Nat.zero_lt_succ 9, (h u).priority, (h u).name, fun e => absurd e hc⟩
      · rw [State.modTask_of_ne _ _ hu, State.modTask_of_ne _ _ hu]
        exact h u
    exact hzero
  · refine h.modTask ⟨(h c).timeSlice, ?_, (h c).priority, (h c).name, fun e => absurd e hc⟩
    show u32 ((s.tasks c).timeUsed + 1) < 10
    rw [u32_of_lt (by omega)]
    omega

theorem Written.wellFormed {s s' : State} (hw : Written s s') (h : WellFormed s) : WellFormed s' := by
  have hsmall : ∀ {a b : State}, Micros a b → WellFormed a → WellFormed b := fun hab =>
    Micros.invariant (fun _ _ hm => hm.wellFormed) hab
  cases hw with
  | small hms => exact hsmall hms h
  | @tick c hc hrun =>
    have hlive : s.state c ≠ .dead := by
      rw [hrun]
      decide
    exact tickCurrent_wellFormed (s := { s with schedulerTicks := u32 (s.schedulerTicks + 1) }) h hlive
  | @birth t s₁ s' name eip esp hpre _ _ hpost =>
    refine hsmall hpost fun u => ?_
    obtain ⟨hother, item, hself⟩ := describeTask_tasks t name eip esp s₁
    by_cases hu : u = t
    · rw [hu, hself]
      exact started_wellFormed eip name item
    · rw [hother u hu]
      exact hsmall hpre h u

theorem schedInit_wellFormed (boot : State) : WellFormed (schedInit boot) := by
  have hreset : WellFormed { boot with tasks := fun t => resetTask (boot.tasks t) } := fun t => resetTask_wellFormed _
  have hidle := hreset.modTask (t := 0)
    (f := fun item => { item with id := 0, parentId := 0, priority := 0, timeSlice := 10, state := .running
                                  name := idleName item.name })
    ⟨rfl, Nat.zero_lt_succ 9, show 0 ≤ 255 by decide, ⟨4, by decide, rfl⟩, nofun⟩
  exact hidle

theorem reachable_wellFormed {s : State} (h : system.ReachableIf LeavesUnlocked s) : WellFormed s := by
  refine h.invariantFrom (fun _ => reachable_inv) ?_ fun s e s' hi hs _ hn => (next_written hi hn).wellFormed hs
  rintro s ⟨boot, -, rfl⟩
  exact schedInit_wellFormed boot

/-- From `SchedInit` on, with calls that interrupts fall between and not into, and as long as no task leaves under the
scheduler lock: no descriptor has a slice other than 10 or has used it up, a priority above 255 or a name without end,
and the dead ones are blank. -/
theorem descriptors_wellFormed {s : State} (h : system.ReachableIf LeavesUnlocked s) :
    WellFormed s ∧ ∀ c : Call, LeavesUnlocked s (.call c) → ∃ s', c.run s = some s' ∧ WellFormed s' := by
  refine ⟨reachable_wellFormed h, fun c hok => ?_⟩
  obtain ⟨s', hrun, -⟩ := call_inv (reachable_inv h) c hok
  exact ⟨s', hrun, reachable_wellFormed (h.step hok hrun)⟩

/-- A name of 40 letters, nine ticks on the slice of the task that bears it, and a priority of 1000. -/
theorem descriptors_wellFormed_long : ∃ s, system.ReachableIf LeavesUnlocked s ∧ (s.tasks 1).timeUsed = 9 ∧
    (s.tasks 1).name 30 = 65 ∧ (s.tasks 1).priority = 255 ∧ WellFormed s := by
  obtain ⟨s, -, hr, ht⟩ := System.exists_reachableIf LeavesUnlocked system_init
    ((Call.create (some fun i => if i < 40 then 65 else 0) 0 0 :: .setPriority (some 1) 1000 :: .yield ::
      List.replicate 9 (.tick true)).map .call)
    (fun s => (s.tasks 1).timeUsed = 9 ∧ (s.tasks 1).name 30 = 65 ∧ (s.tasks 1).priority = 255) (by decide +kernel)
  obtain ⟨h9, h65, h255⟩ := of_decide_eq_true ht
  exact ⟨s, hr, h9, h65, h255, (descriptors_wellFormed hr).1⟩

/-- What all descriptors together have been charged. -/
def totalRuntime (s : State) : ℕ := ∑ t, (s.tasks t).runtime

/-- What the tasks that a step buries had been charged. -/
def buriedRuntime (s s' : State) : ℕ := ∑ t, if s'.state t = .dead then (s.tasks t).runtime else 0

/-- A task that is still alive was alive before, with the same runtime. -/
structure SameRuntime (s s' : State) : Prop where
  runtime : ∀ u, s'.state u ≠ .dead → s.state u ≠ .dead ∧ (s'.tasks u).runtime = (s.tasks u).runtime
  schedulerTicks : s'.schedulerTicks = s.schedulerTicks

theorem SameRuntime.trans {a b c : State} (h : SameRuntime a b) (h' : SameRuntime b c) : SameRuntime a c where
  runtime u hu :=
    have hb := h'.runtime u hu
    have ha := h.runtime u hb.1
    ⟨ha.1, hb.2.trans ha.2⟩
  schedulerTicks := h'.schedulerTicks.trans h.schedulerTicks

theorem SameRuntime.modTask {s : State} {t : TaskRef} {f : Task → Task} (hr : (f (s.tasks t)).runtime = (s.tasks t).runtime)
    (hst : (f (s.tasks t)).state ≠ .dead → s.state t ≠ .dead) : SameRuntime s (s.modTask t f) where
  runtime u hu := by
    rw [State.state] at hu
    by_cases hut : u = t
    · rw [hut, State.modTask_self] at hu ⊢
      exact ⟨hst hu, hr⟩
    · rw [State.modTask_of_ne s f hut] at hu ⊢
      exact ⟨hu, rfl⟩
  schedulerTicks := rfl

theorem Micro.sameRuntime {s s' : State} (hm : Micro s s') : SameRuntime s s' := by
  cases hm with
  | links nx hd => exact ⟨fun u hu => ⟨hu, rfl⟩, rfl⟩
  | mark ht hst => exact .modTask rfl fun _ => ht
  | stamp t w => exact .modTask rfl id
  | weigh t hp => exact .modTask rfl id
  | save t esp => exact .modTask rfl id
  | @elect t ht =>
    have hel : SameRuntime s (s.modTask t elected) := .modTask rfl fun _ => ht
    exact ⟨hel.runtime, rfl⟩
  | reset t =>
    refine ⟨fun u hu => ?_, rfl⟩
    rw [Ne, reset_dead, not_or] at hu
    exact ⟨hu.2, by rw [schedResetTask, State.modTask_of_ne s resetTask hu.1]⟩
  | other ht hk => exact ⟨fun u hu => by rw [State.state, ht] at hu; exact ⟨hu, by rw [ht]⟩, hk⟩

theorem Micros.sameRuntime {s s' : State} (h : Micros s s') : SameRuntime s s' := by
  induction h with
  | refl => exact ⟨fun u hu => ⟨hu, rfl⟩, rfl⟩
  | tail _ hm ih => exact ih.trans hm.sameRuntime

theorem totalRuntime_buried {s s' : State} (h' : WellFormed s')
    (hr : ∀ u, s'.state u ≠ .dead → (s'.tasks u).runtime = (s.tasks u).runtime) :
    totalRuntime s' + buriedRuntime s s' = totalRuntime s := by
  unfold totalRuntime buriedRuntime
  rw [← Finset.sum_add_distrib]
  refine Finset.sum_congr rfl fun u _ => ?_
  split_ifs with hdead
  · rw [((h' u).blank hdead).2.1, Nat.zero_add]
  · rw [hr u hdead, Nat.add_zero]

theorem totalRuntime_modTask (s : State) (t : TaskRef) (f : Task → Task) :
    totalRuntime (s.modTask t f) + (s.tasks t).runtime = totalRuntime s + (f (s.tasks t)).runtime := by
  unfold totalRuntime
  rw [← Finset.add_sum_erase _ _ (Finset.mem_univ t), ← Finset.add_sum_erase _ (fun u => (s.tasks u).runtime) (Finset.mem_univ t),
    State.modTask_self]
  have hrest : ∑ u ∈ Finset.univ.erase t, ((s.modTask t f).tasks u).runtime =
      ∑ u ∈ Finset.univ.erase t, (s.tasks u).runtime :=
    Finset.sum_congr rfl fun u hu => by rw [State.modTask_of_ne s f (Finset.ne_of_mem_erase hu)]
  rw [hrest]
  omega

theorem totalRuntime_tick (s : State) (c : TaskRef) :
    u32 (totalRuntime (tickCurrent c s)) = u32 (totalRuntime s + 1) := by
  have hone := totalRuntime_modTask s c ticked
  have hzero := totalRuntime_modTask (s.modTask c ticked) c fun item => { item with timeUsed := 0 }
  have hsame : totalRuntime (tickCurrent c s) = totalRuntime (s.modTask c ticked) := by
    unfold tickCurrent
    simp only
    split_ifs
    · exact Nat.add_right_cancel hzero
    · rfl
  have hrun : (ticked (s.tasks c)).runtime = u32 ((s.tasks c).runtime + 1) := rfl
  rw [hsame]
  rw [hrun] at hone
  unfold u32 at hone ⊢
  omega

/-- The scheduler, beside what the tasks that were buried had been charged. -/
def chargedSystem : System (State × ℕ) Event where
  init p := system.init p.1 ∧ p.2 = 0
  next p e := (system.next p.1 e).map fun s' => (s', p.2 + buriedRuntime p.1 s')

theorem Written.charged {s s' : State} {r : ℕ} (hw : Written s s') (h : WellFormed s)
    (hr : s.schedulerTicks = u32 (totalRuntime s + r)) :
    s'.schedulerTicks = u32 (totalRuntime s' + (r + buriedRuntime s s')) := by
  have h' := hw.wellFormed h
  cases hw with
  | small hms =>
    have hsame := hms.sameRuntime
    have hsum := totalRuntime_buried h' fun u hu => (hsame.runtime u hu).2
    rw [hsame.schedulerTicks, hr, ← hsum, Nat.add_right_comm, Nat.add_assoc]
  | @tick c hc hrun =>
    -- nobody is buried, and the dead had nothing
    have hnone : buriedRuntime s (tickCurrent c { s with schedulerTicks := u32 (s.schedulerTicks + 1) }) = 0 := by
      refine Finset.sum_eq_zero fun u _ => ?_
      rw [tickCurrent_state]
      split_ifs with hdead
      · exact ((h u).blank hdead).2.1
      · rfl
    have hticks : ∀ t : State, (tickCurrent c t).schedulerTicks = t.schedulerTicks := by
      intro t
      unfold tickCurrent
      simp only
      split_ifs <;> rfl
    have htotal := totalRuntime_tick { s with schedulerTicks := u32 (s.schedulerTicks + 1) } c
    rw [hnone, hticks]
    rw [show totalRuntime { s with schedulerTicks := u32 (s.schedulerTicks + 1) } = totalRuntime s from rfl] at htotal
    show u32 (s.schedulerTicks + 1) = _
    unfold u32 at *
    omega
  | @birth t s₁ s' name eip esp hpre ht ht₁ hpost =>
    obtain ⟨hother, item, hself⟩ := describeTask_tasks t name eip esp s₁
    have hbefore := hpre.sameRuntime
    have hafter := hpost.sameRuntime
    have hsum := totalRuntime_buried h' (s := s) fun u hu => by
      obtain ⟨hlive, hsame⟩ := hafter.runtime u hu
      rw [hsame]
      by_cases hut : u = t
      · rw [hut, hself, ((h t).blank ht).2.1]
        rfl
      · rw [State.state, hother u hut] at hlive
        rw [hother u hut]
        exact (hbefore.runtime u hlive).2
    rw [hafter.schedulerTicks, show (describeTask t name eip esp s₁).schedulerTicks = s₁.schedulerTicks from rfl,
      hbefore.schedulerTicks, hr, ← hsum, Nat.add_right_comm, Nat.add_assoc]

theorem charged_reachable {p : State × ℕ} (h : chargedSystem.ReachableIf (fun p => LeavesUnlocked p.1) p) :
    system.ReachableIf LeavesUnlocked p.1 := by
  induction h with
  | init h0 => exact .init h0.1
  | step _ hok hn ih =>
    obtain ⟨s', hs', rfl⟩ := Option.map_eq_some_iff.mp hn
    exact .step ih hok hs'

theorem schedInit_runtime (boot : State) : totalRuntime (schedInit boot) = 0 := by
  refine Finset.sum_eq_zero fun t _ => ?_
  by_cases ht : t = 0
  · rw [ht]
    rfl
  · have hblank : (schedInit boot).tasks t = resetTask (boot.tasks t) := Function.update_of_ne ht _ _
    rw [hblank]
    rfl

/-- Every tick that the scheduler counts is charged to one task: the counter is the sum of the runtimes in the table and
of those that the buried took with them, up to the wrap of a word. That is so as long as no task leaves under the
scheduler lock and ticks fall between calls: inside `SchedExit`, before its yield, there is no task to charge. -/
theorem ticks_charged {s : State} {buried : ℕ}
    (h : chargedSystem.ReachableIf (fun p => LeavesUnlocked p.1) (s, buried)) :
    s.schedulerTicks = u32 (totalRuntime s + buried) := by
  refine h.invariantFrom (I := fun p => p.1.schedulerTicks = u32 (totalRuntime p.1 + p.2)) (fun _ => charged_reachable) ?_
    fun p e p' hr hp _ hn => ?_
  · rintro ⟨s, r⟩ ⟨⟨boot, -, rfl⟩, rfl⟩
    rw [schedInit_runtime]
    rfl
  · obtain ⟨s', hs', rfl⟩ := Option.map_eq_some_iff.mp hn
    exact (next_written (reachable_inv hr) hs').charged (reachable_wellFormed hr) hp

/-- The idle task is charged twice, task 1 three times, and task 1 is killed. -/
theorem ticks_charged_killed : ∃ s, chargedSystem.ReachableIf (fun p => LeavesUnlocked p.1) (s, 3) ∧
    (s.tasks 0).runtime = 2 ∧ s.schedulerTicks = u32 (totalRuntime s + 3) := by
  obtain ⟨⟨s, r⟩, -, hr, ht⟩ := System.exists_reachableIf (S := chargedSystem) (fun p => LeavesUnlocked p.1)
    (s := (schedInit bootState, 0)) ⟨system_init, rfl⟩
    ([.tick true, .tick true, createTask, .yield, .tick true, .tick true, .tick true, .yield, .kill 1].map .call)
    (fun p => p.2 = 3 ∧ (p.1.tasks 0).runtime = 2) (by decide +kernel)
  obtain ⟨rfl, h2⟩ := of_decide_eq_true ht
  exact ⟨s, hr, h2, ticks_charged hr⟩

end Novium.Sched
