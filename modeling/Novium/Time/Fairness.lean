import Novium.Sched.Passing
import Novium.Time.Sleep

/-! Preemptive round robin starves nobody. The timer gives every slice an end, and the end of a slice a switch; the
lineup of the ready queue says how many switches a ready task may be passed over in. -/

namespace Novium.Time

open Novium.Lib Novium.Lib.Lineup Novium.Sched

/-- The interrupt of line 0: `timer_callback`, and behind it the `SchedPreempt` at the end of `isr_dispatch`. -/
def timerInterrupt (t : Timer) (s : State) : Option (Timer × State) := do
  let (t, s) ← timerCallback true t s
  let s ← schedPreempt s
  some (t, s)

/-- A run with its counts: how often another task has got the processor, how many tasks have been created, and how many
timer interrupts have found the scheduler unlocked. -/
structure Wait where
  state : State
  passed : ℕ
  born : ℕ
  ticks : ℕ

def Wait.then (w : Wait) (s' : State) (born ticks : ℕ) : Wait :=
  ⟨s', if s'.currentTask = w.state.currentTask then w.passed else w.passed + 1, w.born + born, w.ticks + ticks⟩

def waitSystem (s₀ : State) : System Wait (Event ⊕ Timer) where
  init w := w = ⟨s₀, 0, 0, 0⟩
  next w
    | .inl e => (system.next w.state e).map fun s' => w.then s' (if (e.creates w.state).isSome then 1 else 0) 0
    | .inr t => (timerInterrupt t w.state).map fun p => w.then p.2 0 (if w.state.schedulerLocked = 0 then 1 else 0)

def isTick : Event → Bool
  | .call (.tick _) => true
  | _ => false

/-- The task `u` is ready, under round robin, nobody but the timer calls `SchedTick`, and nobody leaves under the
scheduler lock. -/
def StaysReady (u : TaskRef) (w : Wait) (ev : Event ⊕ Timer) : Prop :=
  w.state.state u = .ready ∧ w.state.currentPolicy = .roundRobin ∧
    ∀ e ∈ ev.getLeft?, isTick e = false ∧ LeavesUnlocked w.state e

instance (u : TaskRef) (w : Wait) (ev : Event ⊕ Timer) : Decidable (StaysReady u w ev) :=
  inferInstanceAs (Decidable (_ ∧ _ ∧ _))

section

variable {D : Set TaskRef} {u : TaskRef} {s s' : State}

theorem schedTick_unlocked {c : TaskRef} (hc : s.currentTask = some c) (hlock : s.schedulerLocked = 0) :
    schedTick true s = tickCurrent c { s with schedulerTicks := u32 (s.schedulerTicks + 1) } := by
  unfold schedTick
  rw [if_neg (by simp [hlock])]
  simp only [hc]

theorem schedTick_locked (hlock : s.schedulerLocked ≠ 0) : schedTick true s = s := by
  unfold schedTick
  rw [if_pos (.inr hlock)]

structure Untouched (s s' : State) : Prop where
  next : s'.next = s.next
  heads : s'.heads = s.heads
  id : s'.id = s.id
  state : s'.state = s.state
  currentTask : s'.currentTask = s.currentTask
  currentPolicy : s'.currentPolicy = s.currentPolicy
  schedulerLocked : s'.schedulerLocked = s.schedulerLocked

theorem tickCurrent_untouched (c : TaskRef) (s : State) : Untouched s (tickCurrent c s) := by
  have h1 := fun {α : Type} => s.modTask_field (α := α) c ticked
  have h2 := fun {α : Type} => (s.modTask c ticked).modTask_field (α := α) c fun item => { item with timeUsed := 0 }
  unfold tickCurrent
  simp only
  split_ifs
  · exact ⟨(h2 (·.next) fun _ => rfl).trans (h1 (·.next) fun _ => rfl), rfl,
      (h2 (·.id) fun _ => rfl).trans (h1 (·.id) fun _ => rfl),
      (h2 (·.state) fun _ => rfl).trans (h1 (·.state) fun _ => rfl), rfl, rfl, rfl⟩
  · exact ⟨h1 (·.next) fun _ => rfl, rfl, h1 (·.id) fun _ => rfl, h1 (·.state) fun _ => rfl, rfl, rfl, rfl⟩

theorem schedTick_untouched (hi : Inv D s) : Untouched s (schedTick true s) := by
  obtain ⟨c, hc, -⟩ := hi.current
  by_cases hlock : s.schedulerLocked = 0
  · rw [schedTick_unlocked hc hlock]
    have h := tickCurrent_untouched c { s with schedulerTicks := u32 (s.schedulerTicks + 1) }
    exact ⟨h.next, h.heads, h.id, h.state, h.currentTask, h.currentPolicy, h.schedulerLocked⟩
  · rw [schedTick_locked hlock]
    exact ⟨rfl, rfl, rfl, rfl, rfl, rfl, rfl⟩

theorem schedTick_slice {c : TaskRef} (hw : WellFormed s) (hc : s.currentTask = some c) (hlock : s.schedulerLocked = 0) :
    ((schedTick true s).tasks c).timeUsed = (s.tasks c).timeUsed + 1 ∨ (schedTick true s).preemptPending = true := by
  rw [schedTick_unlocked hc hlock]
  unfold tickCurrent
  simp only
  split_ifs
  · exact .inr rfl
  · refine .inl ?_
    rw [State.modTask_self]
    have hsmall : (s.tasks c).timeUsed + 1 < 2 ^ 32 := by
      have hused := (hw c).timeUsed
      omega
    exact u32_of_lt hsmall

theorem Untouched.shift (h : Untouched s s') : Shift u 0 0 s s' := by
  intro R hR _
  refine ⟨R, ?_, ?_⟩
  · rw [h.next, show s'.readyQueue = s.readyQueue from congrArg Prod.fst h.heads]
    exact hR
  · unfold State.lineup
    rw [h.currentTask, h.id]
    exact .nil _

/-- A timer interrupt ends in a switch, or it is one more of the slice. -/
theorem timerInterrupt_passes {t t' : Timer} (hi : Inv D s) (hw : WellFormed s) (hp : s.currentPolicy = .roundRobin)
    (hu : s.state u = .ready) (hu' : s'.state u = .ready) (h : timerInterrupt t s = some (t', s')) :
    PassedOver u s s' ∨ Shift u 0 0 s s' ∧ s'.currentTask = s.currentTask ∧ ∀ c, s.currentTask = some c →
      (s'.tasks c).timeUsed = (s.tasks c).timeUsed + if s.schedulerLocked = 0 then 1 else 0 := by
  obtain ⟨⟨t₂, s₂⟩, hcall, h⟩ := Option.bind_eq_some_iff.mp h
  obtain ⟨s₃, hpre, h⟩ := Option.bind_eq_some_iff.mp h
  cases h
  obtain ⟨⟨s₂', n⟩, hwake, hcall⟩ := Option.bind_eq_some_iff.mp hcall
  cases hcall
  have htick := schedTick_untouched hi
  have hslice := fun c => schedTick_slice (c := c) hw
  have hsame := schedTick_locked (s := s)
  have hi₁ := schedTick_inv hi true
  generalize schedTick true s = s₁ at hwake htick hslice hsame hi₁
  obtain ⟨L, hq⟩ := hi₁.queues
  obtain ⟨s₂', hrun, hwoken⟩ := schedWakeExpired_spec hq.chains (hi₁.partition.nodup hq.chains) (u32 (t.tickCount + 1))
  cases hrun.symm.trans hwake
  have hdrift : Drift u 0 s₁ s₂ := hwoken.drift (hq.chains .ready)
  have hpend : s₂.preemptPending = s₁.preemptPending := by rw [hwoken.rest]
  have hlck : s₂.schedulerLocked = s.schedulerLocked := by rw [hwoken.rest, ← htick.schedulerLocked]
  have hpol : s₂.currentPolicy = .roundRobin := by rw [hwoken.rest, ← hp, ← htick.currentPolicy]
  have hready : s₂.state u = .ready := by
    unfold State.state
    rw [hwoken.tasks u]
    split_ifs
    · rfl
    · exact (congrFun htick.state u).trans hu
  obtain ⟨s₂', n', hrun', hi₂, -⟩ := schedWakeExpired_inv hi₁ (u32 (t.tickCount + 1))
  cases hrun'.symm.trans hwake
  have hshift : Shift u 0 0 s s₂ := htick.shift.trans hdrift.moves
  have hcur : s₂.currentTask = s.currentTask := hdrift.current.trans htick.currentTask
  obtain ⟨hno, hlast⟩ | ⟨-, -, x, hx, hserved⟩ := hi₂.preempt_passes hpol hready hu' hpre
  · refine .inr ⟨hshift.trans hlast.moves, hlast.current.trans hcur, fun c hc => ?_⟩
    rw [hlast.timeUsed c (hcur.trans hc), hdrift.timeUsed c (htick.currentTask.trans hc)]
    split_ifs with hlock
    · obtain hused | hover := hslice c hc hlock
      · exact hused
      · exact absurd (hno.resolve_right (not_not.mpr (hlck.trans hlock))) (by rw [hpend, hover]; decide)
    · rw [hsame hlock]
      rfl
  · exact .inl ⟨x, by rwa [← hcur], hserved.current, hserved.timeUsed, hshift.trans hserved.moves⟩

end

theorem timerInterrupt_reachable {s s' : State} {t t' : Timer} (hr : system.ReachableIf LeavesUnlocked s)
    (h : timerInterrupt t s = some (t', s')) : system.ReachableIf LeavesUnlocked s' := by
  obtain ⟨⟨t₂, s₂⟩, hcall, h⟩ := Option.bind_eq_some_iff.mp h
  obtain ⟨s₃, hpre, h⟩ := Option.bind_eq_some_iff.mp h
  cases h
  obtain ⟨⟨s₂', n⟩, hwake, hcall⟩ := Option.bind_eq_some_iff.mp hcall
  cases hcall
  have htick := hr.step (e := .call (.tick true)) nofun rfl
  have hwoken := htick.step (e := .call (.wakeExpired (u32 (t.tickCount + 1)))) nofun (congrArg (Option.map Prod.fst) hwake)
  exact hwoken.step (e := .call .preempt) nofun hpre

section

variable {u : TaskRef} {s s' : State} {place : ℕ} {w : Wait}

/-- The balance of a wait: the switches are paid for by the place in the lineup and the new tasks, and the timer
interrupts by ten to a switch and those of the slice that runs. -/
structure Balance (u : TaskRef) (place : ℕ) (w : Wait) : Prop where
  ready : ∃ R, Linked w.state.next w.state.readyQueue R ∧ u ∈ R ∧ (w.state.lineup R).wait u + w.passed ≤ place + w.born
  slice : ∀ c, w.state.currentTask = some c → w.ticks ≤ 10 * w.passed + (w.state.tasks c).timeUsed

theorem Balance.passedOver (h : Balance u place w) (hr : system.ReachableIf LeavesUnlocked w.state)
    (hpassed : PassedOver u w.state s') (n : ℕ) {i : ℕ} (hi : i ≤ 1) : Balance u place (w.then s' n i) := by
  obtain ⟨x, hx, hserved⟩ := hpassed
  have hne : s'.currentTask ≠ w.state.currentTask := by
    rw [hserved.current]
    exact hx.symm
  obtain ⟨R, hR, huR, hle⟩ := h.ready
  obtain ⟨R', hR', hmoves⟩ := hserved.moves R hR huR
  obtain ⟨hin, hwait⟩ := hmoves.wait huR
  unfold Wait.then
  rw [if_neg hne]
  refine ⟨⟨R', hR', hin, ?_⟩, fun c _ => ?_⟩
  · simp only
    omega
  · obtain ⟨c₀, hc₀, -⟩ := (reachable_inv hr).current
    have hpaid := h.slice c₀ hc₀
    have hused := (reachable_wellFormed hr c₀).timeUsed
    simp only
    omega

theorem Balance.stays {n i : ℕ} (h : Balance u place w) (hshift : Shift u 0 n w.state s')
    (hcur : s'.currentTask = w.state.currentTask)
    (hused : ∀ c, w.state.currentTask = some c → (s'.tasks c).timeUsed = (w.state.tasks c).timeUsed + i) :
    Balance u place (w.then s' n i) := by
  obtain ⟨R, hR, huR, hle⟩ := h.ready
  obtain ⟨R', hR', hmoves⟩ := hshift R hR huR
  obtain ⟨hin, hwait⟩ := hmoves.wait huR
  unfold Wait.then
  rw [if_pos hcur]
  refine ⟨⟨R', hR', hin, ?_⟩, fun c hc => ?_⟩
  · simp only
    omega
  · have hpaid := h.slice c (hcur.symm.trans hc)
    simp only
    rw [hused c (hcur.symm.trans hc)]
    omega

theorem waited_reachable {s₀ : State} (hr : system.ReachableIf LeavesUnlocked s₀)
    (h : (waitSystem s₀).ReachableIf (StaysReady u) w) : system.ReachableIf LeavesUnlocked w.state := by
  refine h.invariant (I := fun w => system.ReachableIf LeavesUnlocked w.state) ?_ fun w ev w' hr hok hn => ?_
  · rintro w rfl
    exact hr
  · cases ev with
    | inl e =>
      obtain ⟨s', hs', rfl⟩ := Option.map_eq_some_iff.mp hn
      exact hr.step (hok.2.2 e rfl).2 hs'
    | inr t =>
      obtain ⟨⟨t', s'⟩, hirq, rfl⟩ := Option.map_eq_some_iff.mp hn
      exact timerInterrupt_reachable hr hirq

theorem Balance.step {w' : Wait} {ev : Event ⊕ Timer} {s₀ : State} (h : Balance u place w)
    (hr : system.ReachableIf LeavesUnlocked w.state) (hok : StaysReady u w ev) (hn : (waitSystem s₀).next w ev = some w')
    (hu' : w'.state.state u = .ready) : Balance u place w' := by
  obtain ⟨hu, hp, hproper⟩ := hok
  have hi := reachable_inv hr
  cases ev with
  | inl e =>
    obtain ⟨hticks, hleaves⟩ := hproper e rfl
    have htick : ∀ regs, e ≠ .call (.tick regs) := by
      intro regs he
      rw [he] at hticks
      cases hticks
    obtain ⟨s', hs', rfl⟩ := Option.map_eq_some_iff.mp hn
    obtain hdrift | hpassed := next_passes hi hleaves hp htick hu hu' hs'
    · exact h.stays hdrift.moves hdrift.current hdrift.timeUsed
    · exact h.passedOver hr hpassed _ (Nat.zero_le 1)
  | inr t =>
    obtain ⟨⟨t', s'⟩, hirq, rfl⟩ := Option.map_eq_some_iff.mp hn
    obtain hpassed | ⟨hshift, hcur, hused⟩ := timerInterrupt_passes hi (reachable_wellFormed hr) hp hu hu' hirq
    · exact h.passedOver hr hpassed 0 (by split_ifs <;> decide)
    · exact h.stays hshift hcur hused

end

theorem idxOf_le_along {next : TaskRef → Option TaskRef} {h : Option TaskRef} {l R : List TaskRef} {a : TaskRef}
    (hl : Along next h l (some a)) (hR : Linked next h R) : R.idxOf a ≤ l.length := by
  induction l generalizing h R with
  | nil =>
    rw [hR.head_eq] at hl
    obtain ⟨m, rfl⟩ := List.head?_eq_some_iff.mp hl
    rw [List.idxOf_cons_self]
    exact Nat.zero_le _
  | cons c l ih =>
    obtain ⟨hc, hl⟩ := hl
    rw [hR.head_eq] at hc
    obtain ⟨m, rfl⟩ := List.head?_eq_some_iff.mp hc
    have hrest := ih hl hR.2
    by_cases hca : c = a
    · rw [hca, List.idxOf_cons_self]
      exact Nat.zero_le _
    · rw [List.idxOf_cons_ne m hca]
      exact Nat.succ_le_succ hrest

/-- Bounded waiting. A task with `l` before it on the ready queue that stays ready under round robin, whoever comes and
goes, is passed over less than 32 times for each place, its own included, and once more for each new task; and less than
ten timer interrupts go by between two switches. Calls are whole, with interrupts between them and not inside, and no task
leaves under the scheduler lock: either could drop ready tasks from the queue. -/
theorem ready_task_served {s₀ : State} {u : TaskRef} {l : List TaskRef} {w : Wait}
    (hr : system.ReachableIf LeavesUnlocked s₀) (hl : Along s₀.next s₀.readyQueue l (some u))
    (h : (waitSystem s₀).ReachableIf (StaysReady u) w) (hu : w.state.state u = .ready) :
    w.passed < 32 * (l.length + 1) + w.born ∧ w.ticks < 10 * (w.passed + 1) := by
  obtain ⟨L, hq⟩ := (reachable_inv hr).queues
  have huL : u ∈ L .ready := (hq.chains .ready).along_iff.mp ⟨l, hl⟩
  have hbalance : w.state.state u = .ready → Balance u ((s₀.lineup (L .ready)).wait u) w := by
    refine h.invariantFrom (I := fun w => w.state.state u = .ready → Balance u ((s₀.lineup (L .ready)).wait u) w)
      (fun _ h => waited_reachable hr h) ?_ fun w ev w' hrw hb hok hn => ?_
    · intro w hinit _
      obtain rfl := hinit
      exact ⟨⟨L .ready, hq.chains .ready, huL, le_rfl⟩, fun c _ => Nat.zero_le _⟩
    · exact (hb hok.1).step hrw hok hn
  obtain ⟨⟨R, -, -, hle⟩, hslice⟩ := hbalance hu
  have hplace := idxOf_le_along hl (hq.chains .ready)
  have hwait : (s₀.lineup (L .ready)).wait u < ((L .ready).idxOf u + 1) * 32 := wait_lt u (s₀.lineup (L .ready)) (by decide)
  have hrw := waited_reachable hr h
  obtain ⟨c, hc, -⟩ := (reachable_inv hrw).current
  have hpaid := hslice c hc
  have hused := (reachable_wellFormed hrw c).timeUsed
  constructor <;> omega

/-- Ten timer interrupts, a new task and four more of them: task 2 is still behind task 1. -/
theorem ready_task_served_second : ∃ (s₀ : State) (w : Wait), system.ReachableIf LeavesUnlocked s₀ ∧
    (waitSystem s₀).ReachableIf (StaysReady 2) w ∧ (w.passed = 1 ∧ w.born = 1 ∧ w.ticks = 14) ∧
      w.passed < 32 * 2 + w.born ∧ w.ticks < 10 * (w.passed + 1) := by
  let timer : Event ⊕ Timer := .inr ⟨0, 100, 11931, Arch.picInit Arch.bootPic⟩
  let events := List.replicate 10 timer ++ [.inl (.call createTask)] ++ List.replicate 4 timer
  obtain ⟨s₀, -, hr, ht⟩ := System.exists_reachableIf LeavesUnlocked system_init [.call createTask, .call createTask]
    (fun s => s.readyQueue = some 1 ∧ s.next 1 = some 2 ∧
      ((waitSystem s).runIf (StaysReady 2) ⟨s, 0, 0, 0⟩ events).map
        (fun w => decide (w.state.state 2 = .ready ∧ w.passed = 1 ∧ w.born = 1 ∧ w.ticks = 14)) = some true)
    (by decide +kernel)
  obtain ⟨h1, h2, hrun⟩ := of_decide_eq_true ht
  obtain ⟨w, -, hw, hcount⟩ := System.exists_reachableIf (S := waitSystem s₀) (StaysReady 2) rfl events _ hrun
  obtain ⟨hu, hcount⟩ := of_decide_eq_true hcount
  exact ⟨s₀, w, hr, hw, hcount, ready_task_served (l := [1]) hr ⟨h1, h2⟩ hw hu⟩

end Novium.Time
