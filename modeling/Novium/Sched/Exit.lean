import Novium.Sched.Runs

/-! Leaving the processor for good. `SchedExit` gives its descriptor up and yields;
when the yield refuses because `SchedulerLocked` is not 0, the code behind it makes
the idle task current without taking it off the ready queue. -/

namespace Novium.Sched

open Novium.Lib

/-- A call that returns, to a partition with a current task. -/
def EndsSound (r : Option State) : Prop := ∃ s', r = some s' ∧ Partition s' ∧ s'.currentTask ≠ none

theorem Inv.endsSound {D : Set TaskRef} {r : Option State} (h : ∃ s', r = some s' ∧ Inv D s') : EndsSound r := by
  obtain ⟨s', hr, hi⟩ := h
  obtain ⟨c, hc, -⟩ := hi.current
  exact ⟨s', hr, hi.partition, by simp [hc]⟩

theorem schedExit_sound {s : State} (h : Partition s) (hlock : s.schedulerLocked = 0) :
    EndsSound (schedExit s) :=
  Inv.endsSound (schedExit_inv (h.inv (D := ∅) (by simp)) hlock)

/-- Under the lock the idle task ends up current and still on the ready queue. -/
theorem schedExit_locked {s : State} {c : TaskRef} (h : Partition s) (hc : s.currentTask = some c)
    (h0 : s.id c ≠ 0) (hlock : s.schedulerLocked ≠ 0) :
    ∃ s', schedExit s = some s' ∧ s'.currentTask = some 0 ∧ s'.state 0 = .running ∧
      ∃ l, Linked s'.next s'.readyQueue l ∧ 0 ∈ l := by
  obtain ⟨s₁, h1, hcore, hnone, hl, hidle, -⟩ := schedExit_enter (h.inv (D := ∅) (by simp)) hc h0
  obtain ⟨L, hq⟩ := hcore.queues
  rcases schedYieldIn_cases [.exit] hq (by simp [hnone]) hcore.running with ⟨hret, -⟩ | ⟨hl0, -⟩
  · have hfin : resume [.exit] s₁ = some { s₁.setState 0 .running with currentTask := some 0 } := by
      simp only [resume, List.foldlM_cons, List.foldlM_nil, finishFrame, hnone]
      rfl
    refine ⟨_, h1.trans (hret.trans hfin), rfl, ?_, L .ready, ?_, hq.ready (by simp) hidle⟩
    · exact (setState_state s₁ 0 .running 0).trans (if_pos rfl)
    · have hn := s₁.modTask_field 0 (fun item => { item with state := .running }) (·.next) fun _ => rfl
      have hch : Linked s₁.next s₁.readyQueue (L .ready) := hq.chains .ready
      rwa [show s₁.next = _ from hn.symm] at hch
  · exact absurd (hl.symm.trans hl0) hlock

theorem schedExit_unsound {s : State} {c : TaskRef} (h : Partition s) (hc : s.currentTask = some c)
    (h0 : s.id c ≠ 0) (hlock : s.schedulerLocked ≠ 0) : ¬ EndsSound (schedExit s) := by
  obtain ⟨s', hrun, hcur, -, l, hl, hin⟩ := schedExit_locked h hc h0 hlock
  rintro ⟨s'', hrun', hp, -⟩
  obtain rfl : s' = s'' := Option.some.inj (hrun.symm.trans hrun')
  obtain ⟨L, hch, -, -, -, -, hoff⟩ := hp.queues
  have hready : l = L .ready := hl.unique (hch .ready)
  exact hoff 0 hcur .ready (hready ▸ hin)

theorem schedKill_self {s : State} {c : TaskRef} (hc : s.currentTask = some c) (h0 : s.id c ≠ 0) :
    schedKill (s.id c) s = schedExit s := by
  simp [schedKill, hc, h0]

/-- A task other than idle leaves soundly exactly when scheduling is not locked. -/
theorem leaving_sound_iff {s : State} {c : TaskRef} (h : Partition s) (hc : s.currentTask = some c)
    (h0 : s.id c ≠ 0) :
    (EndsSound (schedExit s) ↔ s.schedulerLocked = 0) ∧
      (EndsSound (schedKill (s.id c) s) ↔ s.schedulerLocked = 0) := by
  rw [schedKill_self hc h0]
  have hiff : EndsSound (schedExit s) ↔ s.schedulerLocked = 0 := by
    refine ⟨fun hs => ?_, schedExit_sound h⟩
    by_contra hlock
    exact schedExit_unsound h hc h0 hlock hs
  exact ⟨hiff, hiff⟩

theorem leaving_sound_unlocked :
    ∃ s, system.runIf LeavesUnlocked (schedInit bootState) ([createTask, .yield].map .call) = some s ∧
      EndsSound (schedExit s) ∧ EndsSound (schedKill (s.id 1) s) := by
  obtain ⟨s, hrun, hs, hp⟩ := System.exists_reachableIf LeavesUnlocked system_init
    ([createTask, .yield].map .call)
    (fun s => s.currentTask = some 1 ∧ s.id 1 ≠ 0 ∧ s.schedulerLocked = 0) (by decide +kernel)
  obtain ⟨hc, h0, hl⟩ := of_decide_eq_true hp
  obtain ⟨hexit, hkill⟩ := leaving_sound_iff (reachable_inv hs).partition hc h0
  exact ⟨s, hrun, hexit.mpr hl, hkill.mpr hl⟩

/-- One task beside idle, running, exits while it holds the scheduler lock. -/
theorem locked_exit_unsound :
    ∃ s, system.runIf LeavesUnlocked (schedInit bootState) ([createTask, .yield, .lock].map .call) = some s ∧
      Partition s ∧ s.currentTask = some 1 ∧ s.id 1 ≠ 0 ∧ ¬ EndsSound (schedExit s) ∧
      ¬ EndsSound (schedKill (s.id 1) s) := by
  obtain ⟨s, hrun, hs, hp⟩ := System.exists_reachableIf LeavesUnlocked system_init
    ([createTask, .yield, .lock].map .call)
    (fun s => s.currentTask = some 1 ∧ s.id 1 ≠ 0 ∧ s.schedulerLocked = 1) (by decide +kernel)
  obtain ⟨hc, h0, hl⟩ := of_decide_eq_true hp
  have hpart := (reachable_inv hs).partition
  have hbad := schedExit_unsound hpart hc h0 (by omega)
  exact ⟨s, hrun, hpart, hc, h0, hbad, by rwa [schedKill_self hc h0]⟩

end Novium.Sched
