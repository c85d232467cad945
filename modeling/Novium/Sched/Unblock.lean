import Novium.Sched.Runs

/-! `SchedUnblock` and `SchedWakeTask` test the state of the descriptor while
interrupts are on and move it in a section of its own. What happens between the two
is a gap of the run: timer interrupts and calls of other tasks, among them calls
that wake, kill or recycle the same descriptor. -/

namespace Novium.Sched

open Novium.Lib

/-- The lookup and test that `SchedWakeTask` makes before interrupts are masked. -/
def wakeTest (id : ℕ) (s : State) : Option TaskRef := unblockTest (schedFind id s) s

/-- The rest of the call, in the state it finds behind the gap. -/
def afterTest (test : Option TaskRef) (s : State) : Option State :=
  match test with
  | none => some s
  | some t => unblockSection t s

theorem schedUnblock_eq (item : Option TaskRef) (s : State) :
    schedUnblock item s = afterTest (unblockTest item s) s := rfl

theorem schedWakeTask_eq (id : ℕ) (s : State) : schedWakeTask id s = afterTest (wakeTest id s) s := by
  unfold schedWakeTask wakeTest
  cases schedFind id s <;> rfl

/-- The section where the descriptor is not on the blocked queue any more: its state
becomes ready and it is added to the ready queue, wherever it was. -/
theorem unblockSection_absent {D : Set TaskRef} {s : State} {t : TaskRef} {L : Queue → List TaskRef}
    (hq : Queues D s L) (ht : s.state t ≠ .blocked) :
    unblockSection t s = (schedQueueAdd .ready t ((schedLockIrq s).setState t .ready)).map
      (schedUnlockIrq s.irqsEnabled) := by
  have hrem : schedQueueRemove .blocked t (schedLockIrq s) = some (schedLockIrq s) :=
    (hq.irqs false).remove_absent (Or.inr ht)
  simp only [unblockSection, hrem, Option.bind_eq_bind, Option.bind_some]
  cases schedQueueAdd .ready t ((schedLockIrq s).setState t .ready) <;> rfl

section

variable {s s' : State} {t : TaskRef} {L : Queue → List TaskRef}

theorem section_chains {D : Set TaskRef} (hq : Queues D s L) :
    Chains ((schedLockIrq s).setState t .ready) L := by
  have hn := (schedLockIrq s).modTask_field t (fun item => { item with state := .ready }) (·.next) fun _ => rfl
  intro q
  have hc : Linked (schedLockIrq s).next (s.head q) (L q) := (hq.irqs false).chains q
  rw [show (schedLockIrq s).next = _ from hn.symm] at hc
  cases q <;> exact hc

theorem section_state (u : TaskRef) :
    ((schedLockIrq s).setState t .ready).state u = if u = t then .ready else s.state u :=
  setState_state (schedLockIrq s) t .ready u

theorem unblockSection_running (hp : Partition s) (ht : s.state t = .running)
    (hrun : unblockSection t s = some s') : ¬ Partition s' := by
  obtain ⟨L, hq⟩ := hp.exists_queues (D := ∅) (by simp)
  obtain ⟨c, hc, honly⟩ := hp.current
  obtain rfl : t = c := (honly t).mp ht
  rw [unblockSection_absent hq (by simp [ht])] at hrun
  have hnot : t ∉ L .ready := hq.not_mem (Or.inr (by simp [ht, queueState]))
  obtain ⟨nx, hd, hadd, -⟩ := schedQueueAdd_append (section_chains hq .ready) hnot
  rw [hadd, Option.map_some, Option.some.injEq, schedUnlockIrq_eq] at hrun
  subst hrun
  intro hp'
  obtain ⟨c', hc', honly'⟩ := hp'.current
  obtain rfl : t = c' := Option.some.inj (hc.symm.trans hc')
  have hst : ((schedLockIrq s).setState t .ready).state t = .running := (honly' t).mpr rfl
  rw [section_state, if_pos rfl] at hst
  cases hst

theorem unblockSection_ready (hp : Partition s) (ht : s.state t = .ready)
    (hrun : unblockSection t s = some s') : ¬ Partition s' := by
  obtain ⟨L, hq⟩ := hp.exists_queues (D := ∅) (by simp)
  rw [unblockSection_absent hq (by simp [ht])] at hrun
  obtain ⟨l, m, hlm⟩ := List.append_of_mem (hq.ready (by simp) ht)
  have hch := section_chains (t := t) hq .ready
  rw [hlm] at hch
  obtain ⟨nx, hadd, hself⟩ := schedQueueAdd_twice hch
  rw [hadd, Option.map_some, Option.some.injEq, schedUnlockIrq_eq] at hrun
  subst hrun
  intro hp'
  obtain ⟨L', hch', -, hr, -⟩ := hp'.queues
  have hin : t ∈ L' .ready := (hr t).mpr ((section_state t).trans (if_pos rfl))
  exact (hch' .ready).not_self hin hself

theorem unblockSection_dead (hq : Queues {t} s L) (ht : s.state t = .dead)
    (hrun : unblockSection t s = some s') : ¬ Partition s' := by
  rw [unblockSection_absent hq (by simp [ht])] at hrun
  have hin : t ∈ L .dead := hq.queued t (by simp) .dead (fun _ => rfl) ht
  have hnot : t ∉ L .ready := hq.not_mem (Or.inr (by simp [ht, queueState]))
  obtain ⟨nx, hd, hadd, -, hnx, hhd⟩ := schedQueueAdd_append (section_chains hq .ready) hnot
  rw [hadd, Option.map_some, Option.some.injEq, schedUnlockIrq_eq] at hrun
  subst hrun
  intro hp'
  obtain ⟨L', hch', -, -, -, hdead, -⟩ := hp'.queues
  obtain ⟨l, m, hlm⟩ := List.append_of_mem hin
  have hch := section_chains (t := t) hq .dead
  rw [hlm] at hch
  -- the nodes before `t` are on the dead queue, so the append did not touch them
  have hagree : ∀ a ∈ l, nx a = ((schedLockIrq s).setState t .ready).next a := by
    intro a ha
    have hal : a ∈ L .dead := by simp [hlm, ha]
    refine hnx a (hq.disjoint (q := .dead) (by decide) hal) ?_
    rintro rfl
    exact List.disjoint_of_nodup_append hch.nodup ha (by simp)
  have hl' : Linked nx (hd .dead) (L' .dead) := hch' .dead
  rw [hhd .dead (by decide)] at hl'
  have hst : ((schedLockIrq s).setState t .ready).state t = .dead := hdead t (hch.mem_of_agree hagree hl')
  rw [section_state, if_pos rfl] at hst
  cases hst

end

/-- The descriptor that passed the test is buried on the dead queue if it dies in the
gap, so the gap keeps the invariant for it. -/
theorem gap_inv {s₀ s₁ : State} {t : TaskRef} (h0 : Partition s₀) (ht : s₀.state t = .blocked)
    (hgap : system.Leads LeavesUnlocked s₀ s₁) : Inv {t} s₁ := by
  refine hgap.invariant (fun s e s' hi hok hrun => next_inv hi hok hrun) (h0.inv ?_)
  rintro u rfl
  simp [ht]

theorem afterTest_sound_iff {s₀ s₁ : State} {item test : Option TaskRef} (h0 : Partition s₀)
    (hgap : system.Leads LeavesUnlocked s₀ s₁) (htest : test = unblockTest item s₀) :
    (∃ s', afterTest test s₁ = some s' ∧ Partition s') ↔ ∀ t, test = some t → s₁.state t = .blocked := by
  cases test with
  | none =>
    have hi : Inv ∅ s₁ := hgap.invariant (fun s e s' hi hok hrun => next_inv hi hok hrun) (h0.inv (by simp))
    simp [afterTest, hi.partition]
  | some t =>
    have hi := gap_inv h0 (unblockTest_some htest.symm) hgap
    obtain ⟨L, hq⟩ := hi.queues
    refine ⟨fun ⟨s', hrun, hp⟩ u hu => ?_, fun h => ?_⟩
    · obtain rfl : t = u := Option.some.inj hu
      cases hst : s₁.state t with
      | blocked => rfl
      | ready => exact absurd hp (unblockSection_ready hi.partition hst hrun)
      | running => exact absurd hp (unblockSection_running hi.partition hst hrun)
      | dead => exact absurd hp (unblockSection_dead hq hst hrun)
    · obtain ⟨s', hrun, hi'⟩ := unblockSection_inv hi (h t rfl)
      exact ⟨s', hrun, hi'.partition⟩

/-- Behind any gap in which no task leaves under the scheduler lock, the rest of `SchedUnblock`, or of
`SchedWakeTask`, ends in a partition exactly when the descriptor that passed the test is still blocked. -/
theorem unblock_sound_iff {s₀ s₁ : State} (h0 : Partition s₀) (hgap : system.Leads LeavesUnlocked s₀ s₁)
    (item : Option TaskRef) (id : ℕ) :
    ((∃ s', afterTest (unblockTest item s₀) s₁ = some s' ∧ Partition s') ↔
        ∀ t, unblockTest item s₀ = some t → s₁.state t = .blocked) ∧
      ((∃ s', afterTest (wakeTest id s₀) s₁ = some s' ∧ Partition s') ↔
        ∀ t, wakeTest id s₀ = some t → s₁.state t = .blocked) :=
  ⟨afterTest_sound_iff h0 hgap rfl, afterTest_sound_iff h0 hgap rfl⟩

/-- The idle task has created tasks 1 and 2 and blocked task 1. -/
def oneBlocked : List Event := [createTask, createTask, .blockTask 1].map .call

/-- A gap of one timer interrupt. -/
theorem unblock_sound_tick :
    ∃ s₀ s₁, system.runIf LeavesUnlocked (schedInit bootState) oneBlocked = some s₀ ∧
      system.next s₀ (.call (.tick true)) = some s₁ ∧ unblockTest (some 1) s₀ = some 1 ∧
      ∃ s', afterTest (unblockTest (some 1) s₀) s₁ = some s' ∧ Partition s' := by
  obtain ⟨s₀, hrun, hs, hp⟩ := System.exists_reachableIf LeavesUnlocked system_init oneBlocked
    (fun s => unblockTest (some 1) s = some 1 ∧ (schedTick true s).state 1 = .blocked) (by decide +kernel)
  obtain ⟨htest, hblk⟩ := of_decide_eq_true hp
  have hgap : system.Leads LeavesUnlocked s₀ (schedTick true s₀) :=
    .tail .refl (show LeavesUnlocked s₀ (.call (.tick true)) from fun h => by cases h) rfl
  refine ⟨s₀, schedTick true s₀, hrun, rfl, htest, ?_⟩
  refine ((unblock_sound_iff (reachable_inv hs).partition hgap (some 1) 1).1).mpr fun t ht => ?_
  obtain rfl : 1 = t := Option.some.inj (htest.symm.trans ht)
  exact hblk

/-- The slice of the idle task ends, task 2 runs, wakes task 1 and yields back. -/
def wokenByOther : List Event :=
  List.replicate 10 (.call (.tick true)) ++ [.call .preempt, .call (.wakeTask 1), .call .yield, .finish]

/-- The idle task tests task 1, is preempted by task 2 that wakes task 1, and then
adds it to the ready queue a second time. -/
theorem unblock_gap_unsound :
    ∃ s₀ s₁, system.runIf LeavesUnlocked (schedInit bootState) oneBlocked = some s₀ ∧ Partition s₀ ∧
      system.runIf LeavesUnlocked s₀ wokenByOther = some s₁ ∧
      s₀.currentTask = some 0 ∧ s₁.currentTask = some 0 ∧
      unblockTest (some 1) s₀ = some 1 ∧ wakeTest 1 s₀ = some 1 ∧ s₁.state 1 = .ready ∧
      (¬ ∃ s', afterTest (unblockTest (some 1) s₀) s₁ = some s' ∧ Partition s') ∧
      ¬ ∃ s', afterTest (wakeTest 1 s₀) s₁ = some s' ∧ Partition s' := by
  obtain ⟨s₀, hrun, hs, hp⟩ := System.exists_reachableIf LeavesUnlocked system_init oneBlocked
    (fun s => s.currentTask = some 0 ∧ unblockTest (some 1) s = some 1 ∧ wakeTest 1 s = some 1 ∧
      (system.runIf LeavesUnlocked s wokenByOther).map
        (fun s' => decide (s'.currentTask = some 0 ∧ s'.state 1 = .ready)) = some true) (by decide +kernel)
  obtain ⟨hc0, ht1, ht2, hend⟩ := of_decide_eq_true hp
  obtain ⟨s₁, hgap, hend⟩ := Option.map_eq_some_iff.mp hend
  obtain ⟨hc1, hready⟩ := of_decide_eq_true hend
  have hp0 := (reachable_inv hs).partition
  have hp1 := (gap_inv hp0 (unblockTest_some ht1) (System.Leads.runIf .refl hgap)).partition
  have hbad : ¬ ∃ s', afterTest (some 1) s₁ = some s' ∧ Partition s' :=
    fun ⟨s', h, hp'⟩ => unblockSection_ready hp1 hready h hp'
  exact ⟨s₀, s₁, hrun, hp0, hgap, hc0, hc1, ht1, ht2, hready, by rwa [ht1], by rwa [ht2]⟩

end Novium.Sched
