import Novium.Sched.Waiting

/-! What each event does to a task that is ready before and after it: either the ready queue changes around it while the
current task goes on in its slice, or another task gets the processor. -/

namespace Novium.Sched

open Novium.Lib Novium.Lib.Lineup

variable {D : Set TaskRef} {s s' s₁ : State} {L : Queue → List TaskRef} {t : TaskRef} {b : ℕ}

theorem Queues.off_line {x : TaskRef} (hq : Queues D s L) (hx : s.state x ≠ .dead) :
    ∃ nx₁ hd₁ nx hd L₁, schedQueueRemove .ready x s = some (s.setLinks nx₁ hd₁) ∧
      schedQueueRemove .blocked x (s.setLinks nx₁ hd₁) = some (s.setLinks nx hd) ∧
      QueuesOff D {x} (s.setLinks nx hd) L₁ ∧ L₁ .ready = (L .ready).erase x := by
  have hself : (insert x ∅ : Set TaskRef) = {x} := by simp
  by_cases hready : s.state x = .ready
  · obtain ⟨nx, hd, h1, hq1⟩ := hq.detach (q := .ready) hready
    have h2 := hq1.remove_absent (t := x) (q := .blocked) (.inl (Set.mem_insert x ∅))
    exact ⟨nx, hd, nx, hd, _, h1, h2, hself ▸ hq1, Function.update_self _ _ _⟩
  · have h1 := hq.remove_absent (t := x) (q := .ready) (.inr hready)
    have hline : (L .ready).erase x = L .ready := List.erase_of_not_mem (hq.not_mem (.inr hready))
    by_cases hblk : s.state x = .blocked
    · obtain ⟨nx, hd, h2, hq2⟩ := hq.detach (q := .blocked) hblk
      exact ⟨s.next, s.head, nx, hd, _, h1, h2, hself ▸ hq2, (Function.update_of_ne (by decide) _ _).trans hline.symm⟩
    · have h2 := hq.remove_absent (t := x) (q := .blocked) (.inr hblk)
      have hrun : s.state x = .running := by
        cases hst : s.state x <;> simp_all
      exact ⟨s.next, s.head, s.next, s.head, L, h1, h2, hself ▸ hq.lift hrun, hline.symm⟩

theorem bury_line {x : TaskRef} (hq : Queues D s L) (hx : s.state x ≠ .dead) (h : bury x s = some s') :
    ∃ L', Queues D s' L' ∧ L' .ready = (L .ready).erase x ∧ s'.id = Function.update s.id x 0 ∧
      s'.currentTask = s.currentTask ∧ s'.currentPolicy = s.currentPolicy ∧ s'.schedulerLocked = s.schedulerLocked ∧
      (∀ u, s'.state u = if u = x then .dead else s.state u) ∧
      ∀ u, u ≠ x → (s'.tasks u).timeUsed = (s.tasks u).timeUsed := by
  obtain ⟨nx₁, hd₁, nx, hd, L₁, h1, h2, hq1, hline⟩ := hq.off_line hx
  have hq2 := hq1.modTask (Set.mem_singleton x) resetTask
  have hst := reset_state (s.setLinks nx hd) x
  obtain ⟨nx', hd', h3, hq3⟩ := hq2.attach (q := .dead) (Set.mem_singleton x) ((hst x).trans (if_pos rfl))
  rw [Set.sdiff_self] at hq3
  simp only [bury, h1, h2, Option.bind_eq_bind, Option.bind_some] at h
  rw [show schedQueueAdd .dead x (schedResetTask x (s.setLinks nx hd)) = _ from h3] at h
  obtain rfl := Option.some.inj h
  rw [dropCount_eq]
  refine ⟨_, hq3.congr rfl rfl rfl, ?_, funext fun u => ?_, rfl, rfl, rfl, hst, fun u hu => ?_⟩
  · exact (Function.update_of_ne (by decide) _ _).trans hline
  · have hid := (s.setLinks nx hd).modTask_id x resetTask u
    by_cases hu : u = x
    · rw [hu, Function.update_self]
      rw [hu, if_pos rfl] at hid
      exact hid
    · rw [Function.update_of_ne hu]
      rw [if_neg hu] at hid
      exact hid
  · have hused : (((s.setLinks nx hd).modTask x resetTask).tasks u).timeUsed = (s.tasks u).timeUsed := by
      rw [State.modTask_of_ne _ _ hu]
      rfl
    exact hused

theorem Inv.exit_passes (hi : Inv D s) (hp : s.currentPolicy = .roundRobin) (hlock : s.schedulerLocked = 0)
    (ht : s.state t = .ready) (ht' : s'.state t = .ready) (h : schedExit s = some s') :
    Drift t 0 s s' ∨ PassedOver t s s' := by
  obtain ⟨c, hc, hrun⟩ := hi.current
  have htc : t ≠ c := fun e => by
    rw [e, hrun] at ht
    cases ht
  unfold schedExit at h
  simp only [hc] at h
  split_ifs at h with h0
  · cases h
    exact .inl (Still.refl s).drift
  · obtain ⟨s₁, hbury, hyield⟩ := Option.bind_eq_some_iff.mp h
    have hi₀ : Inv D (schedLockIrq s) := hi.irqs false
    obtain ⟨L, hq⟩ := hi₀.queues
    have hlive : (schedLockIrq s).state c ≠ .dead := fun hd => by
      rw [show s.state c = .dead from hd] at hrun
      cases hrun
    obtain ⟨L₁, hq₁, hline, hid, -, hpol, hlck, hst, -⟩ := bury_line hq hlive hbury
    have hq₂ : Queues D { s₁ with currentTask := none } L₁ := hq₁.congr rfl rfl rfl
    have hlast : State.lineup { s₁ with currentTask := none } (L₁ .ready) =
        ⟨none, (L .ready).erase c, Function.update s.id c 0⟩ := by
      rw [hline]
      exact congrArg (Lineup.mk none ((L .ready).erase c)) hid
    have hgone : Shift t 0 0 s { s₁ with currentTask := none } := by
      refine Shift.of_chains hq.chains hq₂.chains ?_
      have hvacate : Moves t 0 0 (s.lineup (L .ready)) ⟨none, L .ready, s.id⟩ := Move.vacate.moves
      have hleave : Moves t 0 0 ⟨none, L .ready, s.id⟩ ⟨none, (L .ready).erase c, s.id⟩ := (Move.leave htc.symm).moves
      have hlower : Moves t 0 0 ⟨none, (L .ready).erase c, s.id⟩ ⟨none, (L .ready).erase c, Function.update s.id c 0⟩ :=
        (Move.lower (r := ⟨none, (L .ready).erase c, s.id⟩) (by simp) (Nat.zero_le _)).moves
      rw [hlast]
      exact hvacate.trans (hleave.trans hlower)
    have hstill := still_unlockIrq s.irqsEnabled { s₁ with currentTask := none }
    have hq₃ := hq₂.congr hstill.next hstill.heads hstill.state
    have hpol₃ : (schedUnlockIrq s.irqsEnabled { s₁ with currentTask := none }).currentPolicy = .roundRobin := by
      rw [schedUnlockIrq_eq]
      exact hpol.trans hp
    have hlck₃ : (schedUnlockIrq s.irqsEnabled { s₁ with currentTask := none }).schedulerLocked = 0 := by
      rw [schedUnlockIrq_eq]
      exact hlck.trans hlock
    generalize schedUnlockIrq s.irqsEnabled { s₁ with currentTask := none } = s₃ at hyield hstill hq₃ hpol₃ hlck₃
    have hst₃ : ∀ u, s₃.state u = if u = c then .dead else s.state u := fun u => (congrFun hstill.state u).trans (hst u)
    have hnone : ∀ u, s₃.currentTask = some u → s₃.state u ≠ .ready := by
      intro u hu
      rw [hstill.currentTask] at hu
      cases hu
    obtain ⟨hl, -⟩ | ⟨-, x, hx, hserved⟩ :=
      schedYieldIn_serves hq₃ hpol₃ hnone ((hst₃ t).trans ((if_neg htc).trans ht)) ht' hyield
    · exact absurd hlck₃ hl
    · have hxc : s.currentTask ≠ some x := by
        intro hcx
        obtain rfl := Option.some.inj (hc.symm.trans hcx)
        rw [hst₃, if_pos rfl] at hx
        cases hx
      have hmoves : Shift t 0 0 s s₃ := hgone.trans (Still.drift hstill).moves
      exact .inr ⟨x, hxc, hserved.current, hserved.timeUsed, hmoves.trans hserved.moves⟩

theorem bury_drift {x c : TaskRef} (hq : Queues D s L) (hx : s.state x ≠ .dead) (hc : s.currentTask = some c)
    (hcx : c ≠ x) (hxt : x ≠ t) (h : bury x s = some s') : Drift t 0 s s' := by
  obtain ⟨L', hq', hline, hid, hcur, -, -, -, hused⟩ := bury_line hq hx h
  refine ⟨hcur, fun u hu => hused u ?_, Shift.of_chains hq.chains hq'.chains ?_⟩
  · rw [hc] at hu
    cases hu
    exact hcx
  · have hleave : Moves t 0 0 (s.lineup (L .ready)) ⟨s.currentTask, (L .ready).erase x, s.id⟩ := (Move.leave hxt).moves
    have hholder : Lineup.holder ⟨s.currentTask, (L .ready).erase x, s.id⟩ ≠ some x := by
      rw [hc]
      exact fun e => hcx (Option.some.inj e)
    unfold State.lineup at hleave ⊢
    rw [hcur, hline, hid]
    exact hleave.trans (Move.lower hholder (Nat.zero_le _)).moves

/-- `SchedKill` is the exit of the caller, or takes another task than `t` out of the lineup. -/
theorem Inv.kill_passes {id : ℕ} (hi : Inv D s) (hp : s.currentPolicy = .roundRobin)
    (hok : LeavesUnlocked s (.call (.kill id))) (ht : s.state t = .ready) (ht' : s'.state t = .ready)
    (h : schedKill id s = some s') : Drift t 0 s s' ∨ PassedOver t s s' := by
  obtain ⟨c, hc, hrun⟩ := hi.current
  unfold schedKill at h
  split_ifs at h with h0 hself
  · cases h
    exact .inl (Still.refl s).drift
  · exact hi.exit_passes hp (hok hself) ht ht' h
  · cases hfind : schedFind id (schedLockIrq s) with
    | none =>
      simp only [hfind, schedUnlockIrq_schedLockIrq] at h
      cases h
      exact .inl (Still.refl s).drift
    | some x =>
      obtain ⟨hlive, hid⟩ := schedFind_some hfind
      simp only [hfind, schedUnlockIrq_schedLockIrq] at h
      rw [if_neg (by rw [hid]; exact h0)] at h
      obtain ⟨s₁, hbury, h⟩ := Option.bind_eq_some_iff.mp h
      obtain rfl := Option.some.inj h
      have hcx : c ≠ x := by
        intro e
        apply hself
        rw [hc, e]
        exact decide_eq_true hid
      have hi₀ : Inv D (schedLockIrq s) := hi.irqs false
      obtain ⟨L, hq⟩ := hi₀.queues
      have hstill := still_unlockIrq s.irqsEnabled s₁
      have hxt : x ≠ t := by
        intro e
        obtain ⟨-, -, -, -, -, -, -, hst, -⟩ := bury_line hq hlive hbury
        rw [hstill.state, ← e, hst, if_pos rfl] at ht'
        cases ht'
      exact .inl ((still_lockIrq s).drift.trans ((bury_drift hq hlive hc hcx hxt hbury).trans hstill.drift))

theorem Inv.create_drift {name : Option (ℕ → UInt8)} {eip esp : ℕ} {r : Option TaskRef} (hi : Inv D s)
    (h : schedCreate name eip esp s = some (s', r)) : Drift t (if r.isSome then 1 else 0) s s' := by
  obtain ⟨rfl, rfl⟩ | ⟨label, x, s₁, s₂, rfl, hdead, h1, h2, rfl⟩ := schedCreate_outcome h
  · exact (Still.refl s').drift
  obtain ⟨c, hc, hrun⟩ := hi.current
  have hi₀ : Inv D (schedLockIrq s) := hi.irqs false
  obtain ⟨L, hq⟩ := hi₀.queues
  obtain ⟨nx, hd, h1', hq1⟩ := hq.detach (q := .dead) hdead
  obtain rfl := Option.some.inj (h1.symm.trans h1')
  have hq2 := hq1.describeTask label eip esp (Set.mem_insert x ∅)
  have hst := describeTask_state x label eip esp ((schedLockIrq s).setLinks nx hd)
  obtain ⟨nx', hd', h2', hq3⟩ := hq2.attach (q := .ready) (Set.mem_insert x ∅) ((hst x).trans (if_pos rfl))
  obtain rfl := Option.some.inj (h2.symm.trans h2')
  have hcx : c ≠ x := fun e => by
    rw [e, show s.state x = .dead from hdead] at hrun
    cases hrun
  set a := (schedLockIrq s).setLinks nx hd with ha
  have hid : (describeTask x label eip esp a).id = Function.update s.id x s.nextTaskId := by
    funext u
    by_cases hu : u = x
    · rw [hu, Function.update_self]
      exact describeTask_id_self x label eip esp a
    · rw [Function.update_of_ne hu]
      exact describeTask_id x label eip esp a hu
  have hborn : Drift t 1 (schedLockIrq s) ((describeTask x label eip esp a).setLinks nx' hd') := by
    refine ⟨rfl, fun u hu => ?_, Shift.of_chains hq.chains hq3.chains ?_⟩
    · have hux : u ≠ x := by
        rw [show (schedLockIrq s).currentTask = some c from hc] at hu
        cases hu
        exact hcx
      have hused : ((describeTask x label eip esp a).tasks u).timeUsed = (a.tasks u).timeUsed := by
        rw [(describeTask_tasks x label eip esp a).1 u hux]
      exact hused
    · have hholder : (State.lineup s (L .ready)).holder ≠ some x := by
        unfold State.lineup
        rw [hc]
        exact fun e => hcx (Option.some.inj e)
      have hkey := (Move.rekey (t := t) s.nextTaskId hholder).moves
      have hend := hkey.trans (Move.arrive x).moves
      rw [Function.update_self, Function.update_of_ne (show Queue.ready ≠ .dead by decide)]
      unfold State.lineup at hend ⊢
      rw [State.setLinks_id, hid]
      exact hend
  have hcount (n : ℕ) : Still ((describeTask x label eip esp a).setLinks nx' hd')
      { (describeTask x label eip esp a).setLinks nx' hd' with taskCountValue := n } := .of_tasks rfl rfl rfl
  exact (still_lockIrq s).drift.trans (hborn.trans ((hcount _).trans (still_unlockIrq _ _)).drift)

theorem Inv.sleep_passes {wakeTick : ℕ} (hi : Inv D s) (hp : s.currentPolicy = .roundRobin) (ht : s.state t = .ready)
    (ht' : s'.state t = .ready) (h : schedSleepUntil wakeTick s = some s') : Drift t 0 s s' ∨ PassedOver t s s' := by
  obtain ⟨c, hc, -⟩ := hi.current
  simp only [schedSleepUntil, hc] at h
  split_ifs at h with h0
  · cases h
    exact .inl (Still.refl s).drift
  · have hstill : Still s (s.modTask c fun item => { item with wakeTick := wakeTick }) :=
      .modTask s c (fun _ => rfl) (fun _ => rfl) (fun _ => rfl) fun _ => rfl
    have hi' := hi.congr hstill.next hstill.heads hstill.state hstill.id hstill.currentTask
    have ht₁ := (congrFun hstill.state t).trans ht
    obtain hdrift | hpassed := hi'.block_passes hp ht₁ ht' h
    · exact .inl (hstill.drift.trans hdrift)
    · exact .inr (hstill.drift.passedOver hpassed)

theorem Inv.unblock_drift {item : Option TaskRef} (hi : Inv D s) (ht : s.state t = .ready)
    (h : schedUnblock item s = some s') : Drift t 0 s s' := by
  obtain rfl | ⟨x, s₁, s₂, hx, h1, h2, rfl⟩ := schedUnblock_outcome h
  · exact (Still.refl s').drift
  · have hi₀ : Inv D (schedLockIrq s) := hi.irqs false
    obtain ⟨L, hq⟩ := hi₀.queues
    have hxt : x ≠ t := fun e => by
      rw [e, ht] at hx
      cases hx
    have hmove := hq.drift_move (q := .blocked) hx hxt h1 h2
    exact (still_lockIrq s).drift.trans (hmove.trans (still_unlockIrq _ _).drift)

theorem Inv.wakeExpired_drift {now n : ℕ} (hi : Inv D s) (h : schedWakeExpired now s = some (s', n)) : Drift t 0 s s' := by
  obtain ⟨L, hq⟩ := hi.queues
  obtain ⟨s₁, hrun, hwoken⟩ := schedWakeExpired_spec hq.chains (hi.partition.nodup hq.chains) now
  cases h.symm.trans hrun
  exact hwoken.drift (hq.chains .ready)

theorem Inv.finish_still (hi : Inv D s) (h : finish s = some s') : Still s s' := by
  obtain ⟨c, hc, hrun⟩ := hi.current
  simp only [finish, hc] at h
  split at h
  · cases h
  next f fs _ =>
    have hframes : Still s (s.setFrames c fs) := .of_tasks rfl rfl rfl
    have hone : resume [f] (s.setFrames c fs) = some s' := by
      rw [resume, List.foldlM_cons, h]
      rfl
    exact hframes.trans (resume_still hc hrun hone)

/-- Any event but the timer's tick: the ready queue changes around `t`, or another task gets the processor. -/
theorem next_passes {e : Event} (hi : Inv D s) (hok : LeavesUnlocked s e) (hp : s.currentPolicy = .roundRobin)
    (htick : ∀ regs, e ≠ .call (.tick regs)) (ht : s.state t = .ready) (ht' : s'.state t = .ready)
    (h : system.next s e = some s') :
    Drift t (if (e.creates s).isSome then 1 else 0) s s' ∨ PassedOver t s s' := by
  have hself := (Still.refl s).drift (t := t)
  cases e with
  | finish => exact .inl (hi.finish_still h).drift
  | call c =>
    cases c with
    | create name eip esp =>
      obtain ⟨⟨s₁, r⟩, hrun, rfl⟩ := Option.map_eq_some_iff.mp h
      have hcreates : (Event.call (.create name eip esp)).creates s = r := by
        rw [Event.creates, hrun]
        rfl
      rw [hcreates]
      exact .inl (hi.create_drift hrun)
    | yield => exact (hi.yield_passes hp ht ht' h).imp And.right And.right
    | tick regs => exact absurd rfl (htick regs)
    | preempt => exact (hi.preempt_passes hp ht ht' h).imp And.right fun h => h.2.2
    | block =>
      have hblock : schedBlock s = some s' := h
      obtain ⟨c, hc, -⟩ := hi.current
      simp only [schedBlock, hc] at hblock
      split_ifs at hblock
      · cases hblock
        exact .inl hself
      · exact hi.block_passes hp ht ht' hblock
    | blockTask id => exact hi.block_passes hp ht ht' h
    | unblock item => exact .inl (hi.unblock_drift ht h)
    | wakeTask id =>
      have hwake : schedWakeTask id s = some s' := h
      unfold schedWakeTask at hwake
      split at hwake
      · cases hwake
        exact .inl hself
      · exact .inl (hi.unblock_drift ht hwake)
    | sleepUntil wakeTick => exact hi.sleep_passes hp ht ht' h
    | wakeExpired now =>
      obtain ⟨⟨s₁, n⟩, hrun, rfl⟩ := Option.map_eq_some_iff.mp h
      exact .inl (hi.wakeExpired_drift hrun)
    | kill id => exact hi.kill_passes hp hok ht ht' h
    | exit => exact hi.exit_passes hp (hok rfl) ht ht' h
    | setPolicy policy =>
      obtain rfl := Option.some.inj h
      have hstill : Still s (schedSetPolicy policy s) := by
        unfold schedSetPolicy
        split <;> exact .of_tasks rfl rfl rfl
      exact .inl hstill.drift
    | setPriority item priority =>
      obtain rfl := Option.some.inj h
      have hstill : Still s (schedSetPriority item priority s) := by
        unfold schedSetPriority
        split
        · exact .refl s
        · split_ifs
          · exact .refl s
          all_goals exact .modTask s _ (fun _ => rfl) (fun _ => rfl) (fun _ => rfl) fun _ => rfl
      exact .inl hstill.drift
    | lock =>
      obtain rfl := Option.some.inj h
      have hstill : Still s (schedLock s) := .of_tasks rfl rfl rfl
      exact .inl hstill.drift
    | unlock =>
      obtain rfl := Option.some.inj h
      have hstill : Still s (schedUnlock s) := by
        unfold schedUnlock
        split_ifs
        · exact .of_tasks rfl rfl rfl
        · exact .refl s
      exact .inl hstill.drift

end Novium.Sched
