import Novium.Sched.Micro

/-! What `SchedLock` is for: until the lock is given back the calling task stays the current one, whatever it calls and
whatever the interrupts do. No tick is counted, and a preemption that was asked for before stays asked for. -/

namespace Novium.Sched

open Novium.Lib

/-- Who runs, how often the processor has changed hands, the ticks, and whether a preemption is asked for. -/
def State.course (s : State) : Option TaskRef × ℕ × ℕ × Bool :=
  (s.currentTask, s.contextSwitches, s.schedulerTicks, s.preemptPending)

/-- Neither that nor the lock has changed. -/
structure Pinned (s s' : State) : Prop where
  course : s'.course = s.course
  locked : s'.schedulerLocked = s.schedulerLocked

section

variable {D : Set TaskRef} {s s' s'' : State}

namespace Pinned

theorem refl (s : State) : Pinned s s := ⟨rfl, rfl⟩

theorem trans (h : Pinned s s') (h' : Pinned s' s'') : Pinned s s'' :=
  ⟨h'.course.trans h.course, h'.locked.trans h.locked⟩

theorem modTask (s : State) (t : TaskRef) (f : Task → Task) : Pinned s (s.modTask t f) := ⟨rfl, rfl⟩

theorem setHead (s : State) (q : Queue) (h : Option TaskRef) : Pinned s (s.setHead q h) := by
  cases q <;> exact ⟨rfl, rfl⟩

theorem lockIrq (s : State) : Pinned s (schedLockIrq s) := ⟨rfl, rfl⟩

theorem unlockIrq (was : Bool) (s : State) : Pinned s (schedUnlockIrq was s) := by
  unfold schedUnlockIrq
  split_ifs <;> exact ⟨rfl, rfl⟩

theorem current (h : Pinned s s') : s'.currentTask = s.currentTask := congrArg Prod.fst h.course

end Pinned

theorem schedQueueAdd_pinned {q : Queue} {t : TaskRef} (h : schedQueueAdd q t s = some s') : Pinned s s' := by
  have h0 : Pinned s (s.setNext t none) := .modTask ..
  unfold schedQueueAdd at h
  simp only at h
  split at h
  · cases h
    exact h0.trans (.setHead ..)
  · obtain ⟨last, -, rfl⟩ := Option.map_eq_some_iff.mp h
    exact h0.trans (.modTask ..)

theorem queueUnlink_pinned (q : Queue) (prev : Option TaskRef) (cur : TaskRef) (s : State) :
    Pinned s (queueUnlink q prev cur s) := by
  unfold queueUnlink
  cases prev with
  | none => exact (Pinned.setHead s q _).trans (.modTask ..)
  | some p => exact (Pinned.modTask s p _).trans (.modTask ..)

theorem queueRemoveLoop_pinned {q : Queue} {t : TaskRef} {n : ℕ} {prev cur : Option TaskRef}
    (h : queueRemoveLoop q t s n prev cur = some s') : Pinned s s' := by
  induction n generalizing prev cur with
  | zero => cases h
  | succ n ih =>
    cases cur with
    | none =>
      obtain rfl : s = s' := Option.some.inj h
      exact .refl _
    | some c =>
      rw [queueRemoveLoop] at h
      split_ifs at h
      · cases h
        exact queueUnlink_pinned q prev c s
      · exact ih h

theorem schedQueueRemove_pinned {q : Queue} {t : TaskRef} (h : schedQueueRemove q t s = some s') : Pinned s s' :=
  queueRemoveLoop_pinned h

theorem move_pinned {q q' : Queue} {t : TaskRef} {st : TaskState} {s₁ : State} (h1 : schedQueueRemove q t s = some s₁)
    (h2 : schedQueueAdd q' t (s₁.setState t st) = some s') : Pinned s s' :=
  (schedQueueRemove_pinned h1).trans ((Pinned.modTask ..).trans (schedQueueAdd_pinned h2))

theorem unblockSelf_pinned {t : TaskRef} (h : unblockSelf t s = some s') : Pinned s s' := by
  unfold unblockSelf at h
  simp only at h
  split_ifs at h
  · obtain ⟨s₁, h1, h2⟩ := Option.bind_eq_some_iff.mp h
    cases h2
    exact (Pinned.lockIrq s).trans ((schedQueueRemove_pinned h1).trans ((Pinned.modTask ..).trans (.unlockIrq ..)))
  · cases h
    exact (Pinned.lockIrq s).trans (.unlockIrq ..)

theorem finishFrame_pinned {f : Frame} (hc : s.currentTask ≠ none) (h : finishFrame s f = some s') : Pinned s s' := by
  obtain ⟨c, hc⟩ := Option.ne_none_iff_exists'.mp hc
  cases f with
  | yield was =>
    cases h
    exact .unlockIrq was s
  | blockTask =>
    simp only [finishFrame, hc] at h
    exact unblockSelf_pinned h
  | sleepUntil | exit =>
    simp only [finishFrame, hc] at h
    cases h
    exact ⟨rfl, rfl⟩

theorem resume_pinned {callers : List Frame} (hc : s.currentTask ≠ none) (h : resume callers s = some s') :
    Pinned s s' := by
  induction callers generalizing s with
  | nil =>
    cases h
    exact .refl _
  | cons f fs ih =>
    rw [resume, List.foldlM_cons] at h
    obtain ⟨s₁, h1, h2⟩ := Option.bind_eq_some_iff.mp h
    have hfirst := finishFrame_pinned hc h1
    exact hfirst.trans (ih (by rw [hfirst.current]; exact hc) h2)

theorem schedYieldIn_pinned {callers : List Frame} (hl : s.schedulerLocked ≠ 0) (hc : s.currentTask ≠ none)
    (h : schedYieldIn callers s = some s') : Pinned s s' := by
  have hirq : Pinned s (schedUnlockIrq s.irqsEnabled (schedLockIrq s)) := (Pinned.lockIrq s).trans (.unlockIrq ..)
  unfold schedYieldIn at h
  rw [if_pos (show (schedLockIrq s).schedulerLocked ≠ 0 from hl)] at h
  exact hirq.trans (resume_pinned (by rw [hirq.current]; exact hc) h)

theorem schedBlockTaskIn_pinned {callers : List Frame} {id : ℕ} (hi : Inv D s) (hl : s.schedulerLocked ≠ 0)
    (hc : s.currentTask ≠ none) (h : schedBlockTaskIn callers id s = some s') : Pinned s s' := by
  cases schedBlockTaskIn_blocks hi h with
  | back _ hback => exact resume_pinned hc hback
  | self _ _ hadd _ _ _ hyield =>
    have hmoved := (Pinned.lockIrq s).trans ((Pinned.modTask ..).trans
      ((schedQueueAdd_pinned hadd).trans (.unlockIrq s.irqsEnabled _)))
    exact hmoved.trans (schedYieldIn_pinned (by rw [hmoved.locked]; exact hl) (by rw [hmoved.current]; exact hc) hyield)
  | other _ _ hrem hadd hback =>
    have hmoved := (Pinned.lockIrq s).trans ((move_pinned hrem hadd).trans (.unlockIrq s.irqsEnabled _))
    exact hmoved.trans (resume_pinned (by rw [hmoved.current]; exact hc) hback)

theorem schedUnblock_pinned {item : Option TaskRef} (h : schedUnblock item s = some s') : Pinned s s' := by
  unfold schedUnblock at h
  split at h
  · cases h
    exact .refl _
  · obtain ⟨s₁, h1, h⟩ := Option.bind_eq_some_iff.mp h
    obtain ⟨s₂, h2, h⟩ := Option.bind_eq_some_iff.mp h
    cases h
    exact (Pinned.lockIrq s).trans ((move_pinned h1 h2).trans (.unlockIrq ..))

theorem wakeLoop_pinned {nowTick n woken w : ℕ} {cur : Option TaskRef} (h : wakeLoop nowTick n cur woken s = some (s', w)) :
    Pinned s s' := by
  induction n generalizing s cur woken with
  | zero => cases h
  | succ n ih =>
    cases cur with
    | none =>
      cases h
      exact .refl _
    | some t =>
      simp only [wakeLoop] at h
      split_ifs at h
      · obtain ⟨s₁, h1, h2⟩ := Option.bind_eq_some_iff.mp h
        obtain ⟨s₂, hrem, hadd⟩ := Option.bind_eq_some_iff.mp h1
        exact (Pinned.modTask s t _).trans ((move_pinned hrem hadd).trans (ih h2))
      · exact ih h

theorem bury_pinned {t : TaskRef} (h : bury t s = some s') : Pinned s s' := by
  obtain ⟨s₁, h1, h⟩ := Option.bind_eq_some_iff.mp h
  obtain ⟨s₂, h2, h⟩ := Option.bind_eq_some_iff.mp h
  obtain ⟨s₃, h3, h⟩ := Option.bind_eq_some_iff.mp h
  cases h
  have hcount : Pinned s₃ (dropCount s₃) := by
    unfold dropCount
    split_ifs <;> exact ⟨rfl, rfl⟩
  exact (schedQueueRemove_pinned h1).trans ((schedQueueRemove_pinned h2).trans
    ((Pinned.modTask s₂ t _).trans ((schedQueueAdd_pinned h3).trans hcount)))

theorem call_pinned {c : Call} (hi : Inv D s) (hl : s.schedulerLocked ≠ 0) (hok : LeavesUnlocked s (.call c))
    (h : c.run s = some s') : s'.course = s.course := by
  have hstays : Event.leaves s (.call c) = false := by
    by_contra hleaves
    exact hl (hok (by simpa using hleaves))
  obtain ⟨cur, hc, -⟩ := hi.current
  have hnone : s.currentTask ≠ none := by simp [hc]
  cases c with
  | create name eip esp =>
    obtain ⟨⟨s₀, r⟩, hrun, rfl⟩ := Option.map_eq_some_iff.mp h
    obtain ⟨rfl, -⟩ | ⟨label, t, s₁, s₂, -, -, h1, h2, rfl⟩ := schedCreate_outcome hrun
    · rfl
    · have hdescribed : Pinned s₁ (describeTask t label eip esp s₁) := ⟨rfl, rfl⟩
      have hcount : Pinned s₂ { s₂ with taskCountValue := u32 (s₂.taskCountValue + 1) } := ⟨rfl, rfl⟩
      exact ((Pinned.lockIrq s).trans ((schedQueueRemove_pinned h1).trans (hdescribed.trans
        ((schedQueueAdd_pinned h2).trans (hcount.trans (.unlockIrq ..)))))).course
  | yield => exact (schedYieldIn_pinned hl hnone h).course
  | tick regs =>
    obtain rfl := Option.some.inj h
    rw [schedTick, if_pos (.inr hl)]
  | preempt =>
    simp only [Call.run, schedPreempt, hl, ne_eq, not_false_eq_true, if_true] at h
    split_ifs at h <;> cases h <;> rfl
  | block =>
    simp only [Call.run, schedBlock, hc] at h
    split_ifs at h
    · cases h
      rfl
    · exact (schedBlockTaskIn_pinned hi hl hnone h).course
  | blockTask id => exact (schedBlockTaskIn_pinned hi hl hnone h).course
  | unblock item => exact (schedUnblock_pinned h).course
  | wakeTask id =>
    simp only [Call.run, schedWakeTask] at h
    split at h
    · cases h
      rfl
    · exact (schedUnblock_pinned h).course
  | sleepUntil wakeTick =>
    simp only [Call.run, schedSleepUntil, hc] at h
    split_ifs at h
    · cases h
      rfl
    · have hi' := hi.keep cur (f := fun item => { item with wakeTick := wakeTick }) (fun _ => rfl) (fun _ => rfl) fun _ => rfl
      exact ((Pinned.modTask s cur _).trans (schedBlockTaskIn_pinned hi' hl hnone h)).course
  | wakeExpired nowTick =>
    obtain ⟨⟨s₀, woken⟩, hrun, rfl⟩ := Option.map_eq_some_iff.mp h
    obtain ⟨⟨s₁, k⟩, h1, h2⟩ := Option.bind_eq_some_iff.mp hrun
    cases h2
    exact ((Pinned.lockIrq s).trans ((wakeLoop_pinned h1).trans (.unlockIrq ..))).course
  | kill id =>
    simp only [Event.leaves, hc, Option.any_some, decide_eq_false_iff_not] at hstays
    simp only [Call.run, schedKill, hc, Option.any_some, hstays, decide_false, Bool.false_eq_true, if_false] at h
    split_ifs at h
    · cases h
      rfl
    split at h
    · cases h
      exact ((Pinned.lockIrq s).trans (.unlockIrq ..)).course
    · split_ifs at h
      · cases h
        exact ((Pinned.lockIrq s).trans (.unlockIrq ..)).course
      · obtain ⟨s₁, h1, h2⟩ := Option.bind_eq_some_iff.mp h
        cases h2
        exact ((Pinned.lockIrq s).trans ((bury_pinned h1).trans (.unlockIrq ..))).course
  | exit => cases hstays
  | setPolicy policy =>
    obtain rfl := Option.some.inj h
    unfold schedSetPolicy
    split <;> rfl
  | setPriority item priority =>
    obtain rfl := Option.some.inj h
    unfold schedSetPriority
    split
    · rfl
    · split_ifs <;> rfl
  | lock =>
    obtain rfl := Option.some.inj h
    rfl
  | unlock =>
    obtain rfl := Option.some.inj h
    unfold schedUnlock
    split_ifs <;> rfl

theorem next_pinned {e : Event} (hi : Inv D s) (hl : s.schedulerLocked ≠ 0) (hok : LeavesUnlocked s e)
    (h : system.next s e = some s') : s'.course = s.course := by
  cases e with
  | call c => exact call_pinned hi hl hok h
  | finish =>
    obtain ⟨cur, hc, -⟩ := hi.current
    have hrun : finish s = some s' := h
    simp only [finish, hc] at hrun
    split at hrun
    · cases hrun
    next f fs _ =>
      have hframes : Pinned s (s.setFrames cur fs) := ⟨rfl, rfl⟩
      exact (hframes.trans (finishFrame_pinned (by simp [State.setFrames, hc]) hrun)).course

/-- As long as the lock is held, whatever is called and however deep it is nested, the task that runs stays the same and
running, no tick and no switch is counted, and a preemption that was asked for is kept. -/
theorem lock_pins (h : system.ReachableIf LeavesUnlocked s)
    (hlead : system.Leads (fun s e => LeavesUnlocked s e ∧ s.schedulerLocked ≠ 0) s s') :
    s'.currentTask = s.currentTask ∧ s'.contextSwitches = s.contextSwitches ∧ s'.schedulerTicks = s.schedulerTicks ∧
      s'.preemptPending = s.preemptPending ∧ ∃ c, s'.currentTask = some c ∧ s'.state c = .running := by
  have hkept : system.ReachableIf LeavesUnlocked s' ∧ s'.course = s.course := by
    refine hlead.invariant (I := fun q => system.ReachableIf LeavesUnlocked q ∧ q.course = s.course)
      (fun q e q' hq hok hn => ?_) ⟨h, rfl⟩
    exact ⟨hq.1.step hok.1 hn, (next_pinned (reachable_inv hq.1) hok.2 hok.1 hn).trans hq.2⟩
  obtain ⟨h', hcourse⟩ := hkept
  simp only [State.course, Prod.mk.injEq] at hcourse
  obtain ⟨hcurrent, hswitches, hticks, hpending⟩ := hcourse
  obtain ⟨c, hc, hrun⟩ := (reachable_inv h').current
  exact ⟨hcurrent, hswitches, hticks, hpending, c, hc, hrun⟩

/-- What a task may do under the lock: yield, be ticked and preempted, go to sleep, block itself by its id. -/
def restlessCalls : List Event := [.yield, .tick true, .preempt, .sleepUntil 5, .blockTask 2].map .call

theorem lock_pins_restless : ∃ s s' : State, system.ReachableIf LeavesUnlocked s ∧
    system.runIf (fun s e => LeavesUnlocked s e ∧ s.schedulerLocked ≠ 0) s restlessCalls = some s' ∧
      s'.currentTask = some 1 ∧ s'.state 1 = .running := by
  obtain ⟨s, -, hs, hp⟩ := System.exists_reachableIf LeavesUnlocked system_init
    ([createTask, createTask, .yield, .lock].map .call)
    (fun s => decide (s.currentTask = some 1) &&
      (system.runIf (fun s e => LeavesUnlocked s e ∧ s.schedulerLocked ≠ 0) s restlessCalls).isSome) (by decide +kernel)
  obtain ⟨hcur, hrun⟩ := Bool.and_eq_true_iff.mp hp
  obtain ⟨s', hrun⟩ := Option.isSome_iff_exists.mp hrun
  obtain ⟨hcurrent, -, -, -, c, hc, hstate⟩ := lock_pins hs (System.Leads.refl.runIf hrun)
  rw [hcurrent, of_decide_eq_true hcur, Option.some.injEq] at hc
  exact ⟨s, s', hs, hrun, hcurrent.trans (of_decide_eq_true hcur), hc.symm ▸ hstate⟩

end

end Novium.Sched
