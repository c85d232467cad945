import Novium.Sched.Calls

/-! What most calls leave alone: who is alive, under which id, the two counters that
`SchedCreate`, `SchedExit` and `SchedKill` keep, and the nesting lock. -/

namespace Novium.Sched

open Novium.Lib

structure SameTasks (s s' : State) : Prop where
  dead : ∀ t, s'.state t = .dead ↔ s.state t = .dead
  id : s'.id = s.id
  nextTaskId : s'.nextTaskId = s.nextTaskId
  taskCountValue : s'.taskCountValue = s.taskCountValue
  schedulerLocked : s'.schedulerLocked = s.schedulerLocked

namespace SameTasks

variable {s s' s'' : State}

theorem refl (s : State) : SameTasks s s := ⟨fun _ => Iff.rfl, rfl, rfl, rfl, rfl⟩

theorem trans (h : SameTasks s s') (h' : SameTasks s' s'') : SameTasks s s'' where
  dead t := (h'.dead t).trans (h.dead t)
  id := h'.id.trans h.id
  nextTaskId := h'.nextTaskId.trans h.nextTaskId
  taskCountValue := h'.taskCountValue.trans h.taskCountValue
  schedulerLocked := h'.schedulerLocked.trans h.schedulerLocked

theorem of_eq (ht : s'.tasks = s.tasks) (hn : s'.nextTaskId = s.nextTaskId)
    (hc : s'.taskCountValue = s.taskCountValue) (hl : s'.schedulerLocked = s.schedulerLocked) :
    SameTasks s s' where
  dead t := by rw [State.state, State.state, ht]
  id := by funext t; rw [State.id, State.id, ht]
  nextTaskId := hn
  taskCountValue := hc
  schedulerLocked := hl

theorem modTask (s : State) (t : TaskRef) {f : Task → Task} (hid : (f (s.tasks t)).id = s.id t)
    (hst : (f (s.tasks t)).state = .dead ↔ s.state t = .dead) : SameTasks s (s.modTask t f) where
  dead u := by
    rw [State.modTask_state]
    split_ifs with hu
    · rw [hu]; exact hst
    · rfl
  id := by
    funext u
    rw [State.modTask_id]
    split_ifs with hu
    · rw [hu]; exact hid
    · rfl
  nextTaskId := rfl
  taskCountValue := rfl
  schedulerLocked := rfl

theorem setState (s : State) {t : TaskRef} {st : TaskState} (ht : s.state t ≠ .dead) (hst : st ≠ .dead) :
    SameTasks s (s.setState t st) :=
  modTask s t rfl ⟨fun h => absurd h hst, fun h => absurd h ht⟩

theorem lockIrq (s : State) : SameTasks s (schedLockIrq s) := of_eq rfl rfl rfl rfl

theorem unlockIrq (was : Bool) (s : State) : SameTasks s (schedUnlockIrq was s) := by
  rw [schedUnlockIrq_eq]
  exact of_eq rfl rfl rfl rfl

theorem live (h : SameTasks s s') {t : TaskRef} (ht : s.state t ≠ .dead) : s'.state t ≠ .dead :=
  fun hd => ht ((h.dead t).mp hd)

end SameTasks

theorem sameTasks_setNext (s : State) (t : TaskRef) (n : Option TaskRef) : SameTasks s (s.setNext t n) :=
  .modTask s t rfl Iff.rfl

theorem sameTasks_setHead (s : State) (q : Queue) (h : Option TaskRef) : SameTasks s (s.setHead q h) := by
  cases q <;> exact .of_eq rfl rfl rfl rfl

theorem schedQueueAdd_same {q : Queue} {t : TaskRef} {s s' : State} (h : schedQueueAdd q t s = some s') :
    SameTasks s s' := by
  have h0 := sameTasks_setNext s t none
  unfold schedQueueAdd at h
  simp only at h
  split at h
  · cases h
    exact h0.trans (sameTasks_setHead _ q _)
  · obtain ⟨last, -, rfl⟩ := Option.map_eq_some_iff.mp h
    exact h0.trans (sameTasks_setNext _ last _)

theorem queueUnlink_same (q : Queue) (prev : Option TaskRef) (cur : TaskRef) (s : State) :
    SameTasks s (queueUnlink q prev cur s) := by
  unfold queueUnlink
  cases prev with
  | none => exact (sameTasks_setHead s q _).trans (sameTasks_setNext _ cur _)
  | some p => exact (sameTasks_setNext s p _).trans (sameTasks_setNext _ cur _)

theorem schedQueueRemove_same {q : Queue} {t : TaskRef} {s s' : State} (h : schedQueueRemove q t s = some s') :
    SameTasks s s' := by
  have hloop : ∀ n prev cur, queueRemoveLoop q t s n prev cur = some s' → SameTasks s s' := by
    intro n
    induction n with
    | zero => intro prev cur h; cases h
    | succ n ih =>
      intro prev cur h
      cases cur with
      | none => cases h; exact .refl s
      | some c =>
        rw [queueRemoveLoop] at h
        split_ifs at h
        · cases h; exact queueUnlink_same q prev c s
        · exact ih _ _ h
  exact hloop _ _ _ h

theorem unblockSelf_same {t : TaskRef} {s s' : State} (h : unblockSelf t s = some s') : SameTasks s s' := by
  have h0 := SameTasks.lockIrq s
  unfold unblockSelf at h
  simp only at h
  split_ifs at h with hblk
  · obtain ⟨s₁, h1, h2⟩ := Option.bind_eq_some_iff.mp h
    cases h2
    have h1 := h0.trans (schedQueueRemove_same h1)
    have hlive : s₁.state t ≠ .dead := h1.live (by rw [show s.state t = .blocked from hblk]; decide)
    exact (h1.trans (.setState s₁ hlive (by decide))).trans (.unlockIrq _ _)
  · cases h
    exact h0.trans (.unlockIrq _ _)

theorem finishFrame_same {f : Frame} {s s' : State} (h0 : s.state 0 ≠ .dead) (h : finishFrame s f = some s') :
    SameTasks s s' := by
  cases f with
  | yield was => cases h; exact .unlockIrq was s
  | blockTask =>
    simp only [finishFrame] at h
    split at h
    · cases h; exact .refl s
    · exact unblockSelf_same h
  | sleepUntil =>
    simp only [finishFrame] at h
    split at h
    · cases h; exact .refl s
    · cases h; exact .modTask s _ rfl Iff.rfl
  | exit =>
    simp only [finishFrame] at h
    split at h
    · cases h
      exact (SameTasks.setState s h0 (by decide)).trans (.of_eq rfl rfl rfl rfl)
    · cases h; exact .refl s

theorem resume_same {callers : List Frame} {s s' : State} (h0 : s.state 0 ≠ .dead)
    (h : resume callers s = some s') : SameTasks s s' := by
  induction callers generalizing s with
  | nil => cases h; exact .refl _
  | cons f fs ih =>
    rw [resume, List.foldlM_cons] at h
    obtain ⟨s₁, h1, h2⟩ := Option.bind_eq_some_iff.mp h
    have hs := finishFrame_same h0 h1
    exact hs.trans (ih (hs.live h0) h2)

theorem requeue_same {prev : Option TaskRef} {s s' : State} (h : requeue prev s = some s') : SameTasks s s' := by
  unfold requeue at h
  split at h
  · cases h; exact .refl s
  · rename_i p
    split_ifs at h with hp
    · exact (SameTasks.setState s (by rw [hp]; decide) (by decide)).trans (schedQueueAdd_same h)
    · cases h; exact .refl s

theorem schedSwitch_same (prev : Option TaskRef) (frames : List Frame) (nxt : TaskRef) (s : State) :
    SameTasks s (schedSwitch prev frames nxt s) := by
  unfold schedSwitch
  cases prev with
  | none => exact .of_eq rfl rfl rfl rfl
  | some p =>
    have hesp : SameTasks s (s.modTask p fun item => { item with esp := s.cpuEsp }) := .modTask s p rfl Iff.rfl
    exact hesp.trans (.of_eq rfl rfl rfl rfl)

theorem switchTo_same {frames : List Frame} {nxt : TaskRef} {s s' : State} (hn : s.state nxt ≠ .dead)
    (h : switchTo frames nxt s = some s') : SameTasks s s' := by
  unfold switchTo at h
  obtain ⟨s₁, h1, h⟩ := Option.bind_eq_some_iff.mp h
  obtain ⟨s₂, h2, h⟩ := Option.bind_eq_some_iff.mp h
  cases h
  have hs := (schedQueueRemove_same h1).trans (requeue_same h2)
  have hcur : SameTasks s₂ (makeCurrent nxt s₂) := by
    have hel : SameTasks s₂ (s₂.modTask nxt elected) :=
      .modTask s₂ nxt rfl ⟨fun h => (by cases h), fun h => absurd h (hs.live hn)⟩
    exact hel.trans (.of_eq rfl rfl rfl rfl)
  exact (hs.trans hcur).trans (schedSwitch_same _ _ _ _)

/-- `SchedYield` returns to its callers because it is locked or has no other task to switch to, or it switches to a
task of the ready queue. -/
theorem schedYieldIn_outcome {D : Set TaskRef} {callers : List Frame} {s s' : State} {L : Queue → List TaskRef}
    (hq : Queues D s L) (h : schedYieldIn callers s = some s') :
    resume callers s = some s' ∧
        (s.schedulerLocked ≠ 0 ∨ L .ready = [] ∨ ∃ c ∈ L .ready, s.currentTask = some c) ∨
      ∃ nxt ∈ L .ready, switchTo (.yield s.irqsEnabled :: callers) nxt (schedLockIrq s) = some s' := by
  unfold schedYieldIn at h
  simp only [schedUnlockIrq_schedLockIrq] at h
  split_ifs at h with hlock
  · exact Or.inl ⟨h, Or.inl hlock⟩
  · obtain ⟨r, hr, hcase⟩ := schedFindNext_spec (hq.irqs false).chains
    rw [show schedFindNext (schedLockIrq s) = some r from hr, Option.bind_eq_bind, Option.bind_some] at h
    rcases hcase with ⟨rfl, hempty⟩ | ⟨nxt, hmem, rfl⟩
    · exact Or.inl ⟨h, Or.inr (Or.inl hempty)⟩
    · simp only at h
      split_ifs at h with hcur
      · exact Or.inl ⟨h, Or.inr (Or.inr ⟨nxt, hmem, hcur⟩)⟩
      · exact Or.inr ⟨nxt, hmem, h⟩

/-- The task that `SchedYield` chooses is on the ready queue, so it is not dead. -/
theorem schedYieldIn_same {D : Set TaskRef} {callers : List Frame} {s s' : State} (hcore : Core D s)
    (h : schedYieldIn callers s = some s') : SameTasks s s' := by
  have h0 : s.state 0 ≠ .dead := by
    rcases hcore.idle with hi | hi <;> rw [hi] <;> decide
  obtain ⟨L, hq⟩ := hcore.queues
  rcases schedYieldIn_outcome hq h with ⟨hback, -⟩ | ⟨nxt, hmem, hswitch⟩
  · exact resume_same h0 hback
  · have hready : (schedLockIrq s).state nxt = .ready := hq.mem nxt (by simp) .ready hmem
    exact (SameTasks.lockIrq s).trans (switchTo_same (by rw [hready]; decide) hswitch)

theorem Inv.idle_live {D : Set TaskRef} {s : State} (h : Inv D s) : s.state 0 ≠ .dead :=
  fun hd => h.ne_idle (Or.inr hd) rfl

theorem schedPreempt_same {D : Set TaskRef} {s s' : State} (h : Inv D s) (hrun : schedPreempt s = some s') :
    SameTasks s s' := by
  unfold schedPreempt at hrun
  split_ifs at hrun
  · cases hrun; exact .refl s
  · cases hrun; exact .refl s
  · have hp : SameTasks s { s with preemptPending := false } := .of_eq rfl rfl rfl rfl
    exact hp.trans (schedYieldIn_same (h.toCore.congr rfl rfl rfl rfl rfl) hrun)

theorem schedTick_same (regs : Bool) (s : State) : SameTasks s (schedTick regs s) := by
  unfold schedTick
  split_ifs
  · exact .refl s
  · have h1 : SameTasks s { s with schedulerTicks := u32 (s.schedulerTicks + 1) } := .of_eq rfl rfl rfl rfl
    simp only
    split
    · exact h1
    · rename_i c _
      have h2 := h1.trans (.modTask _ c (f := ticked) rfl Iff.rfl)
      simp only [tickCurrent]
      split_ifs
      · have h3 := h2.trans (.modTask _ c (f := fun item => { item with timeUsed := 0 }) rfl Iff.rfl)
        exact h3.trans (.of_eq rfl rfl rfl rfl)
      · exact h2

/-- What a call of `SchedBlockTask` comes to: nothing, because there is no such task or it may not be blocked; the
caller is blocked and yields; another task is taken off the ready queue. -/
inductive Blocks (D : Set TaskRef) (callers : List Frame) (id : ℕ) (s s' : State) : Prop where
  | back : (∀ t, schedFind id s = some t → s.id t = 0 ∨ s.state t = .blocked) → resume callers s = some s' →
      Blocks D callers id s s'
  | self {t : TaskRef} {s₂ : State} : schedFind id s = some t → s.currentTask = some t →
      schedQueueAdd .blocked t ((schedLockIrq s).setState t .blocked) = some s₂ →
      Core D s₂ → s₂.currentTask = some t → s₂.state t = .blocked →
      schedYieldIn (.blockTask :: callers) (schedUnlockIrq s.irqsEnabled s₂) = some s' → Blocks D callers id s s'
  | other {t : TaskRef} {s₁ s₂ : State} : schedFind id s = some t → s.currentTask ≠ some t →
      schedQueueRemove .ready t (schedLockIrq s) = some s₁ →
      schedQueueAdd .blocked t (s₁.setState t .blocked) = some s₂ →
      resume callers (schedUnlockIrq s.irqsEnabled s₂) = some s' → Blocks D callers id s s'

theorem schedBlockTaskIn_blocks {D : Set TaskRef} {callers : List Frame} {id : ℕ} {s s' : State} (h : Inv D s)
    (hrun : schedBlockTaskIn callers id s = some s') : Blocks D callers id s s' := by
  have hi : Inv D (schedLockIrq s) := h.irqs false
  have hsame : schedFind id (schedLockIrq s) = schedFind id s := rfl
  unfold schedBlockTaskIn at hrun
  simp only [hsame, schedUnlockIrq_schedLockIrq] at hrun
  cases hfind : schedFind id s with
  | none =>
    rw [hfind] at hrun
    exact .back (by simp [hfind]) hrun
  | some t =>
    rw [hfind] at hrun
    simp only at hrun
    have hlive := (schedFind_some hfind).1
    split_ifs at hrun with hskip hself hready
    · refine .back (fun u hu => ?_) hrun
      obtain rfl : t = u := Option.some.inj (hfind.symm.trans hu)
      exact hskip.resolve_left hlive
    · have hne : t ≠ 0 := by
        rintro rfl
        exact hskip (Or.inr (Or.inl h.idleId))
      obtain ⟨s₂, hrem, hadd, hcore, hc, hblk⟩ := mark_blocked hi hself hne
      rw [hrem, Option.bind_eq_bind, Option.bind_some, hadd, Option.bind_some] at hrun
      exact .self hfind hself hadd hcore hc hblk hrun
    · obtain ⟨s₁, h1, hrun⟩ := Option.bind_eq_some_iff.mp hrun
      obtain ⟨s₂, h2, hrun⟩ := Option.bind_eq_some_iff.mp hrun
      exact .other hfind hself h1 h2 hrun
    · -- no state is left: the task is neither dead, blocked, ready nor the running one
      exfalso
      cases hst : s.state t with
      | dead => exact hlive hst
      | blocked => exact hskip (Or.inr (Or.inr hst))
      | ready => exact hready hst
      | running => exact hself (h.running t hst)

theorem schedBlockTaskIn_same {D : Set TaskRef} {callers : List Frame} {id : ℕ} {s s' : State} (h : Inv D s)
    (hrun : schedBlockTaskIn callers id s = some s') : SameTasks s s' := by
  have h0 := SameTasks.lockIrq s
  cases schedBlockTaskIn_blocks h hrun with
  | back _ hback => exact resume_same h.idle_live hback
  | @self t s₂ hfind _ hadd hcore _ _ hyield =>
    have hmark : SameTasks s ((schedLockIrq s).setState t .blocked) :=
      h0.trans (.setState _ (schedFind_some hfind).1 (by decide))
    have h2 := (hmark.trans (schedQueueAdd_same hadd)).trans (.unlockIrq s.irqsEnabled s₂)
    exact h2.trans (schedYieldIn_same (hcore.unlockIrq _) hyield)
  | @other t s₁ s₂ hfind _ hrem hadd hback =>
    have h1 := h0.trans (schedQueueRemove_same hrem)
    have hmark : SameTasks s (s₁.setState t .blocked) :=
      h1.trans (.setState s₁ (h1.live (schedFind_some hfind).1) (by decide))
    have h2 := (hmark.trans (schedQueueAdd_same hadd)).trans (.unlockIrq s.irqsEnabled s₂)
    exact h2.trans (resume_same (h2.live h.idle_live) hback)

theorem schedSleepUntil_same {D : Set TaskRef} {wakeTick : ℕ} {s s' : State} (h : Inv D s)
    (hrun : schedSleepUntil wakeTick s = some s') : SameTasks s s' := by
  obtain ⟨c, hc, -⟩ := h.current
  simp only [schedSleepUntil, hc] at hrun
  split_ifs at hrun
  · cases hrun; exact .refl s
  · have hw : SameTasks s (s.modTask c fun item => { item with wakeTick := wakeTick }) := .modTask s c rfl Iff.rfl
    exact hw.trans (schedBlockTaskIn_same (h.keep c (fun _ => rfl) (fun _ => rfl) (fun _ => rfl)) hrun)

theorem schedBlock_same {D : Set TaskRef} {s s' : State} (h : Inv D s) (hrun : schedBlock s = some s') :
    SameTasks s s' := by
  obtain ⟨c, hc, -⟩ := h.current
  simp only [schedBlock, hc] at hrun
  split_ifs at hrun
  · cases hrun; exact .refl s
  · exact schedBlockTaskIn_same h hrun

theorem unblock_same {t : TaskRef} {s s₁ s' : State} (ht : s.state t ≠ .dead)
    (h1 : schedQueueRemove .blocked t s = some s₁) (h2 : schedQueueAdd .ready t (s₁.setState t .ready) = some s') :
    SameTasks s s' := by
  have hrem := schedQueueRemove_same h1
  exact (hrem.trans (.setState s₁ (hrem.live ht) (by decide))).trans (schedQueueAdd_same h2)

theorem schedUnblock_outcome {item : Option TaskRef} {s s' : State} (hrun : schedUnblock item s = some s') :
    s' = s ∨ ∃ t s₁ s₂, s.state t = .blocked ∧ schedQueueRemove .blocked t (schedLockIrq s) = some s₁ ∧
      schedQueueAdd .ready t (s₁.setState t .ready) = some s₂ ∧ s' = schedUnlockIrq s.irqsEnabled s₂ := by
  unfold schedUnblock at hrun
  cases htest : unblockTest item s with
  | none => rw [htest] at hrun; cases hrun; exact Or.inl rfl
  | some t =>
    rw [htest] at hrun
    obtain ⟨s₁, h1, hrun⟩ := Option.bind_eq_some_iff.mp hrun
    obtain ⟨s₂, h2, hrun⟩ := Option.bind_eq_some_iff.mp hrun
    cases hrun
    exact Or.inr ⟨t, s₁, s₂, unblockTest_some htest, h1, h2, rfl⟩

theorem schedUnblock_same {item : Option TaskRef} {s s' : State} (hrun : schedUnblock item s = some s') :
    SameTasks s s' := by
  rcases schedUnblock_outcome hrun with rfl | ⟨t, s₁, s₂, hblk, h1, h2, rfl⟩
  · exact .refl s'
  · have hlive : (schedLockIrq s).state t ≠ .dead := by
      rw [show (schedLockIrq s).state t = .blocked from hblk]
      decide
    exact ((SameTasks.lockIrq s).trans (unblock_same hlive h1 h2)).trans (.unlockIrq _ _)

theorem schedWakeTask_same {id : ℕ} {s s' : State} (hrun : schedWakeTask id s = some s') : SameTasks s s' := by
  unfold schedWakeTask at hrun
  split at hrun
  · cases hrun; exact .refl s
  · exact schedUnblock_same hrun

theorem wakeOne_same {t : TaskRef} {s s' : State} (ht : s.state t ≠ .dead) (hrun : wakeOne t s = some s') :
    SameTasks s s' := by
  obtain ⟨s₁, h1, hrun⟩ := Option.bind_eq_some_iff.mp hrun
  have hw : SameTasks s (s.modTask t fun item => { item with wakeTick := 0 }) := .modTask s t rfl Iff.rfl
  exact hw.trans (unblock_same (hw.live ht) h1 hrun)

theorem schedSetPolicy_same (policy : ℕ) (s : State) : SameTasks s (schedSetPolicy policy s) := by
  unfold schedSetPolicy
  split
  · exact .of_eq rfl rfl rfl rfl
  · exact .of_eq rfl rfl rfl rfl
  · exact .refl s

theorem schedSetPriority_same (item : Option TaskRef) (priority : ℕ) (s : State) :
    SameTasks s (schedSetPriority item priority s) := by
  unfold schedSetPriority
  split
  · exact .refl s
  · split_ifs
    · exact .refl s
    · exact .modTask s _ rfl Iff.rfl
    · exact .modTask s _ rfl Iff.rfl

/-- The descriptor `t` is buried, and no other changes hands. -/
structure Buried (s : State) (t : TaskRef) (s' : State) : Prop where
  live : s.state t ≠ .dead
  dead : ∀ u, s'.state u = .dead ↔ u = t ∨ s.state u = .dead
  id : ∀ u, s'.id u = if u = t then 0 else s.id u
  nextTaskId : s'.nextTaskId = s.nextTaskId
  taskCountValue : s'.taskCountValue = s.taskCountValue - 1
  schedulerLocked : s'.schedulerLocked = s.schedulerLocked

theorem Buried.after {t : TaskRef} {s s' s'' : State} (h : Buried s' t s'') (h' : SameTasks s s') : Buried s t s'' where
  live hd := h.live ((h'.dead t).mpr hd)
  dead u := by rw [h.dead, h'.dead]
  id u := by rw [h.id, h'.id]
  nextTaskId := h.nextTaskId.trans h'.nextTaskId
  taskCountValue := by rw [h.taskCountValue, h'.taskCountValue]
  schedulerLocked := h.schedulerLocked.trans h'.schedulerLocked

theorem Buried.trans {t : TaskRef} {s s' s'' : State} (h : Buried s t s') (h' : SameTasks s' s'') : Buried s t s'' where
  live := h.live
  dead u := by rw [h'.dead, h.dead]
  id u := by rw [h'.id, h.id]
  nextTaskId := h'.nextTaskId.trans h.nextTaskId
  taskCountValue := by rw [h'.taskCountValue, h.taskCountValue]
  schedulerLocked := h'.schedulerLocked.trans h.schedulerLocked

/-- The dead descriptor `t` is filled in under the next id. -/
structure Born (s : State) (t : TaskRef) (s' : State) : Prop where
  dead : s.state t = .dead
  state : ∀ u, s'.state u = .dead ↔ u ≠ t ∧ s.state u = .dead
  id : ∀ u, s'.id u = if u = t then s.nextTaskId else s.id u
  nextTaskId : s'.nextTaskId = u32 (s.nextTaskId + 1)
  taskCountValue : s'.taskCountValue = u32 (s.taskCountValue + 1)
  schedulerLocked : s'.schedulerLocked = s.schedulerLocked

end Novium.Sched
