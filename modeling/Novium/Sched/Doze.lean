import Novium.Sched.Wake
import Novium.Sched.Walk

/-! What leaves a sleeper alone. A blocked descriptor keeps its `WakeTick` through
everything that the other tasks do, so that the timer finds there what the sleeper has
asked for. -/

namespace Novium.Sched

open Novium.Lib

/-- The descriptor `u` keeps its `WakeTick` and is not made the current task. -/
structure Dozes (u : TaskRef) (s s' : State) : Prop where
  wakeTick : (s'.tasks u).wakeTick = (s.tasks u).wakeTick
  current : s'.currentTask = some u → s.currentTask = some u

namespace Dozes

variable {u : TaskRef} {s s' s'' : State}

theorem refl (s : State) : Dozes u s s := ⟨rfl, fun h => h⟩

theorem trans (h : Dozes u s s') (h' : Dozes u s' s'') : Dozes u s s'' :=
  ⟨h'.wakeTick.trans h.wakeTick, fun hc => h.current (h'.current hc)⟩

theorem of_eq (ht : s'.tasks u = s.tasks u) (hc : s'.currentTask = s.currentTask) : Dozes u s s' :=
  ⟨by rw [ht], fun h => hc ▸ h⟩

theorem modTask (s : State) (t : TaskRef) {f : Task → Task}
    (hf : t = u → (f (s.tasks t)).wakeTick = (s.tasks t).wakeTick) : Dozes u s (s.modTask t f) := by
  refine ⟨?_, fun h => h⟩
  rcases eq_or_ne u t with rfl | hu
  · simpa [State.modTask] using hf rfl
  · simp [State.modTask, Function.update_of_ne hu]

theorem setState (s : State) (t : TaskRef) (st : TaskState) : Dozes u s (s.setState t st) := modTask s t fun _ => rfl

theorem unlockIrq (was : Bool) (s : State) : Dozes u s (schedUnlockIrq was s) := by
  rw [schedUnlockIrq_eq]
  exact of_eq rfl rfl

theorem setLinks (nx : TaskRef → Option TaskRef) (hd : Queue → Option TaskRef) : Dozes u s (s.setLinks nx hd) :=
  ⟨rfl, fun h => h⟩

end Dozes

section

variable {D : Set TaskRef} {u : TaskRef} {s s' : State}

theorem schedQueueAdd_dozes {q : Queue} {t : TaskRef} (h : schedQueueAdd q t s = some s') : Dozes u s s' := by
  obtain ⟨nx, hd, rfl⟩ := schedQueueAdd_links h
  exact .setLinks nx hd

theorem schedQueueRemove_dozes {q : Queue} {t : TaskRef} (h : schedQueueRemove q t s = some s') : Dozes u s s' := by
  obtain ⟨nx, hd, rfl⟩ := schedQueueRemove_links h
  exact .setLinks nx hd

theorem unblockSelf_dozes {t : TaskRef} (h : unblockSelf t s = some s') : Dozes u s s' := by
  have h0 : Dozes u s (schedLockIrq s) := .of_eq rfl rfl
  unfold unblockSelf at h
  simp only at h
  split_ifs at h
  · obtain ⟨s₁, h1, h2⟩ := Option.bind_eq_some_iff.mp h
    cases h2
    exact ((h0.trans (schedQueueRemove_dozes h1)).trans (.setState s₁ t .running)).trans (.unlockIrq _ _)
  · cases h
    exact h0.trans (.unlockIrq _ _)

theorem finishFrame_dozes {f : Frame} (hu : s.currentTask ≠ some u) (h0 : u ≠ idleRef)
    (h : finishFrame s f = some s') : Dozes u s s' := by
  cases f with
  | yield was => cases h; exact .unlockIrq was s
  | blockTask =>
    simp only [finishFrame] at h
    split at h
    · cases h; exact .refl s
    · exact unblockSelf_dozes h
  | sleepUntil =>
    simp only [finishFrame] at h
    split at h
    · cases h; exact .refl s
    · rename_i t hc
      cases h
      refine .modTask s t fun ht => ?_
      rw [ht] at hc
      exact absurd hc hu
  | exit =>
    simp only [finishFrame] at h
    split at h
    · cases h
      refine ⟨(Dozes.setState s 0 .running).wakeTick, fun hc => ?_⟩
      exact absurd (Option.some.inj hc).symm h0
    · cases h; exact .refl s

theorem resume_dozes {callers : List Frame} (hu : s.currentTask ≠ some u) (h0 : u ≠ idleRef)
    (h : resume callers s = some s') : Dozes u s s' := by
  induction callers generalizing s with
  | nil => cases h; exact .refl _
  | cons f fs ih =>
    rw [resume, List.foldlM_cons] at h
    obtain ⟨s₁, h1, h2⟩ := Option.bind_eq_some_iff.mp h
    have hs := finishFrame_dozes hu h0 h1
    exact hs.trans (ih (fun hc => hu (hs.current hc)) h2)

theorem switchTo_wakeTick {frames : List Frame} {nxt : TaskRef} (h : switchTo frames nxt s = some s') :
    (s'.tasks u).wakeTick = (s.tasks u).wakeTick ∧ s'.currentTask = some nxt := by
  unfold switchTo at h
  obtain ⟨s₁, h1, h⟩ := Option.bind_eq_some_iff.mp h
  obtain ⟨s₂, h2, h⟩ := Option.bind_eq_some_iff.mp h
  cases h
  have hreq : Dozes u s₁ s₂ := by
    rcases requeue_cases h2 with ⟨rfl, -⟩ | ⟨c, -, -, hadd⟩
    · exact .refl _
    · exact (Dozes.setState s₁ c .ready).trans (schedQueueAdd_dozes hadd)
  have hcur : ((makeCurrent nxt s₂).tasks u).wakeTick = (s₂.tasks u).wakeTick :=
    (Dozes.modTask s₂ nxt (f := elected) fun _ => rfl).wakeTick
  have hsave : Dozes u (makeCurrent nxt s₂) (schedSwitch s.currentTask frames nxt (makeCurrent nxt s₂)) := by
    unfold schedSwitch
    cases s.currentTask with
    | none => exact .of_eq rfl rfl
    | some p =>
      have hesp : Dozes u (makeCurrent nxt s₂)
          ((makeCurrent nxt s₂).modTask p fun item => { item with esp := (makeCurrent nxt s₂).cpuEsp }) :=
        .modTask _ p fun _ => rfl
      exact hesp.trans (.of_eq rfl rfl)
  refine ⟨?_, ?_⟩
  · rw [hsave.wakeTick, hcur, hreq.wakeTick, (schedQueueRemove_dozes h1).wakeTick]
  · exact (schedSwitch_keeps _ _ _ _).2.2.2.2.1

theorem schedYieldIn_dozes {callers : List Frame} {L : Queue → List TaskRef} (hq : Queues D s L)
    (hu : s.currentTask ≠ some u) (h0 : u ≠ idleRef) (hst : s.state u ≠ .ready)
    (h : schedYieldIn callers s = some s') : Dozes u s s' := by
  rcases schedYieldIn_outcome hq h with ⟨hback, -⟩ | ⟨nxt, hmem, hswitch⟩
  · exact resume_dozes hu h0 hback
  · obtain ⟨htick, hcur⟩ := switchTo_wakeTick hswitch
    refine ⟨htick, fun hc => ?_⟩
    obtain rfl : u = nxt := Option.some.inj (hc.symm.trans hcur)
    exact absurd (hq.mem u (by simp) .ready hmem) hst

end

section

variable {D : Set TaskRef} {u : TaskRef} {s s' : State}

theorem Inv.not_current (h : Inv D s) (hu : s.state u = .blocked) : s.currentTask ≠ some u := by
  intro hc
  rw [h.running_current hc] at hu
  cases hu

theorem schedYield_dozes (h : Inv D s) (hu : s.state u = .blocked) (hrun : schedYield s = some s') : Dozes u s s' := by
  obtain ⟨L, hq⟩ := h.queues
  exact schedYieldIn_dozes hq (h.not_current hu) (h.ne_idle (Or.inl hu)) (by rw [hu]; decide) hrun

theorem schedPreempt_dozes (h : Inv D s) (hu : s.state u = .blocked) (hrun : schedPreempt s = some s') :
    Dozes u s s' := by
  unfold schedPreempt at hrun
  split_ifs at hrun
  · cases hrun; exact .refl s
  · cases hrun; exact .refl s
  · have hp : Dozes u s { s with preemptPending := false } := .of_eq rfl rfl
    exact hp.trans (schedYield_dozes (h.congr rfl rfl rfl rfl rfl) hu hrun)

theorem schedTick_dozes (regs : Bool) (s : State) : Dozes u s (schedTick regs s) := by
  unfold schedTick
  split_ifs
  · exact .refl s
  · have h1 : Dozes u s { s with schedulerTicks := u32 (s.schedulerTicks + 1) } := .of_eq rfl rfl
    simp only
    split
    · exact h1
    · rename_i c _
      have h2 := h1.trans (.modTask _ c (f := ticked) fun _ => rfl)
      simp only [tickCurrent]
      split_ifs
      · have h3 := h2.trans (.modTask _ c (f := fun item => { item with timeUsed := 0 }) fun _ => rfl)
        exact h3.trans (.of_eq rfl rfl)
      · exact h2

theorem schedBlockTaskIn_dozes {callers : List Frame} {id : ℕ} (h : Inv D s) (hu : s.state u = .blocked)
    (hrun : schedBlockTaskIn callers id s = some s') : Dozes u s s' := by
  have hcur := h.not_current hu
  have hidle := h.ne_idle (Or.inl hu)
  have h0 : Dozes u s (schedLockIrq s) := .of_eq rfl rfl
  cases schedBlockTaskIn_blocks h hrun with
  | back _ hback => exact resume_dozes hcur hidle hback
  | @self t s₂ _ hself hadd hcore hc₂ _ hyield =>
    obtain ⟨L, hq⟩ := hcore.queues
    have hst : s₂.state u ≠ .ready := by
      obtain ⟨nx, hd, rfl⟩ := schedQueueAdd_links hadd
      rw [State.setLinks_state, setState_state]
      split_ifs
      · decide
      · rw [show (schedLockIrq s).state u = .blocked from hu]
        decide
    have hu₂ : s₂.currentTask ≠ some u := fun hc => hcur (hself.trans (hc₂.symm.trans hc))
    have h₂ : Dozes u s s₂ := (h0.trans (.setState _ t .blocked)).trans (schedQueueAdd_dozes hadd)
    have h₃ : Dozes u s₂ { s₂ with irqsEnabled := s.irqsEnabled || s₂.irqsEnabled } := .of_eq rfl rfl
    rw [schedUnlockIrq_eq] at hyield
    exact (h₂.trans h₃).trans (schedYieldIn_dozes (hq.irqs (s.irqsEnabled || s₂.irqsEnabled)) hu₂ hidle hst hyield)
  | @other t s₁ s₂ _ _ hrem hadd hback =>
    have h1 := (h0.trans (schedQueueRemove_dozes hrem)).trans (.setState s₁ t .blocked)
    have h2 : Dozes u s (schedUnlockIrq s.irqsEnabled s₂) := (h1.trans (schedQueueAdd_dozes hadd)).trans (.unlockIrq _ s₂)
    exact h2.trans (resume_dozes (fun hc => hcur (h2.current hc)) hidle hback)

theorem schedBlock_dozes (h : Inv D s) (hu : s.state u = .blocked) (hrun : schedBlock s = some s') : Dozes u s s' := by
  obtain ⟨c, hc, -⟩ := h.current
  simp only [schedBlock, hc] at hrun
  split_ifs at hrun
  · cases hrun; exact .refl s
  · exact schedBlockTaskIn_dozes h hu hrun

theorem schedSleepUntil_dozes {wakeTick : ℕ} (h : Inv D s) (hu : s.state u = .blocked)
    (hrun : schedSleepUntil wakeTick s = some s') : Dozes u s s' := by
  obtain ⟨c, hc, -⟩ := h.current
  have hcu : c ≠ u := fun e => h.not_current hu (e ▸ hc)
  simp only [schedSleepUntil, hc] at hrun
  split_ifs at hrun
  · cases hrun; exact .refl s
  · have hw : Dozes u s (s.modTask c fun item => { item with wakeTick := wakeTick }) :=
      .modTask s c fun e => absurd e hcu
    refine hw.trans (schedBlockTaskIn_dozes (h.keep c (fun _ => rfl) (fun _ => rfl) (fun _ => rfl)) ?_ hrun)
    rw [State.modTask_state, if_neg hcu.symm]
    exact hu

theorem schedUnblock_dozes {item : Option TaskRef} (hrun : schedUnblock item s = some s') : Dozes u s s' := by
  rcases schedUnblock_outcome hrun with rfl | ⟨t, s₁, s₂, -, h1, h2, rfl⟩
  · exact .refl s'
  · have h0 : Dozes u s (schedLockIrq s) := .of_eq rfl rfl
    have h3 := (h0.trans (schedQueueRemove_dozes h1)).trans (.setState s₁ t .ready)
    exact (h3.trans (schedQueueAdd_dozes h2)).trans (.unlockIrq _ _)

theorem schedWakeTask_dozes {id : ℕ} (hrun : schedWakeTask id s = some s') : Dozes u s s' := by
  unfold schedWakeTask at hrun
  split at hrun
  · cases hrun; exact .refl s
  · exact schedUnblock_dozes hrun

theorem bury_dozes {t : TaskRef} (ht : t ≠ u) (h : bury t s = some s') : Dozes u s s' := by
  obtain ⟨s₁, h1, h⟩ := Option.bind_eq_some_iff.mp h
  obtain ⟨s₂, h2, h⟩ := Option.bind_eq_some_iff.mp h
  obtain ⟨s₃, h3, h⟩ := Option.bind_eq_some_iff.mp h
  cases h
  have hreset : Dozes u s₂ (schedResetTask t s₂) := .modTask s₂ t fun e => absurd e ht
  have hrem : Dozes u s s₂ := (schedQueueRemove_dozes h1).trans (schedQueueRemove_dozes h2)
  rw [dropCount_eq]
  exact ((hrem.trans hreset).trans (schedQueueAdd_dozes h3)).trans (.of_eq rfl rfl)

theorem schedExit_dozes (h : Inv D s) (hu : s.state u = .blocked) (hrun : schedExit s = some s') : Dozes u s s' := by
  obtain ⟨c, hc, hst⟩ := h.current
  have hcu : c ≠ u := fun e => h.not_current hu (e ▸ hc)
  have hi : Inv D (schedLockIrq s) := h.irqs false
  have hlive : (schedLockIrq s).state c ≠ .dead := by
    rw [show (schedLockIrq s).state c = .running from hst]
    decide
  simp only [schedExit, hc] at hrun
  split_ifs at hrun
  · cases hrun; exact .refl s
  · obtain ⟨L, hq⟩ := hi.queues
    obtain ⟨s₁, L', hbury, hq₁, -, hstate, -⟩ := bury_spec hq hlive
    have hleft : schedUnlockIrq s.irqsEnabled { s₁ with currentTask := none } =
        { s₁ with currentTask := none, irqsEnabled := s.irqsEnabled || s₁.irqsEnabled } := schedUnlockIrq_eq _ _
    rw [hbury, Option.bind_eq_bind, Option.bind_some, hleft] at hrun
    have h0 : Dozes u s (schedLockIrq s) := .of_eq rfl rfl
    have h1 := h0.trans (bury_dozes hcu hbury)
    have hblk : s₁.state u ≠ .ready := by
      rw [hstate, if_neg hcu.symm, show (schedLockIrq s).state u = .blocked from hu]
      decide
    have hq₂ : Queues D { s₁ with currentTask := none, irqsEnabled := s.irqsEnabled || s₁.irqsEnabled } L' :=
      hq₁.congr rfl rfl rfl
    have h2 := schedYieldIn_dozes hq₂ (Option.some_ne_none u).symm (h.ne_idle (Or.inl hu)) hblk hrun
    exact ⟨h2.wakeTick.trans h1.wakeTick, fun he => by cases h2.current he⟩

theorem schedKill_dozes {id : ℕ} (h : Inv D s) (hu : s.state u = .blocked) (hrun : schedKill id s = some s') :
    Dozes u s s' ∨ s'.state u = .dead := by
  rcases schedKill_outcome hrun with rfl | hexit | ⟨t, s₁, hlive, -, hbury, rfl⟩
  · exact Or.inl (.refl s')
  · exact Or.inl (schedExit_dozes h hu hexit)
  · rcases eq_or_ne t u with rfl | htu
    · right
      rw [schedUnlockIrq_eq]
      exact ((bury_buried (s := schedLockIrq s) hlive hbury).dead t).mpr (Or.inl rfl)
    · have h0 : Dozes u s (schedLockIrq s) := .of_eq rfl rfl
      exact Or.inl ((h0.trans (bury_dozes htu hbury)).trans (.unlockIrq _ _))

theorem describeTask_dozes (t : TaskRef) (name : ℕ → UInt8) (eip esp : ℕ) (s : State) :
    Dozes u s (describeTask t name eip esp s) := by
  refine ⟨?_, fun h => h⟩
  unfold describeTask schedInitStack
  rcases eq_or_ne u t with rfl | hu
  · simp [State.modTask, started, stacked, childOf, numbered]
  · simp [State.modTask, hu]

theorem schedCreate_dozes {name : Option (ℕ → UInt8)} {eip esp : ℕ} {r : Option TaskRef}
    (hrun : schedCreate name eip esp s = some (s', r)) : Dozes u s s' := by
  rcases schedCreate_outcome hrun with ⟨rfl, -⟩ | ⟨label, t, s₁, s₂, -, -, h1, h2, rfl⟩
  · exact .refl s'
  · have h0 : Dozes u s (schedLockIrq s) := .of_eq rfl rfl
    have h3 := (h0.trans (schedQueueRemove_dozes h1)).trans (describeTask_dozes t label eip esp s₁)
    have h4 : Dozes u s₂ { s₂ with taskCountValue := u32 (s₂.taskCountValue + 1) } := .of_eq rfl rfl
    exact ((h3.trans (schedQueueAdd_dozes h2)).trans h4).trans (.unlockIrq _ _)

theorem schedSetPriority_dozes (item : Option TaskRef) (priority : ℕ) (s : State) :
    Dozes u s (schedSetPriority item priority s) := by
  unfold schedSetPriority
  split
  · exact .refl s
  · split_ifs
    · exact .refl s
    · exact .modTask s _ fun _ => rfl
    · exact .modTask s _ fun _ => rfl

theorem schedSetPolicy_dozes (policy : ℕ) (s : State) : Dozes u s (schedSetPolicy policy s) := by
  unfold schedSetPolicy
  split
  · exact .of_eq rfl rfl
  · exact .of_eq rfl rfl
  · exact .refl s

theorem schedUnlock_dozes (s : State) : Dozes u s (schedUnlock s) := by
  unfold schedUnlock
  split_ifs
  · exact .of_eq rfl rfl
  · exact .refl s

theorem Woken.dozes {L : Queue → List TaskRef} {kept ts : List TaskRef} (h : Woken s L kept ts s') :
    Dozes u s s' ∨ s'.state u = .ready := by
  have htask := h.tasks u
  split_ifs at htask with hin
  · right
    rw [State.state, htask]
    rfl
  · left
    refine ⟨by rw [htask], fun hc => ?_⟩
    rw [h.rest] at hc
    exact hc

theorem call_dozes {c : Call} (h : Inv D s) (hu : s.state u = .blocked) (hrun : c.run s = some s') :
    Dozes u s s' ∨ s'.state u ≠ .blocked := by
  cases c with
  | create name eip esp =>
    obtain ⟨⟨s₁, r⟩, h1, rfl⟩ := Option.map_eq_some_iff.mp hrun
    exact Or.inl (schedCreate_dozes h1)
  | yield => exact Or.inl (schedYield_dozes h hu hrun)
  | tick regs => cases hrun; exact Or.inl (schedTick_dozes regs s)
  | preempt => exact Or.inl (schedPreempt_dozes h hu hrun)
  | block => exact Or.inl (schedBlock_dozes h hu hrun)
  | blockTask id => exact Or.inl (schedBlockTaskIn_dozes h hu hrun)
  | unblock item => exact Or.inl (schedUnblock_dozes hrun)
  | wakeTask id => exact Or.inl (schedWakeTask_dozes hrun)
  | sleepUntil wakeTick => exact Or.inl (schedSleepUntil_dozes h hu hrun)
  | wakeExpired nowTick =>
    obtain ⟨L, hq⟩ := h.queues
    obtain ⟨s₁, h1, hwoken⟩ := schedWakeExpired_spec hq.chains (h.partition.nodup hq.chains) nowTick
    rw [Call.run, h1] at hrun
    cases hrun
    exact hwoken.dozes.imp_right fun hr => by rw [hr]; decide
  | kill id => exact (schedKill_dozes h hu hrun).imp_right fun hd => by rw [hd]; decide
  | exit => exact Or.inl (schedExit_dozes h hu hrun)
  | setPolicy policy => cases hrun; exact Or.inl (schedSetPolicy_dozes policy s)
  | setPriority item priority => cases hrun; exact Or.inl (schedSetPriority_dozes item priority s)
  | lock => cases hrun; exact Or.inl (.of_eq rfl rfl)
  | unlock => cases hrun; exact Or.inl (schedUnlock_dozes s)

/-- Whatever happens, a task that is still blocked has the `WakeTick` that it had. -/
theorem next_wakeTick {e : Event} (h : Inv D s) (hu : s.state u = .blocked) (hrun : system.next s e = some s')
    (hu' : s'.state u = .blocked) : (s'.tasks u).wakeTick = (s.tasks u).wakeTick := by
  cases e with
  | call c => exact ((call_dozes h hu hrun).resolve_right fun hne => hne hu').wakeTick
  | finish =>
    obtain ⟨c, hc, -⟩ := h.current
    simp only [system, finish, hc] at hrun
    split at hrun
    · cases hrun
    · rename_i f fs _
      have hf : Dozes u s (s.setFrames c fs) := .of_eq rfl rfl
      have hcur : (s.setFrames c fs).currentTask ≠ some u := h.not_current hu
      exact (hf.trans (finishFrame_dozes hcur (h.ne_idle (Or.inl hu)) hrun)).wakeTick

end

end Novium.Sched
