import Novium.Sched.Switching

/-! Every call of the scheduler ends and keeps the partition. One lemma for each
call; the moves between queues are `detach`, a rewrite of the descriptor, and
`attach`. -/

namespace Novium.Sched

open Novium.Lib

variable {D : Set TaskRef}

/-- The parts of the state that no queue move touches. -/
structure Kept (s s' : State) : Prop where
  id : s'.id = s.id
  currentTask : s'.currentTask = s.currentTask
  schedulerLocked : s'.schedulerLocked = s.schedulerLocked

theorem kept_setState (s : State) (t : TaskRef) (st : TaskState) : Kept s (s.setState t st) :=
  ⟨s.modTask_field t (fun item => { item with state := st }) (·.id) fun _ => rfl, rfl, rfl⟩

theorem setState_state (s : State) (t : TaskRef) (st : TaskState) (u : TaskRef) :
    (s.setState t st).state u = if u = t then st else s.state u :=
  s.modTask_state t (fun item => { item with state := st }) u

theorem QueuesOff.setState {X : Set TaskRef} {s : State} {L : Queue → List TaskRef} {t : TaskRef}
    (h : QueuesOff D X s L) (ht : t ∈ X) (st : TaskState) : QueuesOff D X (s.setState t st) L :=
  h.modTask ht _

/-- Taking `t` off the queue of its state and adding it to `q'` under that state. -/
theorem Queues.move {s : State} {L : Queue → List TaskRef} {q : Queue} {t : TaskRef} (hq : Queues D s L)
    (ht : s.state t = queueState q) (q' : Queue) :
    ∃ s₁ s₂, schedQueueRemove q t s = some s₁ ∧
      schedQueueAdd q' t (s₁.setState t (queueState q')) = some s₂ ∧
      Queues D s₂ (let L₁ := Function.update L q ((L q).erase t); Function.update L₁ q' (L₁ q' ++ [t])) ∧
      (∀ u, s₂.state u = if u = t then queueState q' else s.state u) ∧ Kept s s₂ := by
  obtain ⟨nx, hd, h1, hq1⟩ := hq.detach ht
  have hq2 := hq1.setState (Set.mem_insert t ∅) (queueState q')
  have hst := setState_state (s.setLinks nx hd) t (queueState q')
  obtain ⟨nx', hd', h2, hq3⟩ := hq2.attach (q := q') (Set.mem_insert t ∅) ((hst t).trans (if_pos rfl))
  rw [show (insert t ∅ \ {t} : Set TaskRef) = ∅ by simp] at hq3
  have hk := kept_setState (s.setLinks nx hd) t (queueState q')
  exact ⟨_, _, h1, h2, hq3, hst, hk.id, hk.currentTask, hk.schedulerLocked⟩

theorem Inv.moved {s s' : State} {L : Queue → List TaskRef} {t : TaskRef} {st : TaskState} (h : Inv D s)
    (hq : Queues D s' L) (hst : ∀ u, s'.state u = if u = t then st else s.state u) (hk : Kept s s')
    (ht : s.state t ≠ .running) (hst' : st ≠ .running) (h0 : t = 0 → st = .ready) : Inv D s' := by
  obtain ⟨c, hc, hrun⟩ := h.current
  have hct : c ≠ t := fun e => ht (e ▸ hrun)
  refine ⟨⟨⟨L, hq⟩, fun u hu => ?_, ?_, ?_⟩, c, hk.currentTask.trans hc, ?_⟩
  · rw [hst] at hu
    split_ifs at hu with hut
    · exact absurd hu hst'
    · exact hk.currentTask.trans (h.running u hu)
  · rw [hst]
    split_ifs with h0t
    · exact Or.inl (h0 h0t.symm)
    · exact h.idle
  · rw [hk.id]
    exact h.idleId
  · rw [hst, if_neg hct]
    exact hrun

theorem Inv.ne_idle {s : State} (h : Inv D s) {t : TaskRef} (ht : s.state t = .blocked ∨ s.state t = .dead) :
    t ≠ 0 := by
  rintro rfl
  have := h.idle
  rcases ht with ht | ht <;> simp [ht] at this

theorem unblockSelf_of_ne {s : State} {t : TaskRef} (ht : s.state t ≠ .blocked) :
    unblockSelf t s = some s := by
  simp only [unblockSelf]
  rw [if_neg (show ¬ (schedLockIrq s).state t = .blocked from ht), schedUnlockIrq_schedLockIrq]

theorem finishFrame_inv {s : State} (h : Inv D s) (f : Frame) : ∃ s', finishFrame s f = some s' ∧ Inv D s' := by
  obtain ⟨c, hc, hrun⟩ := h.current
  cases f with
  | yield was => exact ⟨_, rfl, h.unlockIrq was⟩
  | blockTask =>
    -- the task runs, so the block was lifted by whoever woke it
    refine ⟨s, ?_, h⟩
    simp only [finishFrame, hc]
    exact unblockSelf_of_ne (by simp [hrun])
  | sleepUntil =>
    simp only [finishFrame, hc]
    exact ⟨_, rfl, h.keep c (fun _ => rfl) (fun _ => rfl) (fun _ => rfl)⟩
  | exit =>
    simp only [finishFrame, hc]
    exact ⟨s, rfl, h⟩

theorem resume_inv {s : State} (h : Inv D s) (callers : List Frame) :
    ∃ s', resume callers s = some s' ∧ Inv D s' := by
  induction callers generalizing s with
  | nil => exact ⟨s, rfl, h⟩
  | cons f fs ih =>
    obtain ⟨s₁, h1, hi⟩ := finishFrame_inv h f
    obtain ⟨s', h2, hi'⟩ := ih hi
    refine ⟨s', ?_, hi'⟩
    rw [resume, List.foldlM_cons, h1]
    exact h2

theorem schedYield_inv {s : State} (h : Inv D s) : ∃ s', schedYield s = some s' ∧ Inv D s' := by
  obtain ⟨L, hq⟩ := h.queues
  have hcur : ∀ c, s.currentTask = some c → s.state c ≠ .ready := by
    intro c hc
    simp [h.running_current hc]
  rcases schedYieldIn_cases [] hq hcur h.running with ⟨hret, -⟩ | ⟨-, nxt, s', -, hs', hsw⟩
  · exact ⟨s, hret, h⟩
  · exact ⟨s', hs', h.switched hsw⟩

theorem schedPreempt_inv {s : State} (h : Inv D s) : ∃ s', schedPreempt s = some s' ∧ Inv D s' := by
  unfold schedPreempt
  split_ifs
  · exact ⟨s, rfl, h⟩
  · exact ⟨s, rfl, h⟩
  · exact schedYield_inv (h.congr rfl rfl rfl rfl rfl)

theorem tickCurrent_inv {s : State} (h : Inv D s) (c : TaskRef) : Inv D (tickCurrent c s) := by
  have h1 : Inv D (s.modTask c ticked) := h.keep c (fun _ => rfl) (fun _ => rfl) (fun _ => rfl)
  have h2 : Inv D ((s.modTask c ticked).modTask c fun item => { item with timeUsed := 0 }) :=
    h1.keep c (fun _ => rfl) (fun _ => rfl) (fun _ => rfl)
  simp only [tickCurrent]
  split_ifs
  · exact h2.congr rfl rfl rfl rfl rfl
  · exact h1

theorem schedTick_inv {s : State} (h : Inv D s) (regs : Bool) : Inv D (schedTick regs s) := by
  have h1 : Inv D { s with schedulerTicks := u32 (s.schedulerTicks + 1) } := h.congr rfl rfl rfl rfl rfl
  unfold schedTick
  split_ifs
  · exact h
  · simp only
    split
    · exact h1
    · exact tickCurrent_inv h1 _

/-- The block of the current task is undone when the yield inside it returns. -/
theorem unblockSelf_inv {s : State} {c : TaskRef} (hcore : Core D s) (hc : s.currentTask = some c)
    (hst : s.state c = .blocked) : ∃ s', unblockSelf c s = some s' ∧ Inv D s' := by
  obtain ⟨L, hq⟩ := hcore.queues
  have hq0 := hq.irqs false
  obtain ⟨nx, hd, h1, hq1⟩ := hq0.detach (q := .blocked) hst
  have hq2 := hq1.setState (Set.mem_insert c ∅) .running
  have hst2 := setState_state ({ s with irqsEnabled := false }.setLinks nx hd) c .running
  have hq3 := hq2.settle (t := c) ((hst2 c).trans (if_pos rfl))
  rw [show (insert c ∅ \ {c} : Set TaskRef) = ∅ by simp] at hq3
  have hk := kept_setState ({ s with irqsEnabled := false }.setLinks nx hd) c .running
  have hinv : Inv D (({ s with irqsEnabled := false }.setLinks nx hd).setState c .running) := by
    refine ⟨⟨⟨_, hq3⟩, fun t ht => ?_, ?_, ?_⟩, c, hc, (hst2 c).trans (if_pos rfl)⟩
    · rw [hst2] at ht
      split_ifs at ht with htc
      · rw [htc]; exact hc
      · exact hcore.running t ht
    · rw [hst2]
      split_ifs with h0
      · exact Or.inr rfl
      · exact hcore.idle
    · rw [hk.id]; exact hcore.idleId
  refine ⟨schedUnlockIrq s.irqsEnabled _, ?_, hinv.unlockIrq _⟩
  simp only [unblockSelf]
  rw [if_pos (show (schedLockIrq s).state c = .blocked from hst)]
  rw [show schedQueueRemove .blocked c (schedLockIrq s) = _ from h1]
  rfl

theorem mark_blocked {s : State} {c : TaskRef} (h : Inv D s) (hc : s.currentTask = some c) (h0 : c ≠ 0) :
    ∃ s₂, schedQueueRemove .ready c s = some s ∧ schedQueueAdd .blocked c (s.setState c .blocked) = some s₂ ∧
      Core D s₂ ∧ s₂.currentTask = some c ∧ s₂.state c = .blocked := by
  obtain ⟨L, hq⟩ := h.queues
  have hrun := h.running_current hc
  have hrem := hq.remove_absent (t := c) (q := .ready) (Or.inr (by simp [hrun, queueState]))
  have hq1 := (hq.lift hrun).setState (Set.mem_insert c ∅) .blocked
  have hst1 := setState_state s c .blocked
  obtain ⟨nx, hd, hadd, hq2⟩ := hq1.attach (q := .blocked) (Set.mem_insert c ∅) ((hst1 c).trans (if_pos rfl))
  rw [show (insert c ∅ \ {c} : Set TaskRef) = ∅ by simp] at hq2
  refine ⟨_, hrem, hadd, ⟨⟨_, hq2⟩, fun t ht => ?_, ?_, ?_⟩, hc, (hst1 c).trans (if_pos rfl)⟩
  · rw [State.setLinks_state, hst1] at ht
    split_ifs at ht with htc
    exact h.running t ht
  · rw [State.setLinks_state, hst1, if_neg h0.symm]
    exact h.idle
  · rw [State.setLinks_id, (kept_setState s c .blocked).id]
    exact h.idleId

theorem yield_blocked {s : State} {c : TaskRef} (h : Core D s) (hc : s.currentTask = some c)
    (hblk : s.state c = .blocked) (callers : List Frame) :
    ∃ s', schedYieldIn (.blockTask :: callers) s = some s' ∧ Inv D s' := by
  obtain ⟨L, hq⟩ := h.queues
  have hnr : ∀ c', s.currentTask = some c' → s.state c' ≠ .ready := by
    intro c' hc'
    obtain rfl : c = c' := Option.some.inj (hc.symm.trans hc')
    simp [hblk]
  rcases schedYieldIn_cases (.blockTask :: callers) hq hnr h.running with
    ⟨hret, -⟩ | ⟨-, nxt, s', -, hs', hsw⟩
  · obtain ⟨s₁, h1, hi1⟩ := unblockSelf_inv h hc hblk
    obtain ⟨s', h2, hi2⟩ := resume_inv hi1 callers
    refine ⟨s', ?_, hi2⟩
    rw [hret, resume, List.foldlM_cons]
    simp only [finishFrame, hc, h1]
    exact h2
  · exact ⟨s', hs', h.switched hsw⟩

theorem schedFind_some {s : State} {id : ℕ} {t : TaskRef} (h : schedFind id s = some t) :
    s.state t ≠ .dead ∧ s.id t = id := by
  have := List.find?_some h
  simpa using this

theorem schedBlockTaskIn_inv {s : State} (h : Inv D s) (callers : List Frame) (id : ℕ) :
    ∃ s', schedBlockTaskIn callers id s = some s' ∧ Inv D s' := by
  have hback := resume_inv h callers
  have hi : Inv D (schedLockIrq s) := h.irqs false
  unfold schedBlockTaskIn
  cases hfind : schedFind id (schedLockIrq s) with
  | none => simpa only [hfind, schedUnlockIrq_schedLockIrq] using hback
  | some t =>
    simp only [hfind, schedUnlockIrq_schedLockIrq]
    split_ifs with hskip hself hrdy
    · exact hback
    · have h0 : t ≠ 0 := by
        rintro rfl
        exact hskip (Or.inr (Or.inl h.idleId))
      obtain ⟨s₂, hrem, hadd, hcore, hc2, hblk⟩ := mark_blocked hi hself h0
      obtain ⟨s', hy, hinv⟩ := yield_blocked (hcore.unlockIrq s.irqsEnabled)
        (by rw [schedUnlockIrq_eq]; exact hc2) (by rw [schedUnlockIrq_eq]; exact hblk) callers
      refine ⟨s', ?_, hinv⟩
      rw [hrem, Option.bind_eq_bind, Option.bind_some, hadd]
      exact hy
    · obtain ⟨L, hq⟩ := hi.queues
      obtain ⟨s₁, s₂, h1, h2, hq2, hst, hk⟩ := hq.move (q := .ready) hrdy .blocked
      have hne : t ≠ 0 := fun e => hskip (Or.inr (Or.inl (e ▸ h.idleId)))
      have hi2 := hi.moved hq2 hst hk (by simp [hrdy]) (by simp [queueState]) fun e => absurd e hne
      obtain ⟨s', hr, hinv⟩ := resume_inv (hi2.unlockIrq s.irqsEnabled) callers
      refine ⟨s', ?_, hinv⟩
      rw [h1, Option.bind_eq_bind, Option.bind_some]
      simp only [queueState] at h2
      rw [h2]
      exact hr
    · -- no state is left: the task is neither dead, blocked, ready nor the running one
      exfalso
      cases hst : (schedLockIrq s).state t with
      | dead => exact hskip (Or.inl hst)
      | blocked => exact hskip (Or.inr (Or.inr hst))
      | ready => exact hrdy hst
      | running => exact hself (hi.running t hst)

theorem schedBlockTask_inv {s : State} (h : Inv D s) (id : ℕ) : ∃ s', schedBlockTask id s = some s' ∧ Inv D s' :=
  schedBlockTaskIn_inv h [] id

theorem schedBlock_inv {s : State} (h : Inv D s) : ∃ s', schedBlock s = some s' ∧ Inv D s' := by
  obtain ⟨c, hc, -⟩ := h.current
  simp only [schedBlock, hc]
  split_ifs
  · exact ⟨s, rfl, h⟩
  · exact schedBlockTask_inv h _

theorem schedSleepUntil_inv {s : State} (h : Inv D s) (wakeTick : ℕ) :
    ∃ s', schedSleepUntil wakeTick s = some s' ∧ Inv D s' := by
  obtain ⟨c, hc, -⟩ := h.current
  simp only [schedSleepUntil, hc]
  split_ifs
  · exact ⟨s, rfl, h⟩
  · apply schedBlockTaskIn_inv
    exact h.keep c (f := fun item => { item with wakeTick := wakeTick }) (fun _ => rfl) (fun _ => rfl)
      (fun _ => rfl)

theorem unblockSection_inv {s : State} {t : TaskRef} (h : Inv D s) (ht : s.state t = .blocked) :
    ∃ s', unblockSection t s = some s' ∧ Inv D s' := by
  have hi : Inv D (schedLockIrq s) := h.irqs false
  obtain ⟨L, hq⟩ := hi.queues
  obtain ⟨s₁, s₂, h1, h2, hq2, hst, hk⟩ := hq.move (q := .blocked) (t := t) ht .ready
  have hnr : (schedLockIrq s).state t ≠ .running := by rw [show (schedLockIrq s).state t = _ from ht]; simp
  have hi2 := hi.moved hq2 hst hk hnr (by simp [queueState]) fun _ => rfl
  refine ⟨_, ?_, hi2.unlockIrq s.irqsEnabled⟩
  simp only [queueState] at h2
  simp only [unblockSection, h1, h2, Option.bind_eq_bind, Option.bind_some]

theorem unblockTest_some {item : Option TaskRef} {s : State} {t : TaskRef} (h : unblockTest item s = some t) :
    s.state t = .blocked :=
  of_decide_eq_true (Option.filter_eq_some_iff.mp h).2

theorem schedUnblock_inv {s : State} (h : Inv D s) (item : Option TaskRef) :
    ∃ s', schedUnblock item s = some s' ∧ Inv D s' := by
  unfold schedUnblock
  cases htest : unblockTest item s with
  | none => exact ⟨s, rfl, h⟩
  | some t => exact unblockSection_inv h (unblockTest_some htest)

theorem schedWakeTask_inv {s : State} (h : Inv D s) (id : ℕ) : ∃ s', schedWakeTask id s = some s' ∧ Inv D s' := by
  unfold schedWakeTask
  split
  · exact ⟨s, rfl, h⟩
  · exact schedUnblock_inv h _

end Novium.Sched
