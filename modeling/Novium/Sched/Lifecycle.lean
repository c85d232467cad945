import Novium.Sched.Frame

/-! The calls that move descriptors in bulk or recycle them: `SchedWakeExpired`,
`SchedExit`, `SchedKill` and `SchedCreate`. -/

namespace Novium.Sched

open Novium.Lib

variable {D : Set TaskRef}

theorem linked_next_eq_head? {nx : TaskRef → Option TaskRef} {h : Option TaskRef} {l m : List TaskRef}
    {t : TaskRef} (hl : Linked nx h (l ++ t :: m)) : nx t = m.head? :=
  hl.suffix.2.head_eq

theorem wakeOne_spec {s : State} {L : Queue → List TaskRef} {t : TaskRef} (h : Inv D s) (hq : Queues D s L)
    (ht : t ∈ L .blocked) :
    ∃ s' L', wakeOne t s = some s' ∧ Inv D s' ∧ Queues D s' L' ∧ L' .blocked = (L .blocked).erase t := by
  have hblk : s.state t = .blocked := hq.mem t (by simp) .blocked ht
  have hi := h.keep t (f := fun item => { item with wakeTick := 0 }) (fun _ => rfl) (fun _ => rfl) (fun _ => rfl)
  have hq0 := hq.keep t (f := fun item => { item with wakeTick := 0 }) (fun _ => rfl) (fun _ => rfl)
  have hblk0 : (s.modTask t fun item => { item with wakeTick := 0 }).state t = .blocked := by
    rw [State.modTask_state, if_pos rfl]; exact hblk
  obtain ⟨s₁, s₂, h1, h2, hq2, hst, hk⟩ := Queues.move (q := .blocked) hq0 hblk0 .ready
  simp only [queueState] at h2
  refine ⟨s₂, _, ?_, hi.moved hq2 hst hk (by simp [hblk0]) (by simp [queueState]) fun _ => rfl, hq2, ?_⟩
  · simp only [wakeOne, h1, Option.bind_eq_bind, Option.bind_some]
    exact h2
  · simp

/-- The loop of `SchedWakeExpired` at the nodes `l` of the blocked queue: a woken
task leaves the nodes behind it linked as they were. -/
theorem wakeLoop_inv (nowTick : ℕ) {l : List TaskRef} :
    ∀ (pre : List TaskRef) {n : ℕ} (woken : ℕ) {s : State} {L : Queue → List TaskRef}, Inv D s → Queues D s L →
      L .blocked = pre ++ l → l.length < n →
      ∃ s' w, wakeLoop nowTick n l.head? woken s = some (s', w) ∧ Inv D s' ∧ SameTasks s s' := by
  induction l with
  | nil =>
    intro pre n woken s L h _ _ hn
    obtain ⟨m, rfl⟩ : ∃ m, n = m + 1 := ⟨n - 1, by simp at hn; omega⟩
    exact ⟨s, woken, rfl, h, .refl s⟩
  | cons t l ih =>
    intro pre n woken s L h hq hL hn
    obtain ⟨m, rfl⟩ : ∃ m, n = m + 1 := ⟨n - 1, by omega⟩
    have hm : l.length < m := by simpa using hn
    have hchain := hq.chains .blocked
    rw [hL] at hchain
    have hnext : s.next t = l.head? := linked_next_eq_head? hchain
    simp only [List.head?_cons, wakeLoop, hnext]
    split_ifs with hexp
    · obtain ⟨s₁, L₁, h1, hi1, hq1, hL1⟩ := wakeOne_spec h hq (t := t) (by simp [hL])
      have hpre : t ∉ pre := fun hin => List.disjoint_of_nodup_append hchain.nodup hin (by simp)
      have hL1' : L₁ .blocked = pre ++ l := by
        rw [hL1, hL, List.erase_append_right _ hpre, List.erase_cons_head]
      obtain ⟨s', w, h2, hi2, hsame⟩ := ih pre (u32 (woken + 1)) hi1 hq1 hL1' hm
      have hblk : s.state t = .blocked := hq.mem t (by simp) .blocked (by simp [hL])
      refine ⟨s', w, ?_, hi2, (wakeOne_same (by rw [hblk]; decide) h1).trans hsame⟩
      rw [h1]
      exact h2
    · have hL' : L .blocked = (pre ++ [t]) ++ l := by simpa using hL
      exact ih (pre ++ [t]) woken h hq hL' hm

theorem schedWakeExpired_inv {s : State} (h : Inv D s) (nowTick : ℕ) :
    ∃ s' w, schedWakeExpired nowTick s = some (s', w) ∧ Inv D s' ∧ SameTasks s s' := by
  have hi : Inv D (schedLockIrq s) := h.irqs false
  obtain ⟨L, hq⟩ := hi.queues
  have hchain := hq.chains .blocked
  have hhead : s.blockedQueue = (L .blocked).head? := hchain.head_eq
  have hlen := linked_length_le hchain
  obtain ⟨s', w, h1, hi1, hsame⟩ := wakeLoop_inv nowTick [] 0 hi hq rfl
    (n := (schedMaxTasks + 1) * (schedMaxTasks + 1)) (by unfold schedMaxTasks at *; omega)
  have hs := ((SameTasks.lockIrq s).trans hsame).trans (.unlockIrq s.irqsEnabled s')
  refine ⟨_, w, ?_, hi1.unlockIrq s.irqsEnabled, hs⟩
  simp only [schedWakeExpired, hhead, h1, Option.bind_eq_bind, Option.bind_some]

theorem reset_state (s : State) (t u : TaskRef) :
    (schedResetTask t s).state u = if u = t then .dead else s.state u :=
  s.modTask_state t resetTask u

theorem reset_dead (s : State) (t u : TaskRef) :
    (schedResetTask t s).state u = .dead ↔ u = t ∨ s.state u = .dead := by
  rw [reset_state]
  split_ifs with hu <;> simp [hu]

theorem dropCount_eq (s : State) : dropCount s = { s with taskCountValue := s.taskCountValue - 1 } := by
  unfold dropCount
  split_ifs with h
  · rfl
  · have h0 : s.taskCountValue = 0 := by omega
    rw [h0]
    exact congrArg (fun n => { s with taskCountValue := n }) h0

theorem bury_buried {t : TaskRef} {s s' : State} (ht : s.state t ≠ .dead) (h : bury t s = some s') :
    Buried s t s' := by
  obtain ⟨s₁, h1, h⟩ := Option.bind_eq_some_iff.mp h
  obtain ⟨s₂, h2, h⟩ := Option.bind_eq_some_iff.mp h
  obtain ⟨s₃, h3, h⟩ := Option.bind_eq_some_iff.mp h
  cases h
  have hrem := (schedQueueRemove_same h1).trans (schedQueueRemove_same h2)
  have hadd := schedQueueAdd_same h3
  rw [dropCount_eq]
  refine Buried.after ⟨hrem.live ht, fun u => ?_, fun u => ?_, hadd.nextTaskId, ?_, hadd.schedulerLocked⟩ hrem
  · rw [← reset_dead s₂ t u]
    exact hadd.dead u
  · show s₃.id u = _
    rw [hadd.id]
    exact s₂.modTask_id t resetTask u
  · show s₃.taskCountValue - 1 = s₂.taskCountValue - 1
    rw [hadd.taskCountValue]
    rfl

theorem Queues.removeBoth {s : State} {L : Queue → List TaskRef} {t : TaskRef} (hq : Queues D s L)
    (ht : s.state t ≠ .dead) :
    ∃ nx₁ hd₁ nx hd L', schedQueueRemove .ready t s = some (s.setLinks nx₁ hd₁) ∧
      schedQueueRemove .blocked t (s.setLinks nx₁ hd₁) = some (s.setLinks nx hd) ∧
      QueuesOff D {t} (s.setLinks nx hd) L' := by
  have hself : (insert t ∅ : Set TaskRef) = {t} := by simp
  cases hst : s.state t with
  | dead => exact absurd hst ht
  | ready =>
    obtain ⟨nx, hd, h1, hq1⟩ := hq.detach (q := .ready) hst
    have h2 := hq1.remove_absent (t := t) (q := .blocked) (Or.inl (Set.mem_insert t ∅))
    exact ⟨nx, hd, nx, hd, _, h1, h2, hself ▸ hq1⟩
  | blocked =>
    have h1 := hq.remove_absent (t := t) (q := .ready) (Or.inr (by simp [hst, queueState]))
    obtain ⟨nx, hd, h2, hq2⟩ := hq.detach (q := .blocked) hst
    exact ⟨s.next, s.head, nx, hd, _, h1, h2, hself ▸ hq2⟩
  | running =>
    have h1 := hq.remove_absent (t := t) (q := .ready) (Or.inr (by simp [hst, queueState]))
    have h2 := hq.remove_absent (t := t) (q := .blocked) (Or.inr (by simp [hst, queueState]))
    exact ⟨s.next, s.head, s.next, s.head, _, h1, h2, hself ▸ hq.lift hst⟩

theorem bury_spec {s : State} {L : Queue → List TaskRef} {t : TaskRef} (hq : Queues D s L)
    (ht : s.state t ≠ .dead) :
    ∃ s' L', bury t s = some s' ∧ Queues D s' L' ∧ t ∈ L' .dead ∧
      (∀ u, s'.state u = if u = t then .dead else s.state u) ∧ (∀ u, u ≠ t → s'.id u = s.id u) ∧
      s'.currentTask = s.currentTask ∧ s'.schedulerLocked = s.schedulerLocked := by
  obtain ⟨nx₁, hd₁, nx, hd, L', h1, h2, hq1⟩ := hq.removeBoth ht
  have hq2 := hq1.modTask (Set.mem_singleton t) resetTask
  have hst := reset_state (s.setLinks nx hd) t
  obtain ⟨nx', hd', h3, hq3⟩ := hq2.attach (q := .dead) (Set.mem_singleton t) ((hst t).trans (if_pos rfl))
  rw [Set.sdiff_self] at hq3
  have hid : ∀ u, u ≠ t → ((schedResetTask t (s.setLinks nx hd)).setLinks nx' hd').id u = s.id u := by
    intro u hu
    rw [State.setLinks_id, schedResetTask, State.modTask_id, if_neg hu]
    rfl
  refine ⟨dropCount ((schedResetTask t (s.setLinks nx hd)).setLinks nx' hd'),
    Function.update L' .dead (L' .dead ++ [t]), ?_, ?_, ?_, ?_⟩
  · simp only [bury, h1, h2, Option.bind_eq_bind, Option.bind_some]
    rw [show schedQueueAdd .dead t (schedResetTask t (s.setLinks nx hd)) = _ from h3]
    rfl
  · rw [dropCount_eq]
    exact hq3.congr rfl rfl rfl
  · simp
  · rw [dropCount_eq]
    exact ⟨hst, hid, rfl, rfl⟩

/-- What `SchedExit` hands to its yield: the descriptor is buried, no task is
current, and the idle task is ready. -/
theorem schedExit_enter {s : State} {c : TaskRef} (h : Inv D s) (hc : s.currentTask = some c)
    (h0 : s.id c ≠ 0) :
    ∃ s₁, schedExit s = schedYieldIn [.exit] s₁ ∧ Core D s₁ ∧ s₁.currentTask = none ∧
      s₁.schedulerLocked = s.schedulerLocked ∧ s₁.state 0 = .ready ∧ Buried s c s₁ := by
  have hi : Inv D (schedLockIrq s) := h.irqs false
  obtain ⟨L, hq⟩ := hi.queues
  have hrun := hi.running_current hc
  have hne : c ≠ 0 := fun e => h0 (e ▸ h.idleId)
  obtain ⟨s', L', h1, hq1, -, hst, hid, -, hl⟩ := bury_spec hq (t := c) (by simp [hrun])
  have honly : ∀ t, (schedLockIrq s).state t = .running → t = c := fun t ht =>
    Option.some.inj ((hi.running t ht).symm.trans hc)
  have hidle : s'.state 0 = .ready := by
    rw [hst, if_neg hne.symm]
    exact hi.idle.resolve_right fun hr => hne (honly 0 hr).symm
  have hcore : Core D { s' with currentTask := none } := by
    refine ⟨⟨L', hq1.congr rfl rfl rfl⟩, fun t ht => ?_, Or.inl hidle, (hid 0 hne.symm).trans h.idleId⟩
    have ht' : s'.state t = .running := ht
    rw [hst] at ht'
    split_ifs at ht' with htc
    exact absurd (honly t ht') htc
  have hburied : Buried s c (schedUnlockIrq s.irqsEnabled { s' with currentTask := none }) := by
    have hb := (bury_buried (by rw [hrun]; decide) h1).after (.lockIrq s)
    have hleft : SameTasks s' { s' with currentTask := none } := .of_eq rfl rfl rfl rfl
    exact hb.trans (hleft.trans (.unlockIrq _ _))
  refine ⟨schedUnlockIrq s.irqsEnabled { s' with currentTask := none }, ?_, hcore.unlockIrq _, ?_, ?_, ?_, hburied⟩
  · simp only [schedExit, hc, if_neg h0, h1, Option.bind_eq_bind, Option.bind_some]
  · rw [schedUnlockIrq_eq]
  · rw [schedUnlockIrq_eq]
    exact hl
  · rw [schedUnlockIrq_eq]
    exact hidle

theorem schedExit_inv {s : State} (h : Inv D s) (hlock : s.schedulerLocked = 0) :
    ∃ s', schedExit s = some s' ∧ Inv D s' := by
  obtain ⟨c, hc, -⟩ := h.current
  by_cases h0 : s.id c = 0
  · exact ⟨s, by simp only [schedExit, hc, if_pos h0], h⟩
  · obtain ⟨s₁, h1, hcore, hnone, hl, hidle, -⟩ := schedExit_enter h hc h0
    obtain ⟨L, hq⟩ := hcore.queues
    rw [h1]
    rcases schedYieldIn_cases [.exit] hq (by simp [hnone]) hcore.running with
      ⟨-, hl0 | hempty⟩ | ⟨-, nxt, s', -, hs', hsw⟩
    · exact absurd (hl.trans hlock) hl0
    · have := hq.ready (by simp) hidle
      simp [hempty] at this
    · exact ⟨s', hs', hcore.switched hsw⟩

theorem schedKill_outcome {id : ℕ} {s s' : State} (hrun : schedKill id s = some s') :
    s' = s ∨ schedExit s = some s' ∨ ∃ t s₁, s.state t ≠ .dead ∧ s.id t ≠ 0 ∧ bury t (schedLockIrq s) = some s₁ ∧
      s' = schedUnlockIrq s.irqsEnabled s₁ := by
  unfold schedKill at hrun
  split_ifs at hrun
  · cases hrun; exact Or.inl rfl
  · exact Or.inr (Or.inl hrun)
  · cases hfind : schedFind id (schedLockIrq s) with
    | none =>
      simp only [hfind, schedUnlockIrq_schedLockIrq] at hrun
      cases hrun
      exact Or.inl rfl
    | some t =>
      simp only [hfind, schedUnlockIrq_schedLockIrq] at hrun
      split_ifs at hrun with h0
      · cases hrun; exact Or.inl rfl
      · obtain ⟨s₁, hbury, hrun⟩ := Option.bind_eq_some_iff.mp hrun
        cases hrun
        exact Or.inr (Or.inr ⟨t, s₁, (schedFind_some hfind).1, h0, hbury, rfl⟩)

theorem schedKill_inv {s : State} (h : Inv D s) (id : ℕ)
    (hself : s.currentTask.any (fun c => s.id c = id) = true → s.schedulerLocked = 0) :
    ∃ s', schedKill id s = some s' ∧ Inv D s' := by
  have hi : Inv D (schedLockIrq s) := h.irqs false
  unfold schedKill
  split_ifs with h0 hcur
  · exact ⟨s, rfl, h⟩
  · exact schedExit_inv h (hself hcur)
  · cases hfind : schedFind id (schedLockIrq s) with
    | none => exact ⟨s, by simp only [hfind, schedUnlockIrq_schedLockIrq], h⟩
    | some t =>
      obtain ⟨hlive, hid⟩ := schedFind_some hfind
      simp only [hfind, schedUnlockIrq_schedLockIrq]
      rw [if_neg (by rw [hid]; exact h0)]
      obtain ⟨L, hq⟩ := hi.queues
      obtain ⟨s', L', h1, hq1, -, hst, hids, hc1, -⟩ := bury_spec hq hlive
      have hne : t ≠ 0 := by
        rintro rfl
        exact h0 (hid.symm.trans h.idleId)
      obtain ⟨c, hc, hrun⟩ := hi.current
      have hct : c ≠ t := by
        rintro rfl
        have hidc : s.id c = id := hid
        exact hcur (by rw [show s.currentTask = some c from hc]; simpa using hidc)
      have hinv : Inv D s' := by
        refine ⟨⟨⟨L', hq1⟩, fun u hu => ?_, ?_, ?_⟩, c, hc1.trans hc, ?_⟩
        · rw [hst] at hu
          split_ifs at hu with hut
          exact hc1.trans (hi.running u hu)
        · rw [hst, if_neg hne.symm]
          exact hi.idle
        · rw [hids 0 hne.symm]
          exact h.idleId
        · rw [hst, if_neg hct]
          exact hrun
      refine ⟨_, ?_, hinv.unlockIrq s.irqsEnabled⟩
      rw [h1]
      rfl

section Describe

variable (t : TaskRef) (name : ℕ → UInt8) (eip esp : ℕ) (s : State)

theorem describeTask_state (u : TaskRef) :
    (describeTask t name eip esp s).state u = if u = t then .ready else s.state u := by
  unfold describeTask schedInitStack
  simp only [State.state, State.modTask]
  by_cases hu : u = t
  · subst hu; simp [started]
  · simp [hu]

theorem describeTask_id {u : TaskRef} (hu : u ≠ t) : (describeTask t name eip esp s).id u = s.id u := by
  unfold describeTask schedInitStack
  simp [State.id, State.modTask, hu]

theorem describeTask_id_self : (describeTask t name eip esp s).id t = s.nextTaskId := by
  unfold describeTask schedInitStack
  simp [State.id, State.modTask, started, stacked, childOf, numbered]

theorem QueuesOff.describeTask {s : State} {X : Set TaskRef} {L : Queue → List TaskRef} {t : TaskRef}
    (h : QueuesOff D X s L) (ht : t ∈ X) : QueuesOff D X (Sched.describeTask t name eip esp s) L := by
  unfold Sched.describeTask
  apply QueuesOff.modTask _ ht
  have hnum : QueuesOff D X { s.modTask t (numbered s.nextTaskId) with
      nextTaskId := u32 (s.nextTaskId + 1) } L :=
    (h.modTask ht (numbered s.nextTaskId)).congr rfl rfl rfl
  exact ((hnum.modTask ht (childOf _)).modTask ht (stacked (sub32 esp 32))).congr rfl rfl rfl

end Describe

theorem Inv.created {s : State} {t : TaskRef} (h : Inv D s) (hdead : s.state t = .dead) (name : ℕ → UInt8)
    (eip esp : ℕ) : ∃ s₁ s₂, schedQueueRemove .dead t s = some s₁ ∧
      schedQueueAdd .ready t (describeTask t name eip esp s₁) = some s₂ ∧ Inv D s₂ := by
  have h0 : t ≠ 0 := h.ne_idle (Or.inr hdead)
  obtain ⟨L, hq⟩ := h.queues
  obtain ⟨nx, hd, h1, hq1⟩ := hq.detach (q := .dead) hdead
  have hq2 := hq1.describeTask name eip esp (Set.mem_insert t ∅)
  have hst := describeTask_state t name eip esp (s.setLinks nx hd)
  obtain ⟨nx', hd', h2, hq3⟩ := hq2.attach (q := .ready) (Set.mem_insert t ∅) ((hst t).trans (if_pos rfl))
  rw [show (insert t ∅ \ {t} : Set TaskRef) = ∅ by simp] at hq3
  obtain ⟨c, hc, hrun⟩ := h.current
  have hct : c ≠ t := fun e => by rw [e, hdead] at hrun; cases hrun
  refine ⟨_, _, h1, h2, ⟨⟨_, hq3⟩, fun u hu => ?_, ?_, ?_⟩, c, hc, ?_⟩
  · rw [State.setLinks_state, hst] at hu
    split_ifs at hu with hut
    exact h.running u hu
  · rw [State.setLinks_state, hst, if_neg h0.symm]
    exact h.idle
  · rw [State.setLinks_id, describeTask_id _ _ _ _ _ h0.symm]
    exact h.idleId
  · rw [State.setLinks_state, hst, if_neg hct]
    exact hrun

theorem schedCreate_outcome {name : Option (ℕ → UInt8)} {eip esp : ℕ} {s s' : State} {r : Option TaskRef}
    (hrun : schedCreate name eip esp s = some (s', r)) :
    s' = s ∧ r = none ∨ ∃ label t s₁ s₂, r = some t ∧ s.state t = .dead ∧
      schedQueueRemove .dead t (schedLockIrq s) = some s₁ ∧
      schedQueueAdd .ready t (describeTask t label eip esp s₁) = some s₂ ∧
      s' = schedUnlockIrq s.irqsEnabled { s₂ with taskCountValue := u32 (s₂.taskCountValue + 1) } := by
  unfold schedCreate at hrun
  cases name with
  | none => cases hrun; exact Or.inl ⟨rfl, rfl⟩
  | some name =>
    simp only at hrun
    split_ifs at hrun
    · cases hrun; exact Or.inl ⟨rfl, rfl⟩
    · cases hfind : (List.finRange 32).find? fun t => (schedLockIrq s).state t = .dead with
      | none =>
        rw [hfind] at hrun
        cases hrun
        exact Or.inl ⟨schedUnlockIrq_schedLockIrq s, rfl⟩
      | some t =>
        rw [hfind] at hrun
        have hdead : (schedLockIrq s).state t = .dead := by simpa using List.find?_some hfind
        obtain ⟨s₁, h1, hrun⟩ := Option.bind_eq_some_iff.mp hrun
        obtain ⟨s₂, h2, hrun⟩ := Option.bind_eq_some_iff.mp hrun
        cases hrun
        exact Or.inr ⟨name, t, s₁, s₂, rfl, hdead, h1, h2, rfl⟩

theorem schedCreate_inv {s : State} (h : Inv D s) (name : Option (ℕ → UInt8)) (eip esp : ℕ) :
    ∃ s' r, schedCreate name eip esp s = some (s', r) ∧ Inv D s' := by
  have hi : Inv D (schedLockIrq s) := h.irqs false
  unfold schedCreate
  cases name with
  | none => exact ⟨s, none, rfl, h⟩
  | some name =>
    simp only
    split_ifs with hfull
    · exact ⟨s, none, rfl, h⟩
    · cases hfind : (List.finRange 32).find? fun t => (schedLockIrq s).state t = .dead with
      | none => exact ⟨s, none, by simp only [schedUnlockIrq_schedLockIrq], h⟩
      | some t =>
        have hdead : (schedLockIrq s).state t = .dead := by simpa using List.find?_some hfind
        obtain ⟨s₁, s₂, h1, h2, hi2⟩ := hi.created hdead name eip esp
        have hi3 : Inv D { s₂ with taskCountValue := u32 (s₂.taskCountValue + 1) } :=
          hi2.congr rfl rfl rfl rfl rfl
        refine ⟨_, some t, ?_, hi3.unlockIrq s.irqsEnabled⟩
        simp only [h1, h2, Option.bind_eq_bind, Option.bind_some]

theorem schedSetPolicy_inv {s : State} (h : Inv D s) (policy : ℕ) : Inv D (schedSetPolicy policy s) := by
  unfold schedSetPolicy
  split
  · exact h.congr rfl rfl rfl rfl rfl
  · exact h.congr rfl rfl rfl rfl rfl
  · exact h

theorem schedSetPriority_inv {s : State} (h : Inv D s) (item : Option TaskRef) (priority : ℕ) :
    Inv D (schedSetPriority item priority s) := by
  unfold schedSetPriority
  split
  · exact h
  · split_ifs
    · exact h
    · exact h.keep _ (fun _ => rfl) (fun _ => rfl) (fun _ => rfl)
    · exact h.keep _ (fun _ => rfl) (fun _ => rfl) (fun _ => rfl)

theorem schedLock_inv {s : State} (h : Inv D s) : Inv D (schedLock s) := h.congr rfl rfl rfl rfl rfl

theorem schedUnlock_inv {s : State} (h : Inv D s) : Inv D (schedUnlock s) := by
  unfold schedUnlock
  split_ifs
  · exact h.congr rfl rfl rfl rfl rfl
  · exact h

end Novium.Sched
