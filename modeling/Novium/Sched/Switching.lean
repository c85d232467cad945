import Novium.Sched.Partition

/-! What a call of `SchedYield` does to the partition, and what is left to do when
it returns. `Core` is the part of the partition that also holds inside a call,
where the current task may be blocked already or gone. -/

namespace Novium.Sched

open Novium.Lib

namespace State

variable (s : State) (t : TaskRef) (f : Task → Task)

@[simp] theorem modTask_head : (s.modTask t f).head = s.head := by funext q; cases q <;> rfl
@[simp] theorem modTask_currentTask : (s.modTask t f).currentTask = s.currentTask := rfl
@[simp] theorem modTask_schedulerLocked : (s.modTask t f).schedulerLocked = s.schedulerLocked := rfl

theorem modTask_state (u : TaskRef) :
    (s.modTask t f).state u = if u = t then (f (s.tasks t)).state else s.state u := by
  unfold modTask state
  by_cases h : u = t
  · subst h; simp
  · simp [h]

theorem modTask_id (u : TaskRef) :
    (s.modTask t f).id u = if u = t then (f (s.tasks t)).id else s.id u := by
  unfold modTask id
  by_cases h : u = t
  · subst h; simp
  · simp [h]

theorem modTask_field {α : Type} (g : Task → α) (hf : ∀ item, g (f item) = g item) :
    (fun u => g ((s.modTask t f).tasks u)) = fun u => g (s.tasks u) := by
  funext u
  unfold modTask
  by_cases h : u = t
  · subst h; simp [hf]
  · simp [h]

end State

@[simp] theorem schedUnlockIrq_schedLockIrq (s : State) :
    schedUnlockIrq s.irqsEnabled (schedLockIrq s) = s := by
  unfold schedUnlockIrq schedLockIrq
  cases s with | mk _ _ _ _ _ _ _ _ _ _ _ _ irqs _ _ => cases irqs <;> rfl

theorem schedUnlockIrq_eq (was : Bool) (s : State) :
    schedUnlockIrq was s = { s with irqsEnabled := was || s.irqsEnabled } := by
  cases was <;> simp [schedUnlockIrq]

theorem QueuesOff.irqs {D X : Set TaskRef} {s : State} {L : Queue → List TaskRef} (h : QueuesOff D X s L)
    (b : Bool) : QueuesOff D X { s with irqsEnabled := b } L :=
  h.congr rfl rfl rfl

theorem QueuesOff.keep {D X : Set TaskRef} {s : State} {L : Queue → List TaskRef} (h : QueuesOff D X s L)
    (t : TaskRef) {f : Task → Task} (hn : ∀ item, (f item).next = item.next)
    (hs : ∀ item, (f item).state = item.state) : QueuesOff D X (s.modTask t f) L :=
  h.congr (s.modTask_field t f (·.next) hn) rfl (s.modTask_field t f (·.state) hs)

structure Core (D : Set TaskRef) (s : State) : Prop where
  queues : ∃ L, Queues D s L
  running : ∀ t, s.state t = .running → s.currentTask = some t
  idle : s.state 0 = .ready ∨ s.state 0 = .running
  idleId : s.id 0 = 0

/-- The invariant between calls: the partition, and which of the dead descriptors
are on the dead queue. -/
structure Inv (D : Set TaskRef) (s : State) : Prop extends Core D s where
  current : ∃ c, s.currentTask = some c ∧ s.state c = .running

section

variable {D : Set TaskRef} {s s' : State}

theorem Partition.inv (h : Partition s) (hD : ∀ t ∈ D, s.state t ≠ .dead) : Inv D s where
  queues := h.exists_queues hD
  running t ht := by
    obtain ⟨c, hc, hrun⟩ := h.current
    rw [hc, (hrun t).mp ht]
  idle := h.idle.1
  idleId := h.idle.2
  current := by
    obtain ⟨c, hc, hrun⟩ := h.current
    exact ⟨c, hc, (hrun c).mpr rfl⟩

theorem Inv.partition (h : Inv D s) : Partition s := by
  obtain ⟨L, hL⟩ := h.queues
  obtain ⟨c, hc, hst⟩ := h.current
  refine Partition.of hL hc (fun t => ⟨fun ht => ?_, fun e => e ▸ hst⟩) h.idle h.idleId
  exact Option.some.inj ((h.running t ht).symm.trans hc)

theorem Core.congr (h : Core D s) (hn : s'.next = s.next) (hh : s'.heads = s.heads)
    (hst : s'.state = s.state) (hid : s'.id = s.id) (hc : s'.currentTask = s.currentTask) : Core D s' where
  queues := by
    obtain ⟨L, hL⟩ := h.queues
    exact ⟨L, hL.congr hn hh hst⟩
  running := by rw [hst, hc]; exact h.running
  idle := by rw [hst]; exact h.idle
  idleId := by rw [hid]; exact h.idleId

theorem Core.irqs (h : Core D s) (b : Bool) : Core D { s with irqsEnabled := b } :=
  h.congr rfl rfl rfl rfl rfl

theorem Core.unlockIrq (h : Core D s) (was : Bool) : Core D (schedUnlockIrq was s) := by
  rw [schedUnlockIrq_eq]
  exact h.irqs _

theorem Inv.congr (h : Inv D s) (hn : s'.next = s.next) (hh : s'.heads = s.heads) (hst : s'.state = s.state)
    (hid : s'.id = s.id) (hc : s'.currentTask = s.currentTask) : Inv D s' where
  toCore := h.toCore.congr hn hh hst hid hc
  current := by rw [hst, hc]; exact h.current

theorem Inv.irqs (h : Inv D s) (b : Bool) : Inv D { s with irqsEnabled := b } :=
  h.congr rfl rfl rfl rfl rfl

theorem Inv.unlockIrq (h : Inv D s) (was : Bool) : Inv D (schedUnlockIrq was s) := by
  rw [schedUnlockIrq_eq]
  exact h.irqs _

theorem Inv.keep (h : Inv D s) (t : TaskRef) {f : Task → Task} (hn : ∀ item, (f item).next = item.next)
    (hs : ∀ item, (f item).state = item.state) (hi : ∀ item, (f item).id = item.id) : Inv D (s.modTask t f) :=
  h.congr (s.modTask_field t f (·.next) hn) rfl (s.modTask_field t f (·.state) hs)
    (s.modTask_field t f (·.id) hi) rfl

theorem Inv.running_current (h : Inv D s) {c : TaskRef} (hc : s.currentTask = some c) :
    s.state c = .running := by
  obtain ⟨c', hc', hrun⟩ := h.current
  rwa [← Option.some.inj (hc.symm.trans hc')] at hrun

end

theorem findAfter_spec {s : State} (id : ℕ) {l : List TaskRef} {cur : Option TaskRef} {n : ℕ}
    (hl : Linked s.next cur l) (hn : l.length < n) :
    ∃ r, findAfter s id n cur = some r ∧ (r = s.readyQueue ∨ ∃ t ∈ l, r = some t) := by
  induction l generalizing cur n with
  | nil =>
    obtain ⟨m, rfl⟩ : ∃ m, n = m + 1 := ⟨n - 1, by simp at hn; omega⟩
    rw [linked_nil.mp hl]
    exact ⟨_, rfl, Or.inl rfl⟩
  | cons a l ih =>
    obtain ⟨rfl, hr⟩ := hl
    obtain ⟨m, rfl⟩ : ∃ m, n = m + 1 := ⟨n - 1, by omega⟩
    rw [findAfter]
    split_ifs with hid
    · exact ⟨_, rfl, Or.inr ⟨a, by simp, rfl⟩⟩
    · obtain ⟨r, hr1, hr2⟩ := ih hr (by simpa using hn)
      refine ⟨r, hr1, hr2.imp_right ?_⟩
      rintro ⟨t, ht, rfl⟩
      exact ⟨t, by simp [ht], rfl⟩

theorem findBest_spec {s : State} {l : List TaskRef} {cur : Option TaskRef} (best : Option TaskRef) {n : ℕ}
    (hl : Linked s.next cur l) (hn : l.length < n) :
    ∃ r, findBest s n cur best = some r ∧
      ((r = none ∧ best = none ∧ l = []) ∨ ∃ t, r = some t ∧ (best = some t ∨ t ∈ l)) := by
  induction l generalizing cur best n with
  | nil =>
    obtain ⟨m, rfl⟩ : ∃ m, n = m + 1 := ⟨n - 1, by simp at hn; omega⟩
    rw [linked_nil.mp hl]
    cases best with
    | none => exact ⟨none, rfl, Or.inl ⟨rfl, rfl, rfl⟩⟩
    | some b => exact ⟨some b, rfl, Or.inr ⟨b, rfl, Or.inl rfl⟩⟩
  | cons a l ih =>
    obtain ⟨rfl, hr⟩ := hl
    obtain ⟨m, rfl⟩ : ∃ m, n = m + 1 := ⟨n - 1, by omega⟩
    have hm : l.length < m := by simpa using hn
    obtain ⟨r, hr1, ⟨-, h, -⟩ | ⟨t, rfl, ht⟩⟩ := ih (some a) hr hm
    · cases h
    have hta : t ∈ a :: l := by
      rcases ht with ht | ht
      · cases ht; simp
      · simp [ht]
    cases best with
    | none => exact ⟨_, hr1, Or.inr ⟨t, rfl, Or.inr hta⟩⟩
    | some b =>
      rw [findBest]
      split_ifs with hp
      · exact ⟨_, hr1, Or.inr ⟨t, rfl, Or.inr hta⟩⟩
      · obtain ⟨r, hr1, ⟨-, h, -⟩ | ⟨t, rfl, ht⟩⟩ := ih (some b) hr hm
        · cases h
        · exact ⟨_, hr1, Or.inr ⟨t, rfl, ht.imp_right fun h => by simp [h]⟩⟩

/-- Either policy ends, finds a task exactly when one is ready, and takes it from
the ready queue. -/
theorem schedFindNext_spec {s : State} {L : Queue → List TaskRef} (hc : Chains s L) :
    ∃ r, schedFindNext s = some r ∧ ((r = none ∧ L .ready = []) ∨ ∃ t ∈ L .ready, r = some t) := by
  have hl : Linked s.next s.readyQueue (L .ready) := hc .ready
  have hn := Nat.lt_succ_of_le (linked_length_le hl)
  have hhead : (s.readyQueue = none ∧ L .ready = []) ∨ ∃ t ∈ L .ready, s.readyQueue = some t := by
    cases h : L .ready with
    | nil => rw [h] at hl; exact Or.inl ⟨hl, rfl⟩
    | cons a l => rw [h] at hl; exact Or.inr ⟨a, by simp, hl.1⟩
  unfold schedFindNext
  cases s.currentPolicy with
  | priority =>
    obtain ⟨r, hr, ⟨rfl, -, he⟩ | ⟨t, rfl, h | ht⟩⟩ := findBest_spec none hl hn
    · exact ⟨none, hr, Or.inl ⟨rfl, he⟩⟩
    · cases h
    · exact ⟨_, hr, Or.inr ⟨t, ht, rfl⟩⟩
  | roundRobin =>
    simp only [schedFindRoundRobin]
    cases s.currentTask with
    | none => exact ⟨_, rfl, hhead⟩
    | some c =>
      obtain ⟨r, hr, rfl | ⟨t, ht, rfl⟩⟩ := findAfter_spec (s.id c) hl hn
      · exact ⟨_, hr, hhead⟩
      · exact ⟨_, hr, Or.inr ⟨t, ht, rfl⟩⟩

/-- What a switch from the current task of `s` to `nxt` leaves behind. -/
structure Switched (D : Set TaskRef) (s : State) (nxt : TaskRef) (s' : State) : Prop where
  queues : ∃ L, Queues D s' L
  state : ∀ t, s'.state t =
    if t = nxt then .running else if s.state t = .running then .ready else s.state t
  currentTask : s'.currentTask = some nxt
  id : s'.id = s.id
  schedulerLocked : s'.schedulerLocked = s.schedulerLocked

theorem Core.switched {D : Set TaskRef} {s s' : State} {nxt : TaskRef} (h : Core D s) (hsw : Switched D s nxt s') :
    Inv D s' where
  queues := hsw.queues
  running t ht := by
    rw [hsw.state] at ht
    split_ifs at ht with h1 h2
    · rw [hsw.currentTask, h1]
    · exact absurd ht h2
  idle := by
    rw [hsw.state]
    split_ifs with h0 h1
    · exact Or.inr rfl
    · exact Or.inl rfl
    · exact h.idle.imp_right fun hr => absurd hr h1
  idleId := by rw [hsw.id]; exact h.idleId
  current := ⟨nxt, hsw.currentTask, by rw [hsw.state, if_pos rfl]⟩

theorem schedSwitch_keeps (prev : Option TaskRef) (frames : List Frame) (nxt : TaskRef) (s : State) :
    (schedSwitch prev frames nxt s).next = s.next ∧ (schedSwitch prev frames nxt s).heads = s.heads ∧
      (schedSwitch prev frames nxt s).state = s.state ∧ (schedSwitch prev frames nxt s).id = s.id ∧
      (schedSwitch prev frames nxt s).currentTask = s.currentTask ∧
      (schedSwitch prev frames nxt s).schedulerLocked = s.schedulerLocked := by
  cases prev with
  | none => exact ⟨rfl, rfl, rfl, rfl, rfl, rfl⟩
  | some p =>
    have hf := fun {α : Type} => s.modTask_field (α := α) p fun item => { item with esp := s.cpuEsp }
    exact ⟨hf (·.next) fun _ => rfl, rfl, hf (·.state) fun _ => rfl,
      hf (·.id) fun _ => rfl, rfl, rfl⟩

/-- The middle of `switchTo`: the old task goes to the end of the ready queue if it
is still running, with the chosen task held off the queues meanwhile. -/
theorem requeue_spec {D X : Set TaskRef} {s : State} {L : Queue → List TaskRef} {nxt : TaskRef}
    (hq : QueuesOff D X s L) (hX : X = {nxt}) (hn : s.state nxt = .ready) (prev : Option TaskRef)
    (hrun : ∀ t, s.state t = .running → prev = some t) :
    ∃ s' L', requeue prev s = some s' ∧ QueuesOff D X s' L' ∧
      (∀ t, s'.state t = if s.state t = .running then .ready else s.state t) ∧ s'.id = s.id ∧
      s'.schedulerLocked = s.schedulerLocked := by
  have hnone : (∀ p, prev = some p → s.state p ≠ .running) →
      ∀ t, s.state t = if s.state t = .running then .ready else s.state t := by
    intro h t
    rw [if_neg fun ht => h t (hrun t ht) ht]
  cases prev with
  | none => exact ⟨s, L, rfl, hq, hnone (by simp), rfl, rfl⟩
  | some p =>
    by_cases hp : s.state p = .running
    · have hpn : p ≠ nxt := fun e => by rw [e, hn] at hp; cases hp
      have h1 := ((hq.lift hp).modTask (Set.mem_insert p X) fun item => { item with state := .ready })
      have hst : (s.setState p .ready).state p = .ready := by
        simp [State.setState, State.modTask_state]
      obtain ⟨nx, hd, hrun', h2⟩ := h1.attach (q := .ready) (Set.mem_insert p X) hst
      have hXp : insert p X \ {p} = X := by
        rw [Set.insert_sdiff_self_of_notMem]
        rw [hX]
        simpa using hpn
      rw [hXp] at h2
      refine ⟨_, _, by rw [requeue, if_pos hp]; exact hrun', h2, fun t => ?_, ?_, rfl⟩
      · simp only [State.setLinks_state, State.modTask_state]
        by_cases htp : t = p
        · subst htp; simp [hp]
        · rw [if_neg htp, if_neg]
          exact fun ht => htp (Option.some.inj (hrun t ht)).symm
      · exact s.modTask_field p (fun item => { item with state := .ready }) (·.id) fun _ => rfl
    · refine ⟨s, L, by rw [requeue, if_neg hp], hq, hnone ?_, rfl, rfl⟩
      rintro p' ⟨⟩
      exact hp

theorem makeCurrent_state (nxt : TaskRef) (s : State) (t : TaskRef) :
    (makeCurrent nxt s).state t = if t = nxt then .running else s.state t :=
  State.modTask_state s nxt elected t

theorem makeCurrent_id (nxt : TaskRef) (s : State) : (makeCurrent nxt s).id = s.id :=
  s.modTask_field nxt elected (·.id) fun _ => rfl

theorem QueuesOff.makeCurrent {D : Set TaskRef} {s : State} {L : Queue → List TaskRef} {nxt : TaskRef}
    (h : QueuesOff D {nxt} s L) : Queues D (makeCurrent nxt s) L := by
  have h1 : QueuesOff D {nxt} (Sched.makeCurrent nxt s) L :=
    (h.modTask (Set.mem_singleton nxt) elected).congr rfl rfl rfl
  have h2 := h1.settle (t := nxt) (by rw [makeCurrent_state, if_pos rfl])
  rwa [Set.sdiff_self] at h2

theorem switchTo_spec {D : Set TaskRef} {s : State} {L : Queue → List TaskRef} (frames : List Frame) {nxt : TaskRef}
    (hq : Queues D s L) (hn : s.state nxt = .ready) (hrun : ∀ t, s.state t = .running → s.currentTask = some t) :
    ∃ s', switchTo frames nxt s = some s' ∧ Switched D s nxt s' := by
  obtain ⟨nx, hd, h1, hq1⟩ := hq.detach (q := .ready) hn
  rw [show (insert nxt ∅ : Set TaskRef) = {nxt} by simp] at hq1
  obtain ⟨s2, L2, h2, hq2, hst2, hid2, hl2⟩ := requeue_spec hq1 rfl hn s.currentTask hrun
  refine ⟨schedSwitch s.currentTask frames nxt (makeCurrent nxt s2), ?_, ?_⟩
  · unfold switchTo
    simp only [h1, h2, Option.bind_eq_bind, Option.bind_some]
  · obtain ⟨k1, k2, k3, k4, k5, k6⟩ := schedSwitch_keeps s.currentTask frames nxt (makeCurrent nxt s2)
    refine ⟨⟨L2, hq2.makeCurrent.congr k1 k2 k3⟩, fun t => ?_, k5, ?_, k6.trans hl2⟩
    · rw [k3, makeCurrent_state, hst2]
      rfl
    · rw [k4, makeCurrent_id, hid2]
      rfl

/-- `SchedYield` either returns to its callers with nothing changed, because
scheduling is locked or nothing is ready, or it switches to a ready task. -/
theorem schedYieldIn_cases {D : Set TaskRef} {s : State} {L : Queue → List TaskRef} (callers : List Frame)
    (hq : Queues D s L) (hcur : ∀ c, s.currentTask = some c → s.state c ≠ .ready)
    (hrun : ∀ t, s.state t = .running → s.currentTask = some t) :
    (schedYieldIn callers s = resume callers s ∧ (s.schedulerLocked ≠ 0 ∨ L .ready = [])) ∨
      (s.schedulerLocked = 0 ∧ ∃ nxt s', s.state nxt = .ready ∧ schedYieldIn callers s = some s' ∧
        Switched D s nxt s') := by
  have hirq := hq.irqs false
  unfold schedYieldIn
  by_cases hlock : s.schedulerLocked ≠ 0
  · left
    refine ⟨?_, Or.inl hlock⟩
    rw [if_pos (show (schedLockIrq s).schedulerLocked ≠ 0 from hlock), schedUnlockIrq_schedLockIrq]
  · rw [if_neg (show ¬ (schedLockIrq s).schedulerLocked ≠ 0 from hlock)]
    obtain ⟨r, hr, ⟨rfl, hempty⟩ | ⟨nxt, hmem, rfl⟩⟩ := schedFindNext_spec hirq.chains
    · left
      refine ⟨?_, Or.inr hempty⟩
      rw [show schedFindNext (schedLockIrq s) = some none from hr]
      simp
    · right
      have hnr : s.state nxt = .ready := hq.mem nxt (by simp) .ready hmem
      obtain ⟨s', hs', hsw⟩ := switchTo_spec (s := schedLockIrq s)
        (.yield s.irqsEnabled :: callers) hirq hnr hrun
      refine ⟨not_not.mp hlock, nxt, s', hnr, ?_, ?_⟩
      · have hne : ¬ (schedLockIrq s).currentTask = some nxt := fun e => hcur nxt e hnr
        rw [show schedFindNext (schedLockIrq s) = some (some nxt) from hr]
        simp only [Option.bind_eq_bind, Option.bind_some]
        rw [if_neg hne]
        exact hs'
      · exact ⟨hsw.queues, hsw.state, hsw.currentTask, hsw.id, hsw.schedulerLocked⟩

end Novium.Sched
