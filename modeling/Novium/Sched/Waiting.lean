import Novium.Lib.Lineup
import Novium.Sched.Accounts
import Novium.Sched.RoundRobin
import Novium.Sched.Wake

/-! Every event of the scheduler, seen from a task that stays on the ready queue: the moves of
a lineup of the tasks, with the current one as the holder and the ids as the keys. -/

namespace Novium.Sched

open Novium.Lib Novium.Lib.Lineup

variable {D : Set TaskRef} {s s' s₁ : State} {L : Queue → List TaskRef} {t : TaskRef} {b : ℕ}

def State.lineup (s : State) (R : List TaskRef) : Lineup TaskRef := ⟨s.currentTask, R, s.id⟩

/-- The lineup behind the ready queue moves, and `t` stays in it. -/
def Shift (t : TaskRef) (p b : ℕ) (s s' : State) : Prop :=
  ∀ R, Linked s.next s.readyQueue R → t ∈ R →
    ∃ R', Linked s'.next s'.readyQueue R' ∧ Moves t p b (s.lineup R) (s'.lineup R')

theorem Shift.trans {p q b' : ℕ} (h : Shift t p b s s₁) (h' : Shift t q b' s₁ s') : Shift t (p + q) (b + b') s s' := by
  intro R hR ht
  obtain ⟨R₁, hR₁, hm₁⟩ := h R hR ht
  obtain ⟨R', hR', hm⟩ := h' R₁ hR₁ (hm₁.wait ht).1
  exact ⟨R', hR', hm₁.trans hm⟩

theorem Shift.of_chains {p : ℕ} {L L' : Queue → List TaskRef} (hc : Chains s L) (hc' : Chains s' L')
    (h : Moves t p b (s.lineup (L .ready)) (s'.lineup (L' .ready))) : Shift t p b s s' := by
  intro R hR _
  obtain rfl := hR.unique (hc .ready)
  exact ⟨L' .ready, hc' .ready, h⟩

/-- No switch: the ready queue changes around `t`, and the current task goes on in its slice. -/
structure Drift (t : TaskRef) (b : ℕ) (s s' : State) : Prop where
  current : s'.currentTask = s.currentTask
  timeUsed : ∀ c, s.currentTask = some c → (s'.tasks c).timeUsed = (s.tasks c).timeUsed
  moves : Shift t 0 b s s'

theorem Drift.trans {b' : ℕ} (h : Drift t b s s₁) (h' : Drift t b' s₁ s') : Drift t (b + b') s s' where
  current := h'.current.trans h.current
  timeUsed c hc := (h'.timeUsed c (h.current.trans hc)).trans (h.timeUsed c hc)
  moves := h.moves.trans h'.moves

/-- Nothing that the queues, the ids and the slices depend on is written. -/
structure Still (s s' : State) : Prop where
  next : s'.next = s.next
  heads : s'.heads = s.heads
  state : s'.state = s.state
  id : s'.id = s.id
  currentTask : s'.currentTask = s.currentTask
  timeUsed : ∀ u, (s'.tasks u).timeUsed = (s.tasks u).timeUsed

theorem Still.refl (s : State) : Still s s := ⟨rfl, rfl, rfl, rfl, rfl, fun _ => rfl⟩

theorem Still.trans (h : Still s s₁) (h' : Still s₁ s') : Still s s' :=
  ⟨h'.next.trans h.next, h'.heads.trans h.heads, h'.state.trans h.state, h'.id.trans h.id,
    h'.currentTask.trans h.currentTask, fun u => (h'.timeUsed u).trans (h.timeUsed u)⟩

theorem Still.of_tasks (ht : s'.tasks = s.tasks) (hh : s'.heads = s.heads) (hc : s'.currentTask = s.currentTask) :
    Still s s' := by
  refine ⟨?_, hh, ?_, ?_, hc, fun u => by rw [ht]⟩
  · unfold State.next
    rw [ht]
  · unfold State.state
    rw [ht]
  · unfold State.id
    rw [ht]

theorem Still.modTask (s : State) (u : TaskRef) {f : Task → Task} (hn : ∀ item, (f item).next = item.next)
    (hst : ∀ item, (f item).state = item.state) (hid : ∀ item, (f item).id = item.id)
    (hu : ∀ item, (f item).timeUsed = item.timeUsed) : Still s (s.modTask u f) :=
  ⟨s.modTask_field u f (·.next) hn, rfl, s.modTask_field u f (·.state) hst, s.modTask_field u f (·.id) hid, rfl,
    fun v => congrFun (s.modTask_field u f (·.timeUsed) hu) v⟩

theorem still_unlockIrq (was : Bool) (s : State) : Still s (schedUnlockIrq was s) := by
  rw [schedUnlockIrq_eq]
  exact .of_tasks rfl rfl rfl

theorem Still.drift (h : Still s s') : Drift t 0 s s' where
  current := h.currentTask
  timeUsed c _ := h.timeUsed c
  moves R hR _ := by
    refine ⟨R, ?_, ?_⟩
    · rw [h.next, show s'.readyQueue = s.readyQueue from congrArg Prod.fst h.heads]
      exact hR
    · unfold State.lineup
      rw [h.currentTask, h.id]
      exact .nil _

theorem resume_still {callers : List Frame} {c : TaskRef} (hc : s.currentTask = some c) (hrun : s.state c = .running)
    (h : resume callers s = some s') : Still s s' := by
  have hframe : ∀ {a b : State} {f : Frame}, a.currentTask = some c → a.state c = .running →
      finishFrame a f = some b → Still a b := by
    intro a b f hc hrun h
    cases f with
    | yield was =>
      cases h
      exact still_unlockIrq was a
    | blockTask =>
      simp only [finishFrame, hc] at h
      rw [unblockSelf_of_ne (by rw [hrun]; decide)] at h
      cases h
      exact .refl _
    | sleepUntil =>
      simp only [finishFrame, hc] at h
      cases h
      exact .modTask _ _ (fun _ => rfl) (fun _ => rfl) (fun _ => rfl) fun _ => rfl
    | exit =>
      simp only [finishFrame, hc] at h
      cases h
      exact .refl _
  induction callers generalizing s with
  | nil =>
    cases h
    exact .refl _
  | cons f fs ih =>
    rw [resume, List.foldlM_cons] at h
    obtain ⟨s₁, h1, h2⟩ := Option.bind_eq_some_iff.mp h
    have hs := hframe hc hrun h1
    exact hs.trans (ih (hs.currentTask.trans hc) (by rw [hs.state]; exact hrun) h2)

theorem moves_requeue {u : TaskRef} (hut : u ≠ t) (r : Lineup TaskRef) (L : Queue → List TaskRef) (q q' : Queue) :
    Moves t 0 0 { r with queue := L .ready }
      { r with queue := (let L₁ := Function.update L q ((L q).erase u)
                         Function.update L₁ q' (L₁ q' ++ [u])) .ready } := by
  have hoff : Moves t 0 0 { r with queue := L .ready }
      { r with queue := Function.update L q ((L q).erase u) .ready } := by
    by_cases hq : q = .ready
    · rw [hq, Function.update_self]
      exact (Move.leave hut).moves
    · rw [Function.update_of_ne (Ne.symm hq)]
      exact .nil _
  have hon (l : List TaskRef) (hl : Function.update L q ((L q).erase u) .ready = l) :
      Moves t 0 0 { r with queue := l } { r with queue := (let L₁ := Function.update L q ((L q).erase u)
                                                           Function.update L₁ q' (L₁ q' ++ [u])) .ready } := by
    by_cases hq' : q' = .ready
    · simp only [hq', Function.update_self, hl]
      exact (Move.arrive (r := { r with queue := l }) u).moves
    · simp only [Function.update_of_ne (Ne.symm hq'), hl]
      exact .nil _
  exact hoff.trans (hon _ rfl)

theorem Queues.drift_move {q q' : Queue} {u : TaskRef} (hq : Queues D s L) (hu : s.state u = queueState q)
    (hut : u ≠ t) (h1 : schedQueueRemove q u s = some s₁)
    (h2 : schedQueueAdd q' u (s₁.setState u (queueState q')) = some s') : Drift t 0 s s' := by
  obtain ⟨nx, hd, h1', hq1⟩ := hq.detach hu
  obtain rfl := Option.some.inj (h1.symm.trans h1')
  have hq2 := hq1.setState (Set.mem_insert u ∅) (queueState q')
  have hst := setState_state (s.setLinks nx hd) u (queueState q')
  obtain ⟨nx', hd', h2', hq3⟩ := hq2.attach (q := q') (Set.mem_insert u ∅) ((hst u).trans (if_pos rfl))
  obtain rfl := Option.some.inj (h2.symm.trans h2')
  have hfield := fun {α : Type} => (s.setLinks nx hd).modTask_field (α := α) u fun item => { item with state := queueState q' }
  refine ⟨rfl, fun c _ => congrFun (hfield (·.timeUsed) fun _ => rfl) c, Shift.of_chains hq.chains hq3.chains ?_⟩
  unfold State.lineup
  rw [State.setLinks_id, show ((s.setLinks nx hd).setState u (queueState q')).id = s.id from hfield (·.id) fun _ => rfl]
  exact moves_requeue hut ⟨s.currentTask, [], s.id⟩ L q q'

theorem Woken.drift {kept ts : List TaskRef} (hw : Woken s L kept ts s') (hc : Linked s.next s.readyQueue (L .ready)) :
    Drift t 0 s s' where
  current := by rw [hw.rest]
  timeUsed c _ := by
    rw [hw.tasks c]
    split_ifs <;> rfl
  moves R hR _ := by
    obtain rfl := hR.unique hc
    have hid : s'.id = s.id := by
      funext u
      unfold State.id
      rw [hw.tasks u]
      split_ifs <;> rfl
    refine ⟨_, hw.ready, ?_⟩
    unfold State.lineup
    rw [hid, show s'.currentTask = s.currentTask by rw [hw.rest]]
    exact moves_arrive t _ ts

/-- A switch to `x`, with a slice of its own. -/
structure Served (t x : TaskRef) (s s' : State) : Prop where
  current : s'.currentTask = some x
  timeUsed : (s'.tasks x).timeUsed = 0
  moves : Shift t 1 0 s s'

/-- Another task than `t` gets the processor. -/
def PassedOver (t : TaskRef) (s s' : State) : Prop := ∃ x, s.currentTask ≠ some x ∧ Served t x s s'

theorem Drift.passedOver (h : Drift t 0 s s₁) (h' : PassedOver t s₁ s') : PassedOver t s s' := by
  obtain ⟨x, hx, hs⟩ := h'
  exact ⟨x, by rwa [← h.current], hs.current, hs.timeUsed, h.moves.trans hs.moves⟩

theorem schedFindRoundRobin_next {R : List TaskRef} (hl : Linked s.next s.readyQueue R) :
    schedFindRoundRobin s = some (s.lineup R).next := by
  unfold State.lineup Lineup.next
  cases hc : s.currentTask with
  | none =>
    unfold schedFindRoundRobin
    rw [hc]
    exact congrArg some hl.head_eq
  | some c => exact schedFindRoundRobin_pick (r := ⟨c, R⟩) hl hc

theorem requeue_line {prev : Option TaskRef} {l : List TaskRef} (hl : Linked s.next s.readyQueue l)
    (hp : ∀ c, prev = some c → c ∉ l) (h : requeue prev s = some s') :
    s'.id = s.id ∧ (Linked s'.next s'.readyQueue l ∨ ∃ c, Linked s'.next s'.readyQueue (l ++ [c])) := by
  cases prev with
  | none =>
    cases h
    exact ⟨rfl, .inl hl⟩
  | some p =>
    rw [requeue] at h
    split_ifs at h
    · have hfield := fun {α : Type} => s.modTask_field (α := α) p fun item => { item with state := .ready }
      have hl' : Linked (s.setState p .ready).next ((s.setState p .ready).head .ready) l := by
        rw [show (s.setState p .ready).next = s.next from hfield (·.next) fun _ => rfl]
        exact hl
      obtain ⟨nx, hd, hadd, hend, -, -⟩ := schedQueueAdd_append hl' (hp p rfl)
      obtain rfl := Option.some.inj (h.symm.trans hadd)
      exact ⟨hfield (·.id) fun _ => rfl, .inr ⟨p, hend⟩⟩
    · cases h
      exact ⟨rfl, .inl hl⟩

theorem schedSwitch_timeUsed (prev : Option TaskRef) (frames : List Frame) (nxt : TaskRef) (s : State) (u : TaskRef) :
    ((schedSwitch prev frames nxt s).tasks u).timeUsed = (s.tasks u).timeUsed := by
  cases prev with
  | none => rfl
  | some p => exact congrFun (s.modTask_field p (fun item => { item with esp := s.cpuEsp }) (·.timeUsed) fun _ => rfl) u

/-- What the switch to a task of the ready queue leaves of the queue, whether or not the old task is still running. -/
theorem switchTo_line {frames : List Frame} {x : TaskRef} {R : List TaskRef} (hl : Linked s.next s.readyQueue R)
    (hx : x ∈ R) (hcur : ∀ c, s.currentTask = some c → c ∉ R) (h : switchTo frames x s = some s') :
    s'.currentTask = some x ∧ s'.state x = .running ∧ (s'.tasks x).timeUsed = 0 ∧ s'.id = s.id ∧
      (Linked s'.next s'.readyQueue (R.erase x) ∨ ∃ c, Linked s'.next s'.readyQueue (R.erase x ++ [c])) := by
  obtain ⟨nx, hd, h1, hl1, -, -⟩ := schedQueueRemove_erase (q := .ready) hl hx
  unfold switchTo at h
  simp only [h1, Option.bind_eq_bind, Option.bind_some] at h
  obtain ⟨s₂, h2, h3⟩ := Option.bind_eq_some_iff.mp h
  obtain rfl := Option.some.inj h3
  obtain ⟨hid, hline⟩ := requeue_line (s := s.setLinks nx hd) hl1
    (fun c hc hin => hcur c hc (List.mem_of_mem_erase hin)) h2
  obtain ⟨k1, k2, k3, k4, k5, -⟩ := schedSwitch_keeps s.currentTask frames x (makeCurrent x s₂)
  have hnext : (makeCurrent x s₂).next = s₂.next := s₂.modTask_field x elected (·.next) fun _ => rfl
  refine ⟨k5, ?_, ?_, ?_, ?_⟩
  · rw [k3, makeCurrent_state, if_pos rfl]
  · rw [schedSwitch_timeUsed]
    exact congrArg Task.timeUsed (s₂.modTask_self x elected)
  · rw [k4, makeCurrent_id, hid]
    rfl
  · rw [k1, hnext, show State.readyQueue _ = s₂.readyQueue from congrArg Prod.fst k2]
    exact hline

theorem switchTo_served {frames : List Frame} {x : TaskRef} {R : List TaskRef} (hl : Linked s.next s.readyQueue R)
    (hcur : ∀ c, s.currentTask = some c → c ∉ R) (hx : x ∈ R) (hnext : (s.lineup R).next = some x)
    (ht : s'.state t = .ready) (h : switchTo frames x s = some s') : Served t x s s' := by
  obtain ⟨hc', hrun, hused, hid, hline⟩ := switchTo_line hl hx hcur h
  have hxt : x ≠ t := fun e => by
    rw [← e, hrun] at ht
    cases ht
  have hserve := (Move.serve hnext hxt).moves
  refine ⟨hc', hused, fun R' hR' _ => ?_⟩
  obtain rfl := hR'.unique hl
  unfold State.lineup at hserve ⊢
  rw [hc', hid]
  obtain hline | ⟨c, hline⟩ := hline
  · exact ⟨_, hline, hserve⟩
  · exact ⟨_, hline, hserve.trans (Move.arrive c).moves⟩

/-- Under round robin a `SchedYield` that is not locked serves the next of the lineup: `t` is there to be served. -/
theorem schedYieldIn_serves {callers : List Frame} (hq : Queues D s L) (hp : s.currentPolicy = .roundRobin)
    (hcur : ∀ c, s.currentTask = some c → s.state c ≠ .ready) (ht : s.state t = .ready) (ht' : s'.state t = .ready)
    (h : schedYieldIn callers s = some s') :
    s.schedulerLocked ≠ 0 ∧ resume callers s = some s' ∨
      s.schedulerLocked = 0 ∧ ∃ x, s.state x = .ready ∧ Served t x s s' := by
  have hfind : schedFindNext (schedLockIrq s) = some (s.lineup (L .ready)).next := by
    rw [schedFindNext, show (schedLockIrq s).currentPolicy = .roundRobin from hp]
    exact schedFindRoundRobin_next (s := schedLockIrq s) (hq.chains .ready)
  have htR : t ∈ (s.lineup (L .ready)).queue := hq.ready (by simp) ht
  obtain ⟨x, hx, hnext⟩ := exists_next htR
  have hready : s.state x = .ready := hq.mem x (by simp) .ready hx
  unfold schedYieldIn at h
  simp only [schedUnlockIrq_schedLockIrq] at h
  split_ifs at h with hlock
  · exact .inl ⟨hlock, h⟩
  · rw [hfind, hnext, Option.bind_eq_bind, Option.bind_some] at h
    simp only at h
    split_ifs at h with hcx
    · exact absurd hready (hcur x hcx)
    · have hserved : Served t x (schedLockIrq s) s' :=
        switchTo_served (hq.chains .ready) (fun c hc hin => hcur c hc (hq.mem c (by simp) .ready hin)) hx hnext ht' h
      exact .inr ⟨not_not.mp hlock, x, hready, hserved.current, hserved.timeUsed, hserved.moves⟩

theorem Inv.yield_passes {callers : List Frame} (hi : Inv D s) (hp : s.currentPolicy = .roundRobin)
    (ht : s.state t = .ready) (ht' : s'.state t = .ready) (h : schedYieldIn callers s = some s') :
    s.schedulerLocked ≠ 0 ∧ Drift t 0 s s' ∨ s.schedulerLocked = 0 ∧ PassedOver t s s' := by
  obtain ⟨L, hq⟩ := hi.queues
  obtain ⟨c, hc, hrun⟩ := hi.current
  have hcur : ∀ c, s.currentTask = some c → s.state c ≠ .ready := by
    intro c hc hst
    have hrun := hi.running_current hc
    rw [hst] at hrun
    cases hrun
  obtain ⟨hlock, hback⟩ | ⟨hlock, x, hx, hserved⟩ := schedYieldIn_serves hq hp hcur ht ht' h
  · exact .inl ⟨hlock, (resume_still hc hrun hback).drift⟩
  · exact .inr ⟨hlock, x, fun hcx => hcur x hcx hx, hserved⟩

theorem Inv.preempt_passes (hi : Inv D s) (hp : s.currentPolicy = .roundRobin) (ht : s.state t = .ready)
    (ht' : s'.state t = .ready) (h : schedPreempt s = some s') :
    (s.preemptPending = false ∨ s.schedulerLocked ≠ 0) ∧ Drift t 0 s s' ∨
      s.preemptPending = true ∧ s.schedulerLocked = 0 ∧ PassedOver t s s' := by
  unfold schedPreempt at h
  split_ifs at h with hpend hlock
  · cases h
    exact .inl ⟨.inl (by simpa using hpend), (Still.refl s).drift⟩
  · cases h
    exact .inl ⟨.inr hlock, (Still.refl s).drift⟩
  · have hstill : Still s { s with preemptPending := false } := .of_tasks rfl rfl rfl
    have hi' : Inv D { s with preemptPending := false } := hi.congr rfl rfl rfl rfl rfl
    obtain ⟨hlock', -⟩ | ⟨-, hpassed⟩ := hi'.yield_passes hp ht ht' h
    · exact absurd hlock' hlock
    · exact .inr ⟨by simpa using hpend, not_not.mp hlock, hstill.drift.passedOver hpassed⟩

theorem Inv.mark_drift {c : TaskRef} (hi : Inv D s) (hc : s.currentTask = some c)
    (h : schedQueueAdd .blocked c (s.setState c .blocked) = some s') :
    Drift t 0 s s' ∧ s'.currentPolicy = s.currentPolicy ∧ s'.schedulerLocked = s.schedulerLocked ∧
      ∀ u, s'.state u = if u = c then .blocked else s.state u := by
  obtain ⟨L, hq⟩ := hi.queues
  have hq1 := (hq.lift (hi.running_current hc)).setState (Set.mem_insert c ∅) .blocked
  have hst := setState_state s c .blocked
  obtain ⟨nx, hd, hadd, hq2⟩ := hq1.attach (q := .blocked) (Set.mem_insert c ∅) ((hst c).trans (if_pos rfl))
  obtain rfl := Option.some.inj (h.symm.trans hadd)
  have hfield := fun {α : Type} => s.modTask_field (α := α) c fun item => { item with state := .blocked }
  refine ⟨⟨rfl, fun u _ => congrFun (hfield (·.timeUsed) fun _ => rfl) u, Shift.of_chains hq.chains hq2.chains ?_⟩, rfl, rfl, hst⟩
  unfold State.lineup
  rw [State.setLinks_id, show (s.setState c .blocked).id = s.id from hfield (·.id) fun _ => rfl]
  exact .nil _

theorem unblockSelf_drift {c : TaskRef} (hq : Queues D s L) (hst : s.state c = .blocked)
    (h : unblockSelf c s = some s') :
    Drift t 0 s s' ∧ s'.state c = .running := by
  obtain ⟨nx, hd, h1, hq1⟩ := (hq.irqs false).detach (q := .blocked) hst
  unfold unblockSelf at h
  have hst' : (schedLockIrq s).state c = .blocked := hst
  simp only [if_pos hst'] at h
  rw [show schedQueueRemove .blocked c (schedLockIrq s) = _ from h1, Option.bind_eq_bind, Option.bind_some] at h
  obtain rfl := Option.some.inj h
  set s₁ := (schedLockIrq s).setLinks nx hd with hs₁
  have hfield := fun {α : Type} => s₁.modTask_field (α := α) c fun item => { item with state := .running }
  have hq2 := hq1.setState (Set.mem_insert c ∅) .running
  have hdrift : Drift t 0 s (s₁.setState c .running) := by
    refine ⟨rfl, fun u _ => congrFun (hfield (·.timeUsed) fun _ => rfl) u, Shift.of_chains hq.chains hq2.chains ?_⟩
    unfold State.lineup
    rw [show (s₁.setState c .running).id = s.id from hfield (·.id) fun _ => rfl]
    exact .nil _
  have hrun : (s₁.setState c .running).state c = .running := (setState_state s₁ c .running c).trans (if_pos rfl)
  have hstill := still_unlockIrq s.irqsEnabled (s₁.setState c .running)
  exact ⟨hdrift.trans hstill.drift, (congrFun hstill.state c).trans hrun⟩

theorem still_lockIrq (s : State) : Still s (schedLockIrq s) := .of_tasks rfl rfl rfl

theorem Inv.self_passes {callers : List Frame} {c : TaskRef} (hi : Inv D s) (hp : s.currentPolicy = .roundRobin)
    (hc : s.currentTask = some c) (ht : s.state t = .ready) (ht' : s'.state t = .ready)
    (hadd : schedQueueAdd .blocked c ((schedLockIrq s).setState c .blocked) = some s₁) (hcore : Core D s₁)
    (hc₁ : s₁.currentTask = some c)
    (h : schedYieldIn (.blockTask :: callers) (schedUnlockIrq s.irqsEnabled s₁) = some s') :
    Drift t 0 s s' ∨ PassedOver t s s' := by
  have hi₀ : Inv D (schedLockIrq s) := hi.irqs false
  have hrun := hi.running_current hc
  have htc : t ≠ c := fun e => by
    rw [e, hrun] at ht
    cases ht
  obtain ⟨hmark, hpol, -, hst⟩ := hi₀.mark_drift (t := t) hc hadd
  have hstill := still_unlockIrq s.irqsEnabled s₁
  have hpol₂ : (schedUnlockIrq s.irqsEnabled s₁).currentPolicy = .roundRobin := by
    rw [schedUnlockIrq_eq]
    exact hpol.trans hp
  obtain ⟨L, hq⟩ := (hcore.unlockIrq s.irqsEnabled).queues
  generalize schedUnlockIrq s.irqsEnabled s₁ = s₂ at h hstill hpol₂ hq
  have hdrift : Drift t 0 s s₂ := (still_lockIrq s).drift.trans (hmark.trans hstill.drift)
  have hc₂ : s₂.currentTask = some c := hstill.currentTask.trans hc₁
  have hst₂ : ∀ u, s₂.state u = if u = c then .blocked else s.state u := fun u => (congrFun hstill.state u).trans (hst u)
  have hblk : s₂.state c = .blocked := (hst₂ c).trans (if_pos rfl)
  have hcur : ∀ u, s₂.currentTask = some u → s₂.state u ≠ .ready := by
    intro u hu
    obtain rfl := Option.some.inj (hc₂.symm.trans hu)
    rw [hblk]
    decide
  obtain ⟨-, hback⟩ | ⟨-, x, hx, hserved⟩ :=
    schedYieldIn_serves hq hpol₂ hcur ((hst₂ t).trans ((if_neg htc).trans ht)) ht' h
  · rw [resume, List.foldlM_cons] at hback
    obtain ⟨s₃, h1, h2⟩ := Option.bind_eq_some_iff.mp hback
    simp only [finishFrame, hc₂] at h1
    obtain ⟨hundo, hrun₃⟩ := unblockSelf_drift (t := t) hq hblk h1
    have hrest := resume_still (hundo.current.trans hc₂) hrun₃ h2
    exact .inl (hdrift.trans (hundo.trans hrest.drift))
  · have hxc : s₂.currentTask ≠ some x := fun hcx => hcur x hcx hx
    exact .inr (hdrift.passedOver ⟨x, hxc, hserved⟩)

theorem Inv.block_passes {callers : List Frame} {id : ℕ} (hi : Inv D s) (hp : s.currentPolicy = .roundRobin)
    (ht : s.state t = .ready) (ht' : s'.state t = .ready) (h : schedBlockTaskIn callers id s = some s') :
    Drift t 0 s s' ∨ PassedOver t s s' := by
  obtain ⟨c, hc, hrun⟩ := hi.current
  have hlock := still_lockIrq s
  cases schedBlockTaskIn_blocks hi h with
  | back _ hback => exact .inl (resume_still hc hrun hback).drift
  | @self x s₁ hfind hcx hadd hcore hc₁ hblk hyield => exact hi.self_passes hp hcx ht ht' hadd hcore hc₁ hyield
  | @other x s₁ s₂ hfind hcx hrem hadd hback =>
    have hi₀ : Inv D (schedLockIrq s) := hi.irqs false
    cases hst : (schedLockIrq s).state x with
    | dead => exact absurd hst (schedFind_some hfind).1
    | running => exact absurd (hi₀.running x hst) hcx
    | blocked =>
      -- a blocked task is not blocked again
      have hfind' : schedFind id (schedLockIrq s) = some x := hfind
      simp only [schedBlockTaskIn, hfind', schedUnlockIrq_schedLockIrq] at h
      rw [if_pos (.inr (.inr hst))] at h
      exact .inl (resume_still hc hrun h).drift
    | ready =>
      obtain ⟨L, hq⟩ := hi₀.queues
      obtain ⟨s₁', s₂', h1, h2, -, hst₂, hkept⟩ := hq.move (q := .ready) hst .blocked
      obtain rfl := Option.some.inj (hrem.symm.trans h1)
      obtain rfl := Option.some.inj (hadd.symm.trans h2)
      have hstill := still_unlockIrq s.irqsEnabled s₂
      have hc₂ := hstill.currentTask.trans (hkept.currentTask.trans hc)
      have hxc : c ≠ x := fun e => hcx (by rw [hc, e])
      have hrun₂ : (schedUnlockIrq s.irqsEnabled s₂).state c = .running :=
        (congrFun hstill.state c).trans ((hst₂ c).trans ((if_neg hxc).trans hrun))
      have hrest := hstill.trans (resume_still hc₂ hrun₂ hback)
      have hxt : x ≠ t := by
        intro e
        rw [hrest.state, ← e, hst₂ x, if_pos rfl] at ht'
        cases ht'
      exact .inl (hlock.drift.trans ((hq.drift_move hst hxt hrem hadd).trans hrest.drift))

end Novium.Sched
