import Novium.Sched.Runs

/-! The ready queue in any state, whatever has become of the partition: what is on it
is what a walk from the head meets. Taking a node off a queue adds nothing to the
walk, `SchedQueueAdd` adds its item, and a switch is one of each. -/

namespace Novium.Sched

open Novium.Lib

variable {s s' : State}

namespace State

def priority (s : State) (t : TaskRef) : ℕ := (s.tasks t).priority

@[simp] theorem setLinks_priority (s : State) (nx : TaskRef → Option TaskRef) (hd : Queue → Option TaskRef) :
    (s.setLinks nx hd).priority = s.priority := rfl

theorem setState_priority (s : State) (t : TaskRef) (st : TaskState) : (s.setState t st).priority = s.priority :=
  s.modTask_field t (fun item => { item with state := st }) (·.priority) fun _ => rfl

end State

/-- `P` holds of the head of the ready queue and of every successor of a node of
which it holds, so of all that is on the queue. -/
structure Covers (P : TaskRef → Prop) (s : State) : Prop where
  head : ∀ a, s.readyQueue = some a → P a
  next : ∀ a b, P a → s.next a = some b → P b

theorem Covers.onQueue {P : TaskRef → Prop} (h : Covers P s) {t : TaskRef} (ht : s.OnQueue .ready t) : P t := by
  obtain ⟨l, hl⟩ := ht
  exact hl.closed h.head h.next

theorem covers_onQueue (s : State) : Covers (s.OnQueue .ready) s where
  head _ ha := ⟨[], ha⟩
  next := by
    rintro a b ⟨l, hl⟩ hb
    exact ⟨l ++ [a], hb ▸ hl.snoc⟩

theorem queueRemoveLoop_cases {q : Queue} {item : TaskRef} {n : ℕ} {prev cur : Option TaskRef}
    (h : queueRemoveLoop q item s n prev cur = some s') :
    s' = s ∨ (cur = some item ∧ s' = queueUnlink q prev item s) ∨
      ∃ p, s.next p = some item ∧ s' = queueUnlink q (some p) item s := by
  induction n generalizing prev cur with
  | zero => cases h
  | succ n ih =>
    cases cur with
    | none => exact Or.inl (Option.some.inj h).symm
    | some a =>
      rw [queueRemoveLoop] at h
      split_ifs at h with ha
      · subst ha
        exact Or.inr (Or.inl ⟨rfl, (Option.some.inj h).symm⟩)
      · rcases ih h with h | ⟨hnx, h⟩ | h
        · exact Or.inl h
        · exact Or.inr (Or.inr ⟨a, hnx, h⟩)
        · exact Or.inr (Or.inr h)

theorem queueUnlink_links (q : Queue) (prev : Option TaskRef) (cur : TaskRef) (s : State) :
    ∃ nx hd, queueUnlink q prev cur s = s.setLinks nx hd := by
  cases prev with
  | none =>
    simp only [queueUnlink, State.setHead_eq_setLinks, State.setNext_eq_setLinks, State.setLinks_setLinks]
    exact ⟨_, _, rfl⟩
  | some p =>
    simp only [queueUnlink, State.setNext_eq_setLinks, State.setLinks_setLinks]
    exact ⟨_, _, rfl⟩

theorem schedQueueRemove_links {q : Queue} {item : TaskRef} (h : schedQueueRemove q item s = some s') :
    ∃ nx hd, s' = s.setLinks nx hd := by
  rcases queueRemoveLoop_cases h with rfl | ⟨-, rfl⟩ | ⟨p, -, rfl⟩
  · exact ⟨_, _, (State.setLinks_self _).symm⟩
  · exact queueUnlink_links q none item s
  · exact queueUnlink_links q (some p) item s

theorem Covers.remove {P : TaskRef → Prop} {q : Queue} {item : TaskRef} (h : Covers P s)
    (hr : schedQueueRemove q item s = some s') : Covers P s' := by
  rcases queueRemoveLoop_cases hr with rfl | ⟨hhead, rfl⟩ | ⟨p, hp, rfl⟩
  · exact h
  · have hnext : (queueUnlink q none item s).next = Function.update s.next item none := by
      simp only [queueUnlink, State.setHead_eq_setLinks, State.setNext_eq_setLinks, State.setLinks_next]
    refine ⟨fun a ha => ?_, fun a b hPa hab => ?_⟩
    · cases q with
      | ready => exact h.next item a (h.head item hhead) ha
      | blocked => exact h.head a ha
      | dead => exact h.head a ha
    · rw [hnext] at hab
      by_cases hai : a = item
      · simp [hai] at hab
      · rw [Function.update_of_ne hai] at hab
        exact h.next a b hPa hab
  · have hnext : (queueUnlink q (some p) item s).next =
        Function.update (Function.update s.next p (s.next item)) item none := by
      simp only [queueUnlink, State.setNext_eq_setLinks, State.setLinks_next]
    refine ⟨h.head, fun a b hPa hab => ?_⟩
    rw [hnext] at hab
    by_cases hai : a = item
    · simp [hai] at hab
    · rw [Function.update_of_ne hai] at hab
      by_cases hap : a = p
      · rw [hap, Function.update_self] at hab
        exact h.next item b (h.next p item (hap ▸ hPa) hp) hab
      · rw [Function.update_of_ne hap] at hab
        exact h.next a b hPa hab

theorem queueTail_along {nx : TaskRef → Option TaskRef} {n : ℕ} {h last : TaskRef}
    (hr : queueTail nx n h = some last) : ∃ l, Along nx (some h) l (some last) ∧ nx last = none := by
  induction n generalizing h with
  | zero => cases hr
  | succ n ih =>
    rw [queueTail] at hr
    cases hnx : nx h with
    | none =>
      rw [hnx] at hr
      cases hr
      exact ⟨[], rfl, hnx⟩
    | some b =>
      rw [hnx] at hr
      obtain ⟨l, hl, hend⟩ := ih hr
      exact ⟨h :: l, ⟨rfl, hnx ▸ hl⟩, hend⟩

/-- `SchedQueueAdd` in any state: the item is behind the last node of the walk. -/
theorem schedQueueAdd_cases {q : Queue} {item : TaskRef} (h : schedQueueAdd q item s = some s') :
    (s.head q = none ∧ s' = s.setLinks (Function.update s.next item none) (Function.update s.head q (some item))) ∨
      ∃ l last, Along (Function.update s.next item none) (s.head q) l (some last) ∧
        Function.update s.next item none last = none ∧
        s' = s.setLinks (Function.update (Function.update s.next item none) last (some item)) s.head := by
  simp only [schedQueueAdd, State.setNext_eq_setLinks, State.setHead_eq_setLinks, State.setLinks_head,
    State.setLinks_next, State.setLinks_setLinks] at h
  cases hq : s.head q with
  | none =>
    simp only [hq] at h
    exact Or.inl ⟨rfl, (Option.some.inj h).symm⟩
  | some a =>
    simp only [hq] at h
    obtain ⟨last, ht, rfl⟩ := Option.map_eq_some_iff.mp h
    obtain ⟨l, hl, hend⟩ := queueTail_along ht
    exact Or.inr ⟨l, last, hl, hend, rfl⟩

theorem schedQueueAdd_links {q : Queue} {item : TaskRef} (h : schedQueueAdd q item s = some s') :
    ∃ nx hd, s' = s.setLinks nx hd := by
  rcases schedQueueAdd_cases h with ⟨-, rfl⟩ | ⟨l, last, -, -, rfl⟩
  · exact ⟨_, _, rfl⟩
  · exact ⟨_, _, rfl⟩

theorem Covers.add {P : TaskRef → Prop} {item : TaskRef} (h : Covers P s)
    (hr : schedQueueAdd .ready item s = some s') : Covers (fun t => P t ∨ t = item) s' := by
  have hold : ∀ a b, (P a ∨ a = item) → Function.update s.next item none a = some b → P b ∨ b = item := by
    intro a b ha hab
    by_cases hai : a = item
    · simp [hai] at hab
    · rw [Function.update_of_ne hai] at hab
      exact Or.inl (h.next a b (ha.resolve_right hai) hab)
  rcases schedQueueAdd_cases hr with ⟨-, rfl⟩ | ⟨l, last, -, -, rfl⟩
  · exact ⟨fun a ha => Or.inr (Option.some.inj ha).symm, hold⟩
  · refine ⟨fun a ha => Or.inl (h.head a ha), fun a b ha hab => ?_⟩
    rw [State.setLinks_next] at hab
    by_cases hal : a = last
    · rw [hal, Function.update_self] at hab
      exact Or.inr (Option.some.inj hab).symm
    · rw [Function.update_of_ne hal] at hab
      exact hold a b ha hab

theorem schedQueueAdd_onQueue {q : Queue} {item : TaskRef} (h : schedQueueAdd q item s = some s') :
    s'.OnQueue q item := by
  rcases schedQueueAdd_cases h with ⟨-, rfl⟩ | ⟨l, last, hl, hend, rfl⟩
  · exact ⟨[], by simp [Along]⟩
  · -- the nodes before the last one have successors, so the new link is not among theirs
    have hkeep : ∀ a ∈ l, Function.update (Function.update s.next item none) last (some item) a =
        Function.update s.next item none a := by
      intro a ha
      have hne : a ≠ last := fun e => by
        have := hl.next_isSome ha
        rw [e, hend] at this
        cases this
      exact Function.update_of_ne hne _ _
    have hpath := (hl.congr hkeep).snoc
    rw [Function.update_self] at hpath
    exact ⟨l ++ [last], by simpa using hpath⟩

theorem requeue_cases {prev : Option TaskRef} (h : requeue prev s = some s') :
    (s' = s ∧ ∀ p, prev = some p → s.state p ≠ .running) ∨
      ∃ p, prev = some p ∧ s.state p = .running ∧ schedQueueAdd .ready p (s.setState p .ready) = some s' := by
  cases prev with
  | none => exact Or.inl ⟨(Option.some.inj h).symm, by simp⟩
  | some p =>
    rw [requeue] at h
    split_ifs at h with hp
    · exact Or.inr ⟨p, rfl, hp, h⟩
    · refine Or.inl ⟨(Option.some.inj h).symm, ?_⟩
      rintro p' ⟨⟩
      exact hp

theorem Covers.congr {P : TaskRef → Prop} (h : Covers P s) (hn : s'.next = s.next)
    (hq : s'.readyQueue = s.readyQueue) : Covers P s' :=
  ⟨by rw [hq]; exact h.head, by rw [hn]; exact h.next⟩

theorem schedQueueAdd_priority {q : Queue} {item : TaskRef} (h : schedQueueAdd q item s = some s') :
    s'.priority = s.priority := by
  rcases schedQueueAdd_cases h with ⟨-, rfl⟩ | ⟨l, last, -, -, rfl⟩ <;> rfl

theorem setState_next (s : State) (t : TaskRef) (st : TaskState) : (s.setState t st).next = s.next :=
  s.modTask_field t (fun item => { item with state := st }) (·.next) fun _ => rfl

theorem schedSwitch_priority (prev : Option TaskRef) (frames : List Frame) (nxt : TaskRef) (s : State) :
    (schedSwitch prev frames nxt s).priority = s.priority := by
  cases prev with
  | none => rfl
  | some p => exact s.modTask_field p (fun item => { item with esp := s.cpuEsp }) (·.priority) fun _ => rfl

/-- Who is on the ready queue after a switch: at most who was there and the task
switched out, and that task for certain if it was running. -/
structure SwitchedTo (s : State) (nxt : TaskRef) (s' : State) : Prop where
  currentTask : s'.currentTask = some nxt
  priority : s'.priority = s.priority
  covers : Covers (fun t => s.OnQueue .ready t ∨ (s.currentTask = some t ∧ s.state t = .running)) s'
  requeued : ∀ c, s.currentTask = some c → s.state c = .running → s'.OnQueue .ready c

theorem switchTo_switchedTo {frames : List Frame} {nxt : TaskRef} (h : switchTo frames nxt s = some s') :
    SwitchedTo s nxt s' := by
  simp only [switchTo, Option.bind_eq_bind, Option.bind_eq_some_iff] at h
  obtain ⟨s₁, h1, s₂, h2, h3⟩ := h
  obtain rfl := Option.some.inj h3
  have hcov := (covers_onQueue s).remove h1
  obtain ⟨nx, hd, rfl⟩ := schedQueueRemove_links h1
  obtain ⟨k1, k2, -, -, k5, -⟩ := schedSwitch_keeps s.currentTask frames nxt (makeCurrent nxt s₂)
  have hready := congrFun (State.head_congr k2) .ready
  have hnext : (makeCurrent nxt s₂).next = s₂.next := s₂.modTask_field nxt elected (·.next) fun _ => rfl
  have hprio : (makeCurrent nxt s₂).priority = s₂.priority :=
    s₂.modTask_field nxt elected (·.priority) fun _ => rfl
  rcases requeue_cases h2 with ⟨rfl, hnot⟩ | ⟨c, hc, hrun, hadd⟩
  · refine ⟨k5, (schedSwitch_priority _ _ _ _).trans hprio, ?_, fun c hc hrun => absurd hrun (hnot c hc)⟩
    refine Covers.congr (s := s.setLinks nx hd) ⟨fun a ha => Or.inl (hcov.head a ha), ?_⟩ (k1.trans hnext) hready
    rintro a b (ha | ⟨hc, hrun⟩) hab
    · exact Or.inl (hcov.next a b ha hab)
    · exact absurd hrun (hnot a hc)
  · have hcov' := (hcov.congr (setState_next _ c .ready) rfl).add hadd
    refine ⟨k5, ?_, ?_, fun c' hc' _ => ?_⟩
    · rw [schedSwitch_priority, hprio, schedQueueAdd_priority hadd, State.setState_priority]
      rfl
    · have hP : (fun t => s.OnQueue .ready t ∨ (s.currentTask = some t ∧ s.state t = .running)) =
          fun t => s.OnQueue .ready t ∨ t = c := by
        funext t
        refine propext (or_congr_right ⟨fun ⟨ht, _⟩ => Option.some.inj (ht.symm.trans hc), ?_⟩)
        rintro rfl
        exact ⟨hc, hrun⟩
      rw [hP]
      exact hcov'.congr (k1.trans hnext) hready
    · obtain rfl := Option.some.inj (hc.symm.trans hc')
      obtain ⟨l, hl⟩ := schedQueueAdd_onQueue hadd
      refine ⟨l, ?_⟩
      rw [k1, hnext, hready]
      exact hl

end Novium.Sched
