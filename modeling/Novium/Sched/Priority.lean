import Novium.Sched.Walk

/-! The priority policy. `SchedYield` chooses from the ready queue alone, and the
running task joins that queue only afterwards. -/

namespace Novium.Sched

open Novium.Lib

variable {s s' : State}

theorem findBest_top {n : ℕ} {cur best r : Option TaskRef} (h : findBest s n cur best = some r) :
    (∀ l t, Along s.next cur l (some t) → ∃ b, r = some b ∧ s.priority t ≤ s.priority b) ∧
      (∀ t, best = some t → ∃ b, r = some b ∧ s.priority t ≤ s.priority b) ∧
      ∀ b, r = some b → best = some b ∨ ∃ l, Along s.next cur l (some b) := by
  induction n generalizing cur best with
  | zero => cases h
  | succ n ih =>
    cases cur with
    | none =>
      obtain rfl := Option.some.inj h
      refine ⟨fun l t hl => ?_, fun t ht => ⟨t, ht, le_rfl⟩, fun b hb => Or.inl hb⟩
      cases l with
      | nil => cases hl
      | cons a l => cases hl.1
    | some a =>
      -- `m` is the best so far once `a` has been looked at
      obtain ⟨m, hrec, ha, hb, hm⟩ : ∃ m, findBest s n (s.next a) (some m) = some r ∧
          s.priority a ≤ s.priority m ∧ (∀ t, best = some t → s.priority t ≤ s.priority m) ∧
          (m = a ∨ best = some m) := by
        cases best with
        | none => exact ⟨a, h, le_rfl, by simp, Or.inl rfl⟩
        | some b =>
          rw [findBest] at h
          split_ifs at h with hlt
          · refine ⟨a, h, le_rfl, ?_, Or.inl rfl⟩
            rintro t ⟨⟩
            exact le_of_lt hlt
          · refine ⟨b, h, not_lt.mp hlt, ?_, Or.inr rfl⟩
            rintro t ⟨⟩
            exact le_rfl
      obtain ⟨h1, h2, h3⟩ := ih hrec
      obtain ⟨b, rfl, hmb⟩ := h2 m rfl
      refine ⟨fun l t hl => ?_, fun t ht => ⟨b, rfl, (hb t ht).trans hmb⟩, ?_⟩
      · cases l with
        | nil =>
          cases hl
          exact ⟨b, rfl, ha.trans hmb⟩
        | cons c l =>
          cases hl.1
          exact h1 l t hl.2
      · rintro _ ⟨⟩
        rcases h3 b rfl with hmb' | ⟨l, hl⟩
        · cases hmb'
          rcases hm with rfl | hm
          · exact Or.inr ⟨[], rfl⟩
          · exact Or.inl hm
        · exact Or.inr ⟨a :: l, rfl, hl⟩

/-- No task on the ready queue has a higher priority than the current one. -/
def TopPriority (s : State) : Prop :=
  ∀ c, s.currentTask = some c → ∀ t, s.OnQueue .ready t → s.priority t ≤ s.priority c

theorem schedYieldIn_priority {callers : List Frame} (hp : s.currentPolicy = .priority)
    (hl : s.schedulerLocked = 0) (h : schedYieldIn callers s = some s') :
    (resume callers s = some s' ∧ ((∀ t, ¬ s.OnQueue .ready t) ∨
        ∃ c, s.currentTask = some c ∧ s.OnQueue .ready c ∧ ∀ t, s.OnQueue .ready t → s.priority t ≤ s.priority c)) ∨
      ∃ nxt, s.OnQueue .ready nxt ∧ (∀ t, s.OnQueue .ready t → s.priority t ≤ s.priority nxt) ∧
        SwitchedTo s nxt s' := by
  unfold schedYieldIn at h
  simp only at h
  rw [if_neg (show ¬ (schedLockIrq s).schedulerLocked ≠ 0 from not_not.mpr hl)] at h
  simp only [Option.bind_eq_bind, Option.bind_eq_some_iff] at h
  obtain ⟨r, hfind, h⟩ := h
  rw [schedFindNext, show (schedLockIrq s).currentPolicy = .priority from hp] at hfind
  obtain ⟨htop, -, hmem⟩ := findBest_top hfind
  cases r with
  | none =>
    simp only [schedUnlockIrq_schedLockIrq] at h
    refine Or.inl ⟨h, Or.inl fun t ht => ?_⟩
    obtain ⟨l, hl⟩ := ht
    obtain ⟨b, hb, -⟩ := htop l t hl
    cases hb
  | some nxt =>
    have hon : s.OnQueue .ready nxt := (hmem nxt rfl).resolve_left (by simp)
    have hmax : ∀ t, s.OnQueue .ready t → s.priority t ≤ s.priority nxt := by
      rintro t ⟨l, hl⟩
      obtain ⟨b, hb, hle⟩ := htop l t hl
      cases hb
      exact hle
    simp only [schedUnlockIrq_schedLockIrq] at h
    split_ifs at h with hcur
    · exact Or.inl ⟨h, Or.inr ⟨nxt, hcur, hon, hmax⟩⟩
    · have hsw := switchTo_switchedTo h
      exact Or.inr ⟨nxt, hon, hmax, hsw.currentTask, hsw.priority, hsw.covers, hsw.requeued⟩

/-- The call reaches `SchedYield`. -/
def Call.Yields (s : State) : Call → Prop
  | .yield => True
  | .preempt => s.preemptPending = true
  | .blockTask id => ∃ c, schedFind id s = some c ∧ s.currentTask = some c ∧ s.id c ≠ 0 ∧ s.state c ≠ .blocked
  | _ => False

/-- A running task is not above all the ready ones, unless nobody is ready. -/
def NotAbove (s : State) : Prop :=
  ∀ c, s.currentTask = some c → s.state c = .running →
    (∀ t, ¬ s.OnQueue .ready t) ∨ ∃ t, s.OnQueue .ready t ∧ s.priority c ≤ s.priority t

/-- A task that blocks is not put back, so its priority does not matter. -/
def Call.NotAbove (s : State) : Call → Prop
  | .blockTask _ => True
  | _ => Sched.NotAbove s

theorem yield_topPriority_iff (hp : s.currentPolicy = .priority) (hl : s.schedulerLocked = 0)
    (h : schedYield s = some s') : TopPriority s' ↔ NotAbove s := by
  rcases schedYieldIn_priority hp hl h with ⟨hret, hwhy⟩ | ⟨nxt, hon, hmax, hsw⟩
  · obtain rfl : s = s' := Option.some.inj hret
    rcases hwhy with hnone | ⟨c, hc, hon, hmax⟩
    · exact iff_of_true (fun _ _ t ht => absurd ht (hnone t)) fun _ _ _ => Or.inl hnone
    · refine iff_of_true (fun c' hc' => ?_) fun c' hc' _ => Or.inr ⟨c, hon, ?_⟩
      · rwa [← Option.some.inj (hc.symm.trans hc')]
      · rw [Option.some.inj (hc.symm.trans hc')]
  · refine ⟨fun htop c hc hrun => Or.inr ⟨nxt, hon, ?_⟩, fun hna c hc t ht => ?_⟩
    · have := htop nxt hsw.currentTask c (hsw.requeued c hc hrun)
      rwa [hsw.priority] at this
    · obtain rfl := Option.some.inj (hsw.currentTask.symm.trans hc)
      rw [hsw.priority]
      rcases hsw.covers.onQueue ht with ht | ⟨hcur, hrun⟩
      · exact hmax t ht
      · rcases hna t hcur hrun with hnone | ⟨u, hu, hle⟩
        · exact absurd hon (hnone nxt)
        · exact hle.trans (hmax u hu)

theorem blocked_yield_topPriority {c : TaskRef} (hp : s.currentPolicy = .priority) (hl : s.schedulerLocked = 0)
    (hc : s.currentTask = some c) (hst : s.state c = .blocked) (h : schedYieldIn [.blockTask] s = some s') :
    TopPriority s' := by
  rcases schedYieldIn_priority hp hl h with ⟨hret, hwhy⟩ | ⟨nxt, -, hmax, hsw⟩
  · -- nobody else was ready: the block is undone, which adds nothing to the ready queue
    have hself : unblockSelf c s = some s' := by simpa [resume, finishFrame, hc] using hret
    simp only [unblockSelf] at hself
    rw [if_pos (show (schedLockIrq s).state c = .blocked from hst)] at hself
    simp only [Option.bind_eq_bind, Option.bind_eq_some_iff] at hself
    obtain ⟨s₁, h1, h2⟩ := hself
    obtain rfl := Option.some.inj h2
    have hcov : Covers _ (schedLockIrq s) := (covers_onQueue s).congr rfl rfl
    replace hcov := hcov.remove h1
    obtain ⟨nx, hd, rfl⟩ := schedQueueRemove_links h1
    have hprio : (schedUnlockIrq s.irqsEnabled (((schedLockIrq s).setLinks nx hd).setState c .running)).priority =
        s.priority := by
      rw [schedUnlockIrq_eq]
      exact State.setState_priority _ _ _
    have hcov' : Covers (s.OnQueue .ready)
        (schedUnlockIrq s.irqsEnabled (((schedLockIrq s).setLinks nx hd).setState c .running)) := by
      rw [schedUnlockIrq_eq]
      exact hcov.congr (setState_next _ _ _) rfl
    intro c' hc' t ht
    rw [schedUnlockIrq_eq] at hc'
    have hcc : c = c' := Option.some.inj (hc.symm.trans hc')
    rw [hprio, ← hcc]
    rcases hwhy with hnone | ⟨d, hd, -, hmax⟩
    · exact absurd (hcov'.onQueue ht) (hnone t)
    · rw [Option.some.inj (hc.symm.trans hd)]
      exact hmax t (hcov'.onQueue ht)
  · intro c' hc' t ht
    obtain rfl := Option.some.inj (hsw.currentTask.symm.trans hc')
    rw [hsw.priority]
    rcases hsw.covers.onQueue ht with ht | ⟨hcur, hrun⟩
    · exact hmax t ht
    · rw [← Option.some.inj (hc.symm.trans hcur), hst] at hrun
      cases hrun

theorem block_topPriority {id : ℕ} {c : TaskRef} (hp : s.currentPolicy = .priority) (hl : s.schedulerLocked = 0)
    (hfind : schedFind id s = some c) (hc : s.currentTask = some c) (hid : s.id c ≠ 0) (hst : s.state c ≠ .blocked)
    (h : schedBlockTask id s = some s') : TopPriority s' := by
  have hlive : s.state c ≠ .dead := (schedFind_some hfind).1
  unfold schedBlockTask schedBlockTaskIn at h
  simp only [show schedFind id (schedLockIrq s) = some c from hfind] at h
  have hgo : ¬ ((schedLockIrq s).state c = .dead ∨ (schedLockIrq s).id c = 0 ∨ (schedLockIrq s).state c = .blocked) := by
    rintro (h | h | h)
    · exact hlive h
    · exact hid h
    · exact hst h
  rw [if_neg hgo, if_pos (show (schedLockIrq s).currentTask = some c from hc)] at h
  simp only [Option.bind_eq_bind, Option.bind_eq_some_iff] at h
  obtain ⟨s₁, h1, s₂, h2, h3⟩ := h
  obtain ⟨nx, hd, rfl⟩ := schedQueueRemove_links h1
  obtain ⟨nx', hd', rfl⟩ : ∃ nx' hd', s₂ = (((schedLockIrq s).setLinks nx hd).setState c .blocked).setLinks nx' hd' := by
    rcases schedQueueAdd_cases h2 with ⟨-, rfl⟩ | ⟨l, last, -, -, rfl⟩ <;> exact ⟨_, _, rfl⟩
  rw [schedUnlockIrq_eq] at h3
  refine blocked_yield_topPriority (c := c) ?_ ?_ ?_ ?_ h3
  · exact hp
  · exact hl
  · exact hc
  · exact (setState_state ((schedLockIrq s).setLinks nx hd) c .blocked c).trans (if_pos rfl)

/-- After a yield under the priority policy no ready task is above the current one
exactly when the task that gave up the processor was not above all the ready ones;
after a task blocks it always holds. The state is any in which the call returns,
which it does in every run in which nobody leaves under the lock. -/
theorem priority_yield_iff {e : Call} (hp : s.currentPolicy = .priority) (hl : s.schedulerLocked = 0)
    (hy : e.Yields s) :
    (∀ s', e.run s = some s' → (TopPriority s' ↔ e.NotAbove s)) ∧
      (system.ReachableIf LeavesUnlocked s → ∃ s', e.run s = some s') := by
  refine ⟨fun s' hrun => ?_, fun hr => ?_⟩
  · cases e with
    | yield => exact yield_topPriority_iff hp hl hrun
    | preempt =>
      have hy' : s.preemptPending = true := hy
      have hrun' : schedYield { s with preemptPending := false } = some s' := by
        simpa [Call.run, schedPreempt, hy', hl] using hrun
      exact yield_topPriority_iff (s := { s with preemptPending := false }) hp hl hrun'
    | blockTask id =>
      obtain ⟨c, hfind, hc, hid, hst⟩ := hy
      exact iff_of_true (block_topPriority hp hl hfind hc hid hst hrun) trivial
    | _ => cases hy
  · obtain ⟨s', h, -⟩ := call_inv (reachable_inv hr) e fun _ => hl
    exact ⟨s', h⟩

/-- The idle task gives way to a task of priority 1. -/
theorem priority_yield_idle :
    ∃ s s', system.ReachableIf LeavesUnlocked s ∧ schedYield s = some s' ∧ s'.currentTask = some 1 ∧
      TopPriority s' := by
  obtain ⟨s, -, hs, hp⟩ := System.exists_reachableIf LeavesUnlocked system_init
    ([createTask, .setPolicy 1].map .call)
    (fun s => s.currentTask = some idleRef ∧ s.readyQueue = some 1 ∧ s.priority 0 ≤ s.priority 1 ∧
      s.currentPolicy = .priority ∧ s.schedulerLocked = 0 ∧
      (schedYield s).any fun s' => s'.currentTask = some 1) (by decide +kernel)
  obtain ⟨h1, h2, h3, h4, h5, h6⟩ := of_decide_eq_true hp
  obtain ⟨hiff, hret⟩ := priority_yield_iff (e := .yield) h4 h5 trivial
  obtain ⟨s', hrun⟩ := hret hs
  have hrun' : schedYield s = some s' := hrun
  rw [hrun'] at h6
  refine ⟨s, s', hs, hrun, by simpa using h6, (hiff s' hrun).mpr fun c hc _ => Or.inr ⟨1, ⟨[], h2⟩, ?_⟩⟩
  rwa [← Option.some.inj (h1.symm.trans hc)]

/-- A task of priority 1 yields to the idle task and is then the ready one. -/
theorem priority_yield_downwards :
    ¬ ∀ s s', system.Reachable s → s.currentPolicy = .priority → s.schedulerLocked = 0 →
      schedYield s = some s' → TopPriority s' := by
  intro hall
  obtain ⟨s, -, hs, hp⟩ := System.exists_reachableIf (fun _ _ => True) system_init
    ([createTask, .setPolicy 1, .yield].map .call)
    (fun s => s.currentPolicy = .priority ∧ s.schedulerLocked = 0 ∧
      (schedYield s).any fun s' => s'.currentTask = some idleRef ∧ s'.readyQueue = some 1 ∧
        s'.priority 0 < s'.priority 1) (by decide +kernel)
  obtain ⟨h1, h2, h3⟩ := of_decide_eq_true hp
  obtain ⟨s', hrun, h4⟩ := (Option.any_eq_true _ _).mp h3
  obtain ⟨h5, h6, h7⟩ := of_decide_eq_true h4
  exact absurd (hall s s' hs h1 h2 hrun _ h5 1 ⟨[], h6⟩) (not_le.mpr h7)

end Novium.Sched
