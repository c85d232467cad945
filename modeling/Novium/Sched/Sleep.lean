import Novium.Sched.Doze

/-! Sleepers and their deadlines. `SchedSleepUntil` writes the deadline where 0 means that
a task does not sleep, and blocks the task that its caller's id names; the timer compares
the deadline with the tick counter modulo 2^32. -/

namespace Novium.Sched

open Novium.Lib

/-- An event behind which the task `c` is blocked. -/
def Stays (c : TaskRef) (s : State) (e : Event) : Prop :=
  LeavesUnlocked s e ∧ ∀ s', system.next s e = some s' → s'.state c = .blocked

/-- `n` calls of `SchedWakeExpired` with the ticks from `t` on, and in between other events behind which `c` is
still blocked. -/
inductive Ticked (c : TaskRef) (t : ℕ) (s : State) : ℕ → State → Prop where
  | start : Ticked c t s 0 s
  | other {n : ℕ} {s₁ s₂ : State} {e : Event} : Ticked c t s n s₁ → Stays c s₁ e → system.next s₁ e = some s₂ →
      Ticked c t s n s₂
  | tick {n k : ℕ} {s₁ s₂ : State} : Ticked c t s n s₁ → schedWakeExpired (u32 (t + n)) s₁ = some (s₂, k) →
      Ticked c t s (n + 1) s₂

/-- From `s` on the task `c` sleeps until `deadline`: as long as nobody else wakes it, a call of `SchedWakeExpired`
makes it ready if the deadline has come and only then. -/
structure SleepsUntil (c : TaskRef) (deadline : ℕ) (s : State) : Prop where
  blocked : s.state c = .blocked
  wakes : ∀ {s₁}, system.Leads (Stays c) s s₁ → ∀ now, ∃ s₂ k, schedWakeExpired now s₁ = some (s₂, k) ∧
    (s₂.OnQueue .ready c ↔ nonneg32 (sub32 now deadline) = true)
  before : ∀ {t n s₁}, sub32 deadline t < 2 ^ 31 → Ticked c t s n s₁ → n ≤ sub32 deadline t → s₁.state c = .blocked
  onTime : ∀ {t s₁}, sub32 deadline t < 2 ^ 31 → Ticked c t s (sub32 deadline t) s₁ →
    ∃ s₂ k, schedWakeExpired deadline s₁ = some (s₂, k) ∧ s₂.OnQueue .ready c

variable {s s₁ : State} {c : TaskRef} {deadline : ℕ}

/-- What carries the law: the deadline stands in the descriptor of the blocked task. -/
structure Asleep (c : TaskRef) (deadline : ℕ) (s : State) : Prop where
  inv : Inv ∅ s
  blocked : s.state c = .blocked
  wakeTick : (s.tasks c).wakeTick = deadline

theorem Asleep.leads (h : Asleep c deadline s) (hrun : system.Leads (Stays c) s s₁) : Asleep c deadline s₁ := by
  refine hrun.invariant (fun s e s' hs hok hnext => ?_) h
  have hblk := hok.2 s' hnext
  exact ⟨next_inv hs.inv hok.1 hnext, hblk, (next_wakeTick hs.inv hs.blocked hnext hblk).trans hs.wakeTick⟩

/-- One call of `SchedWakeExpired` wakes the task if its deadline is not 0 and has come, and leaves it asleep
otherwise. -/
theorem Asleep.call (h : Asleep c deadline s) (now : ℕ) :
    ∃ s' k, schedWakeExpired now s = some (s', k) ∧
      (s'.OnQueue .ready c ↔ deadline ≠ 0 ∧ nonneg32 (sub32 now deadline) = true) ∧
      (¬s'.OnQueue .ready c → Asleep c deadline s') := by
  obtain ⟨L, hq⟩ := h.inv.queues
  obtain ⟨s', hrun, hwoken⟩ := schedWakeExpired_spec hq.chains (h.inv.partition.nodup hq.chains) now
  have hin : c ∈ L .blocked := hq.blocked (by simp) h.blocked
  have hout : c ∉ L .ready := hq.not_mem (Or.inr (by rw [h.blocked]; decide))
  have hdue : s.due now c = true ↔ deadline ≠ 0 ∧ nonneg32 (sub32 now deadline) = true := by
    unfold State.due expired
    rw [h.wakeTick]
    simp
  have hready : s'.OnQueue .ready c ↔ s.due now c = true := by
    rw [show s'.OnQueue .ready c ↔ _ from hwoken.ready.along_iff, List.mem_append, List.mem_filter]
    exact ⟨fun hc => (hc.resolve_left hout).2, fun hc => Or.inr ⟨hin, hc⟩⟩
  refine ⟨s', _, hrun, hready.trans hdue, fun hno => ?_⟩
  obtain ⟨s'', k, hrun', hinv, -⟩ := schedWakeExpired_inv h.inv now
  obtain rfl : s' = s'' := congrArg Prod.fst (Option.some.inj (hrun.symm.trans hrun'))
  have htask : s'.tasks c = { s.tasks c with next := s'.next c } := by
    rw [hwoken.tasks c, if_neg]
    rw [List.mem_filter]
    exact fun hmem => hno (hready.mpr hmem.2)
  refine ⟨hinv, ?_, ?_⟩
  · rw [State.state, htask]
    exact h.blocked
  · rw [htask]
    exact h.wakeTick

theorem not_expired_before {deadline t n : ℕ} (hnear : sub32 deadline t < 2 ^ 31) (hn : n < sub32 deadline t) :
    nonneg32 (sub32 (u32 (t + n)) deadline) = false := by
  unfold nonneg32 sub32 u32 at *
  simp only [decide_eq_false_iff_not]
  omega

theorem Asleep.ticked {t n : ℕ} (h : Asleep c deadline s) (hnear : sub32 deadline t < 2 ^ 31)
    (hrun : Ticked c t s n s₁) (hn : n ≤ sub32 deadline t) : Asleep c deadline s₁ := by
  induction hrun with
  | start => exact h
  | other _ hstays hnext ih => exact (ih hn).leads (.tail .refl hstays hnext)
  | @tick n k s₁ s₂ _ hcall ih =>
    obtain ⟨s', k', hcall', hready, hstays⟩ := (ih (by omega)).call (u32 (t + n))
    rw [hcall] at hcall'
    cases hcall'
    refine hstays fun hon => ?_
    have hexp := (hready.mp hon).2
    rw [not_expired_before hnear (by omega)] at hexp
    cases hexp

theorem Asleep.sleepsUntil (h : Asleep c deadline s) (h0 : deadline ≠ 0) : SleepsUntil c deadline s where
  blocked := h.blocked
  wakes hrun now := by
    obtain ⟨s₂, k, hcall, hready, -⟩ := (h.leads hrun).call now
    exact ⟨s₂, k, hcall, hready.trans (and_iff_right h0)⟩
  before hnear hrun hn := (h.ticked hnear hrun hn).blocked
  onTime hnear hrun := by
    obtain ⟨s₂, k, hcall, hready, -⟩ := (h.ticked hnear hrun (Nat.le_refl _)).call deadline
    refine ⟨s₂, k, hcall, hready.mpr ⟨h0, ?_⟩⟩
    unfold nonneg32 sub32 u32
    simp only [decide_eq_true_eq]
    omega

/-- The deadline 0 is taken for none. -/
theorem Asleep.not_sleepsUntil (h : Asleep c 0 s) : ¬SleepsUntil c 0 s := by
  intro hs
  obtain ⟨s₁, k, hcall, hready, -⟩ := h.call 0
  obtain ⟨s₂, k', hcall', hready'⟩ := hs.wakes .refl 0
  rw [hcall] at hcall'
  cases hcall'
  exact (hready.mp (hready'.mpr (by decide))).1 rfl

theorem schedFind_congr {s s' : State} {id : ℕ} (hst : s'.state = s.state) (hid : s'.id = s.id) :
    schedFind id s' = schedFind id s := by
  unfold schedFind
  rw [hst, hid]

/-- The yield of a task that has blocked itself: some other task is ready, if only the idle one. -/
theorem yield_leaves_blocked {D : Set TaskRef} {callers : List Frame} (h : Core D s) (hlock : s.schedulerLocked = 0)
    (hc : s.currentTask = some c) (hblk : s.state c = .blocked) (hrun : schedYieldIn callers s = some s₁) :
    s₁.state c = .blocked ∧ (s₁.tasks c).wakeTick = (s.tasks c).wakeTick := by
  obtain ⟨L, hq⟩ := h.queues
  have hidle : idleRef ∈ L .ready := by
    refine hq.ready (by simp) (h.idle.resolve_right fun hrunning => ?_)
    obtain rfl : c = 0 := Option.some.inj (hc.symm.trans (h.running 0 hrunning))
    rw [hblk] at hrunning
    cases hrunning
  rcases schedYieldIn_outcome hq hrun with ⟨-, hl | hempty | ⟨c', hmem, hc'⟩⟩ | ⟨nxt, hmem, hswitch⟩
  · exact absurd hlock hl
  · rw [hempty] at hidle
    cases hidle
  · obtain rfl : c = c' := Option.some.inj (hc.symm.trans hc')
    have hready := hq.mem c (by simp) .ready hmem
    rw [hblk] at hready
    cases hready
  · have hready : s.state nxt = .ready := hq.mem nxt (by simp) .ready hmem
    have hne : c ≠ nxt := fun e => by
      rw [← e, hblk] at hready
      cases hready
    obtain ⟨s', hswitch', hsw⟩ := switchTo_spec (s := schedLockIrq s) (.yield s.irqsEnabled :: callers) (hq.irqs false)
      hready h.running
    obtain rfl : s' = s₁ := Option.some.inj (hswitch'.symm.trans hswitch)
    refine ⟨?_, (switchTo_wakeTick hswitch).1⟩
    rw [hsw.state, if_neg hne, if_neg (by rw [show (schedLockIrq s).state c = .blocked from hblk]; decide)]
    exact hblk

theorem schedBlockTaskIn_self {D : Set TaskRef} {callers : List Frame} {id : ℕ} (h : Inv D s)
    (hlock : s.schedulerLocked = 0) (hc : s.currentTask = some c) (hid : s.id c ≠ 0) (hfind : schedFind id s = some c)
    (hrun : schedBlockTaskIn callers id s = some s₁) :
    s₁.state c = .blocked ∧ (s₁.tasks c).wakeTick = (s.tasks c).wakeTick := by
  cases schedBlockTaskIn_blocks h hrun with
  | back hno _ =>
    rcases hno c hfind with h0 | hblk
    · exact absurd h0 hid
    · exact absurd hc (h.not_current hblk)
  | @self t s₂ hfind' _ hadd hcore hc₂ hblk hyield =>
    obtain rfl : c = t := Option.some.inj (hfind.symm.trans hfind')
    have hlock₂ : s₂.schedulerLocked = 0 := by
      obtain ⟨nx, hd, rfl⟩ := schedQueueAdd_links hadd
      exact hlock
    have htick : (s₂.tasks c).wakeTick = (s.tasks c).wakeTick :=
      ((Dozes.setState (schedLockIrq s) c .blocked).trans (schedQueueAdd_dozes hadd)).wakeTick
    rw [schedUnlockIrq_eq] at hyield
    obtain ⟨hst, hkeep⟩ := yield_leaves_blocked (hcore.irqs (s.irqsEnabled || s₂.irqsEnabled)) hlock₂ hc₂ hblk hyield
    exact ⟨hst, hkeep.trans htick⟩
  | other hfind' hne _ _ _ =>
    rw [hfind] at hfind'
    cases hfind'
    exact absurd hc hne

theorem schedFind_deadline (s : State) (c : TaskRef) (deadline id : ℕ) :
    schedFind id (s.modTask c fun item => { item with wakeTick := deadline }) = schedFind id s :=
  schedFind_congr (s.modTask_field c (fun item => { item with wakeTick := deadline }) (·.state) fun _ => rfl)
    (s.modTask_field c (fun item => { item with wakeTick := deadline }) (·.id) fun _ => rfl)

theorem schedSleepUntil_asleep (h : Inv ∅ s) (hlock : s.schedulerLocked = 0) (hc : s.currentTask = some c)
    (hid : s.id c ≠ 0) (hfind : schedFind (s.id c) s = some c) :
    ∃ s₁, schedSleepUntil deadline s = some s₁ ∧ Asleep c deadline s₁ := by
  obtain ⟨s₁, hrun, hinv⟩ := schedSleepUntil_inv h deadline
  have hi := h.keep c (f := fun item => { item with wakeTick := deadline }) (fun _ => rfl) (fun _ => rfl) (fun _ => rfl)
  have hid₀ : (s.modTask c fun item => { item with wakeTick := deadline }).id c ≠ 0 := by
    rw [State.modTask_id, if_pos rfl]
    exact hid
  have hbody := hrun
  simp only [schedSleepUntil, hc] at hbody
  rw [if_neg hid] at hbody
  obtain ⟨hblk, htick⟩ := schedBlockTaskIn_self hi hlock hc hid₀ ((schedFind_deadline s c deadline _).trans hfind) hbody
  refine ⟨s₁, hrun, hinv, hblk, htick.trans ?_⟩
  simp [State.modTask]

/-- A caller whose id finds another task runs on. -/
theorem schedSleepUntil_other (h : Inv ∅ s) (hc : s.currentTask = some c) (hid : s.id c ≠ 0)
    (hfind : schedFind (s.id c) s ≠ some c) (hrun : schedSleepUntil deadline s = some s₁) : s₁.state c = .running := by
  -- the rest of `SchedSleepUntil` clears the deadline of the caller
  have hback : ∀ {x : State}, resume [.sleepUntil] x = some s₁ → x.currentTask = some c → x.state c = .running →
      s₁.state c = .running := by
    intro x hres hx hst
    simp only [resume, List.foldlM_cons, List.foldlM_nil, finishFrame, hx] at hres
    cases hres
    rw [State.modTask_state, if_pos rfl]
    exact hst
  have hi := h.keep c (f := fun item => { item with wakeTick := deadline }) (fun _ => rfl) (fun _ => rfl) (fun _ => rfl)
  have hst := hi.running_current hc
  simp only [schedSleepUntil, hc] at hrun
  rw [if_neg hid] at hrun
  cases schedBlockTaskIn_blocks hi hrun with
  | back _ hres => exact hback hres hc hst
  | @self t s₂ hfind' hself =>
    obtain rfl : c = t := Option.some.inj (hc.symm.trans hself)
    exact absurd ((schedFind_deadline s c deadline _).symm.trans hfind') hfind
  | @other t s₂ s₃ _ hne hrem hadd hres =>
    have htc : c ≠ t := fun e => hne (e ▸ hc)
    obtain ⟨nx, hd, rfl⟩ := schedQueueRemove_links hrem
    obtain ⟨nx', hd', rfl⟩ := schedQueueAdd_links hadd
    rw [schedUnlockIrq_eq] at hres
    refine hback hres hc ((setState_state _ t .blocked c).trans ?_)
    rw [if_neg htc]
    exact hst

theorem resume_current {callers : List Frame} (hc : s.currentTask = some c) (hrun : resume callers s = some s₁) :
    s₁.currentTask = some c := by
  induction callers generalizing s with
  | nil =>
    cases hrun
    exact hc
  | cons f fs ih =>
    rw [resume, List.foldlM_cons] at hrun
    obtain ⟨s₂, h1, h2⟩ := Option.bind_eq_some_iff.mp hrun
    refine ih ?_ h2
    cases f with
    | yield was =>
      cases h1
      rw [schedUnlockIrq_eq]
      exact hc
    | blockTask =>
      simp only [finishFrame, hc, unblockSelf] at h1
      split_ifs at h1
      · obtain ⟨s₃, h3, h4⟩ := Option.bind_eq_some_iff.mp h1
        obtain ⟨nx, hd, rfl⟩ := schedQueueRemove_links h3
        cases h4
        rw [schedUnlockIrq_eq]
        exact hc
      · cases h1
        rw [schedUnlockIrq_eq]
        exact hc
    | sleepUntil =>
      simp only [finishFrame, hc] at h1
      cases h1
      exact hc
    | exit =>
      simp only [finishFrame, hc] at h1
      cases h1
      exact hc

/-- A task that `SchedSleepUntil` leaves blocked has its deadline in the descriptor: it has been switched away from, and
what is left of the call waits on its stack. -/
theorem schedSleepUntil_blocked (h : Inv ∅ s) (hc : s.currentTask = some c) (hid : s.id c ≠ 0)
    (hrun : schedSleepUntil deadline s = some s₁) (hblk : s₁.state c = .blocked) : Asleep c deadline s₁ := by
  obtain ⟨s', hrun', hinv⟩ := schedSleepUntil_inv h deadline
  obtain rfl : s' = s₁ := Option.some.inj (hrun'.symm.trans hrun)
  have hgone : ∀ {fs : List Frame} {x : State}, x.currentTask = some c → resume fs x ≠ some s' :=
    fun hx hres => hinv.not_current hblk (resume_current hx hres)
  refine ⟨hinv, hblk, ?_⟩
  have hi := h.keep c (f := fun item => { item with wakeTick := deadline }) (fun _ => rfl) (fun _ => rfl) (fun _ => rfl)
  simp only [schedSleepUntil, hc] at hrun
  rw [if_neg hid] at hrun
  cases schedBlockTaskIn_blocks hi hrun with
  | back _ hres => exact absurd hres (hgone hc)
  | @other t s₂ s₃ _ _ hrem hadd hres =>
    obtain ⟨nx, hd, rfl⟩ := schedQueueRemove_links hrem
    obtain ⟨nx', hd', rfl⟩ := schedQueueAdd_links hadd
    rw [schedUnlockIrq_eq] at hres
    exact absurd hres (hgone hc)
  | @self t s₂ _ hself hadd hcore hc₂ _ hyield =>
    obtain rfl : c = t := Option.some.inj (hc.symm.trans hself)
    have htick : (s₂.tasks c).wakeTick = deadline := by
      rw [((Dozes.setState _ c .blocked).trans (schedQueueAdd_dozes hadd)).wakeTick]
      simp [State.modTask, schedLockIrq]
    rw [schedUnlockIrq_eq] at hyield
    obtain ⟨L, hq⟩ := hcore.queues
    rcases schedYieldIn_outcome (hq.irqs _) hyield with ⟨hres, -⟩ | ⟨nxt, -, hswitch⟩
    · exact absurd hres (hgone hc₂)
    · exact (switchTo_wakeTick hswitch).1.trans htick

theorem tickCurrent_state (t : TaskRef) (s : State) : (tickCurrent t s).state = s.state := by
  have h1 : (s.modTask t ticked).state = s.state := s.modTask_field t ticked (·.state) fun _ => rfl
  have h2 := (s.modTask t ticked).modTask_field t (fun item => { item with timeUsed := 0 }) (·.state) fun _ => rfl
  simp only [tickCurrent]
  split_ifs
  · exact Eq.trans h2 h1
  · exact h1

theorem schedTick_state (regs : Bool) (s : State) : (schedTick regs s).state = s.state := by
  unfold schedTick
  split_ifs
  · rfl
  · simp only
    split
    · rfl
    · rw [tickCurrent_state]
      rfl

theorem Asleep.schedTick (h : Asleep c deadline s) (regs : Bool) : Asleep c deadline (schedTick regs s) := by
  refine h.leads (.tail (e := .call (.tick regs)) .refl ⟨(nomatch ·), fun s' hs' => ?_⟩ rfl)
  cases hs'
  rw [schedTick_state]
  exact h.blocked

/-- A task that calls `SchedSleepUntil` sleeps until the deadline unless the deadline is 0, or the id of the task
finds another one. -/
theorem schedSleepUntil_sleeps_iff (hp : Partition s) (hlock : s.schedulerLocked = 0) (hc : s.currentTask = some c)
    (hid : s.id c ≠ 0) (deadline : ℕ) :
    (∃ s₁, schedSleepUntil deadline s = some s₁ ∧ SleepsUntil c deadline s₁) ↔
      deadline ≠ 0 ∧ schedFind (s.id c) s = some c := by
  have h : Inv ∅ s := hp.inv (by simp)
  constructor
  · rintro ⟨s₁, hrun, hs⟩
    have hfind : schedFind (s.id c) s = some c := by
      by_contra hno
      have hblk := hs.blocked
      rw [schedSleepUntil_other h hc hid hno hrun] at hblk
      cases hblk
    refine ⟨?_, hfind⟩
    rintro rfl
    obtain ⟨s', hrun', hasleep⟩ := schedSleepUntil_asleep h hlock hc hid hfind
    obtain rfl : s' = s₁ := Option.some.inj (hrun'.symm.trans hrun)
    exact hasleep.not_sleepsUntil hs
  · rintro ⟨h0, hfind⟩
    obtain ⟨s₁, hrun, hasleep⟩ := schedSleepUntil_asleep h hlock hc hid hfind
    exact ⟨s₁, hrun, hasleep.sleepsUntil h0⟩

theorem exists_running_task : ∃ s, system.ReachableIf LeavesUnlocked s ∧ Partition s ∧ s.schedulerLocked = 0 ∧
    s.currentTask = some 1 ∧ s.id 1 ≠ 0 ∧ s.state idleRef = .ready ∧ schedFind (s.id 1) s = some 1 := by
  obtain ⟨s, -, hs, ht⟩ := System.exists_reachableIf LeavesUnlocked system_init ([createTask, .yield].map .call)
    (fun s => s.schedulerLocked = 0 ∧ s.currentTask = some 1 ∧ s.id 1 ≠ 0 ∧ s.state idleRef = .ready ∧
      schedFind (s.id 1) s = some 1) (by decide +kernel)
  exact ⟨s, hs, (reachable_inv hs).partition, of_decide_eq_true ht⟩

theorem schedSleepUntil_sleeps_five : ∃ s s₁, system.ReachableIf LeavesUnlocked s ∧ s.currentTask = some 1 ∧
    schedSleepUntil 5 s = some s₁ ∧ SleepsUntil 1 5 s₁ := by
  obtain ⟨s, hs, hp, hlock, hc, hid, -, hfind⟩ := exists_running_task
  obtain ⟨s₁, hrun, hsleeps⟩ := (schedSleepUntil_sleeps_iff hp hlock hc hid 5).mpr ⟨by decide, hfind⟩
  exact ⟨s, s₁, hs, hc, hrun, hsleeps⟩

/-- A task that sleeps until the tick counter has wrapped around to 0 is never woken. -/
theorem schedSleepUntil_zero : ∃ s, system.ReachableIf LeavesUnlocked s ∧ s.schedulerLocked = 0 ∧
    s.currentTask = some 1 ∧ s.id 1 ≠ 0 ∧ s.state idleRef = .ready ∧
    ¬∃ s₁, schedSleepUntil 0 s = some s₁ ∧ SleepsUntil 1 0 s₁ := by
  obtain ⟨s, hs, hp, hlock, hc, hid, hidle, hfind⟩ := exists_running_task
  refine ⟨s, hs, hlock, hc, hid, hidle, ?_⟩
  rintro ⟨s₁, hrun, hsleeps⟩
  obtain ⟨s', hrun', hasleep⟩ := schedSleepUntil_asleep (hp.inv (by simp)) hlock hc hid hfind
  obtain rfl : s' = s₁ := Option.some.inj (hrun'.symm.trans hrun)
  exact hasleep.not_sleepsUntil hsleeps

end Novium.Sched
