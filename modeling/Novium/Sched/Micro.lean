import Novium.Sched.Census

/-! What the scheduler writes, piece by piece. A tick and a birth apart, every event is a chain
of a few kinds of small writes, so what each kind keeps is kept by every event and every run. -/

namespace Novium.Sched

open Novium.Lib Relation

/-- The small writes: links and heads, single fields of a descriptor, the choice of a task, a burial, and the
variables outside the table that nobody counts with. None of them revives a dead descriptor. -/
inductive Micro (s : State) : State → Prop where
  | links (nx : TaskRef → Option TaskRef) (hd : Queue → Option TaskRef) : Micro s (s.setLinks nx hd)
  | mark {t : TaskRef} {st : TaskState} : s.state t ≠ .dead → st ≠ .dead → Micro s (s.setState t st)
  | stamp (t : TaskRef) (wakeTick : ℕ) : Micro s (s.modTask t fun item => { item with wakeTick := wakeTick })
  | weigh (t : TaskRef) {priority : ℕ} : priority ≤ 255 →
      Micro s (s.modTask t fun item => { item with priority := priority })
  | save (t : TaskRef) (esp : ℕ) : Micro s (s.modTask t fun item => { item with esp := esp })
  | elect {t : TaskRef} : s.state t ≠ .dead → Micro s (makeCurrent t s)
  | reset (t : TaskRef) : Micro s (schedResetTask t s)
  | other {s' : State} : s'.tasks = s.tasks → s'.schedulerTicks = s.schedulerTicks → Micro s s'

abbrev Micros : State → State → Prop := ReflTransGen Micro

theorem Micros.invariant {P : State → Prop} (hstep : ∀ s s', Micro s s' → P s → P s') {s s' : State}
    (h : Micros s s') (hs : P s) : P s' := by
  induction h with
  | refl => exact hs
  | tail _ hm ih => exact hstep _ _ hm ih

section

variable {D : Set TaskRef} {s s' : State}

theorem micros_other (ht : s'.tasks = s.tasks) (hk : s'.schedulerTicks = s.schedulerTicks) : Micros s s' :=
  .single (.other ht hk)

theorem micros_lockIrq (s : State) : Micros s (schedLockIrq s) := micros_other rfl rfl

theorem micros_unlockIrq (was : Bool) (s : State) : Micros s (schedUnlockIrq was s) := by
  rw [schedUnlockIrq_eq]
  exact micros_other rfl rfl

theorem micros_setNext (s : State) (t : TaskRef) (n : Option TaskRef) : Micros s (s.setNext t n) := by
  rw [State.setNext_eq_setLinks]
  exact .single (.links _ _)

theorem micros_setHead (s : State) (q : Queue) (h : Option TaskRef) : Micros s (s.setHead q h) := by
  rw [State.setHead_eq_setLinks]
  exact .single (.links _ _)

theorem schedQueueAdd_micros {q : Queue} {t : TaskRef} (h : schedQueueAdd q t s = some s') : Micros s s' := by
  have h0 := micros_setNext s t none
  unfold schedQueueAdd at h
  simp only at h
  split at h
  · cases h
    exact h0.trans (micros_setHead _ q _)
  · obtain ⟨last, -, rfl⟩ := Option.map_eq_some_iff.mp h
    exact h0.trans (micros_setNext _ last _)

theorem queueUnlink_micros (q : Queue) (prev : Option TaskRef) (cur : TaskRef) (s : State) :
    Micros s (queueUnlink q prev cur s) := by
  unfold queueUnlink
  cases prev with
  | none => exact (micros_setHead s q _).trans (micros_setNext _ cur _)
  | some p => exact (micros_setNext s p _).trans (micros_setNext _ cur _)

theorem schedQueueRemove_micros {q : Queue} {t : TaskRef} (h : schedQueueRemove q t s = some s') : Micros s s' := by
  have hloop : ∀ n prev cur, queueRemoveLoop q t s n prev cur = some s' → Micros s s' := by
    intro n
    induction n with
    | zero => exact fun prev cur h => nomatch h
    | succ n ih =>
      intro prev cur h
      cases cur with
      | none =>
        obtain rfl : s = s' := Option.some.inj h
        exact .refl
      | some c =>
        rw [queueRemoveLoop] at h
        split_ifs at h
        · cases h
          exact queueUnlink_micros q prev c s
        · exact ih _ _ h
  exact hloop _ _ _ h

theorem move_micros {q q' : Queue} {t : TaskRef} {st : TaskState} {s₁ : State} (ht : s.state t ≠ .dead)
    (hst : st ≠ .dead) (h1 : schedQueueRemove q t s = some s₁)
    (h2 : schedQueueAdd q' t (s₁.setState t st) = some s') : Micros s s' := by
  have hlive : s₁.state t ≠ .dead := (schedQueueRemove_same h1).live ht
  exact ((schedQueueRemove_micros h1).tail (.mark hlive hst)).trans (schedQueueAdd_micros h2)

theorem unblockSelf_micros {t : TaskRef} (h : unblockSelf t s = some s') : Micros s s' := by
  have h0 := micros_lockIrq s
  unfold unblockSelf at h
  simp only at h
  split_ifs at h with hblk
  · obtain ⟨s₁, h1, h2⟩ := Option.bind_eq_some_iff.mp h
    cases h2
    have hlive : s₁.state t ≠ .dead := (schedQueueRemove_same h1).live (by rw [hblk]; decide)
    have hmark := (h0.trans (schedQueueRemove_micros h1)).tail (.mark hlive (show TaskState.running ≠ .dead by decide))
    exact hmark.trans (micros_unlockIrq _ _)
  · cases h
    exact h0.trans (micros_unlockIrq _ _)

theorem finishFrame_micros {f : Frame} (h0 : s.state 0 ≠ .dead) (h : finishFrame s f = some s') : Micros s s' := by
  cases f with
  | yield was =>
    cases h
    exact micros_unlockIrq was s
  | blockTask =>
    simp only [finishFrame] at h
    split at h
    · cases h
      exact .refl
    · exact unblockSelf_micros h
  | sleepUntil =>
    simp only [finishFrame] at h
    split at h
    · cases h
      exact .refl
    · cases h
      exact .single (.stamp _ 0)
  | exit =>
    simp only [finishFrame] at h
    split at h
    · cases h
      have hidle : Micros s (s.setState 0 .running) := .single (.mark h0 (by decide))
      exact hidle.trans (micros_other rfl rfl)
    · cases h
      exact .refl

theorem resume_micros {callers : List Frame} (h0 : s.state 0 ≠ .dead) (h : resume callers s = some s') :
    Micros s s' := by
  induction callers generalizing s with
  | nil =>
    cases h
    exact .refl
  | cons f fs ih =>
    rw [resume, List.foldlM_cons] at h
    obtain ⟨s₁, h1, h2⟩ := Option.bind_eq_some_iff.mp h
    exact (finishFrame_micros h0 h1).trans (ih ((finishFrame_same h0 h1).live h0) h2)

theorem requeue_micros {prev : Option TaskRef} (h : requeue prev s = some s') : Micros s s' := by
  unfold requeue at h
  split at h
  · cases h
    exact .refl
  next p =>
    split_ifs at h with hp
    · exact (ReflTransGen.single (.mark (by rw [hp]; decide) (show TaskState.ready ≠ .dead by decide))).trans
        (schedQueueAdd_micros h)
    · cases h
      exact .refl

theorem schedSwitch_micros (prev : Option TaskRef) (frames : List Frame) (nxt : TaskRef) (s : State) :
    Micros s (schedSwitch prev frames nxt s) := by
  unfold schedSwitch
  cases prev with
  | none => exact micros_other rfl rfl
  | some p =>
    have hsave : Micros s (s.modTask p fun item => { item with esp := s.cpuEsp }) := .single (.save p s.cpuEsp)
    exact hsave.trans (micros_other rfl rfl)

theorem switchTo_micros {frames : List Frame} {nxt : TaskRef} (hn : s.state nxt ≠ .dead)
    (h : switchTo frames nxt s = some s') : Micros s s' := by
  unfold switchTo at h
  obtain ⟨s₁, h1, h⟩ := Option.bind_eq_some_iff.mp h
  obtain ⟨s₂, h2, h⟩ := Option.bind_eq_some_iff.mp h
  cases h
  have hlive := ((schedQueueRemove_same h1).trans (requeue_same h2)).live hn
  exact (((schedQueueRemove_micros h1).trans (requeue_micros h2)).tail (.elect hlive)).trans
    (schedSwitch_micros _ _ _ _)

theorem Core.idle_live (h : Core D s) : s.state 0 ≠ .dead := by
  rcases h.idle with hi | hi <;> rw [hi] <;> decide

theorem schedYieldIn_micros {callers : List Frame} {L : Queue → List TaskRef} (hq : Queues D s L)
    (h0 : s.state 0 ≠ .dead) (h : schedYieldIn callers s = some s') : Micros s s' := by
  obtain ⟨hback, -⟩ | ⟨nxt, hmem, hswitch⟩ := schedYieldIn_outcome hq h
  · exact resume_micros h0 hback
  · have hready : (schedLockIrq s).state nxt = .ready := hq.mem nxt (by simp) .ready hmem
    exact (micros_lockIrq s).trans (switchTo_micros (by rw [hready]; decide) hswitch)

theorem Core.yield_micros {callers : List Frame} (hcore : Core D s) (h : schedYieldIn callers s = some s') :
    Micros s s' := by
  obtain ⟨L, hq⟩ := hcore.queues
  exact schedYieldIn_micros hq hcore.idle_live h

theorem schedPreempt_micros (hi : Inv D s) (h : schedPreempt s = some s') : Micros s s' := by
  unfold schedPreempt at h
  split_ifs at h
  · cases h
    exact .refl
  · cases h
    exact .refl
  · have hp : Micros s { s with preemptPending := false } := micros_other rfl rfl
    have hcore : Core D { s with preemptPending := false } := hi.toCore.congr rfl rfl rfl rfl rfl
    exact hp.trans (hcore.yield_micros h)

theorem schedBlockTaskIn_micros {callers : List Frame} {id : ℕ} (hi : Inv D s)
    (h : schedBlockTaskIn callers id s = some s') : Micros s s' := by
  have h0 := micros_lockIrq s
  have hblocked : TaskState.blocked ≠ .dead := by decide
  cases schedBlockTaskIn_blocks hi h with
  | back _ hback => exact resume_micros hi.idle_live hback
  | self hfind _ hadd hcore _ _ hyield =>
    have hlive : (schedLockIrq s).state _ ≠ .dead := (schedFind_some hfind).1
    exact ((h0.tail (.mark hlive hblocked)).trans (schedQueueAdd_micros hadd)).trans
      ((micros_unlockIrq _ _).trans ((hcore.unlockIrq _).yield_micros hyield))
  | other hfind _ hrem hadd hback =>
    have hlive := (schedFind_some hfind).1
    have hsame := (SameTasks.lockIrq s).trans ((schedQueueRemove_same hrem).trans
      ((SameTasks.setState _ ((schedQueueRemove_same hrem).live hlive) hblocked).trans (schedQueueAdd_same hadd)))
    have hidle := (hsame.trans (.unlockIrq s.irqsEnabled _)).live hi.idle_live
    exact (h0.trans (move_micros hlive hblocked hrem hadd)).trans
      ((micros_unlockIrq _ _).trans (resume_micros hidle hback))

theorem schedUnblock_micros {item : Option TaskRef} (h : schedUnblock item s = some s') : Micros s s' := by
  obtain rfl | ⟨t, s₁, s₂, hblk, h1, h2, rfl⟩ := schedUnblock_outcome h
  · exact .refl
  · have hlive : (schedLockIrq s).state t ≠ .dead := by
      rw [show (schedLockIrq s).state t = .blocked from hblk]
      decide
    exact (micros_lockIrq s).trans ((move_micros hlive (by decide) h1 h2).trans (micros_unlockIrq _ _))

theorem wakeOne_micros {t : TaskRef} (ht : s.state t ≠ .dead) (h : wakeOne t s = some s') : Micros s s' := by
  unfold wakeOne at h
  obtain ⟨s₁, h1, h2⟩ := Option.bind_eq_some_iff.mp h
  have hlive : (s.modTask t fun item => { item with wakeTick := 0 }).state t ≠ .dead := by
    rw [State.modTask_state, if_pos rfl]
    exact ht
  exact (ReflTransGen.single (.stamp t 0)).trans (move_micros hlive (by decide) h1 h2)

theorem wakeLoop_micros {nowTick n woken w : ℕ} {l : List TaskRef} (pre : List TaskRef) {L : Queue → List TaskRef} (hi : Inv D s)
    (hq : Queues D s L) (hL : L .blocked = pre ++ l) (h : wakeLoop nowTick n l.head? woken s = some (s', w)) :
    Micros s s' := by
  induction l generalizing s n woken pre L with
  | nil =>
    cases n with
    | zero => cases h
    | succ n =>
      cases h
      exact .refl
  | cons t l ih =>
    cases n with
    | zero => cases h
    | succ n =>
      have hchain := hq.chains .blocked
      rw [hL] at hchain
      have hnext : s.next t = l.head? := linked_next_eq_head? hchain
      simp only [List.head?_cons, wakeLoop, hnext] at h
      split_ifs at h
      · obtain ⟨s₁, L₁, h1, hi₁, hq₁, hL₁⟩ := wakeOne_spec hi hq (t := t) (by simp [hL])
        have hblk : s.state t = .blocked := hq.mem t (by simp) .blocked (by simp [hL])
        rw [h1] at h
        have hpre : t ∉ pre := fun hin => List.disjoint_of_nodup_append hchain.nodup hin (by simp)
        rw [hL, List.erase_append_right _ hpre, List.erase_cons_head] at hL₁
        exact (wakeOne_micros (by rw [hblk]; decide) h1).trans (ih pre hi₁ hq₁ hL₁ h)
      · exact ih (pre ++ [t]) hi hq (by simpa using hL) h

theorem schedWakeExpired_micros {nowTick w : ℕ} (hi : Inv D s) (h : schedWakeExpired nowTick s = some (s', w)) :
    Micros s s' := by
  obtain ⟨⟨s₁, k⟩, h1, h2⟩ := Option.bind_eq_some_iff.mp h
  cases h2
  have hi' : Inv D (schedLockIrq s) := hi.irqs false
  obtain ⟨L, hq⟩ := hi'.queues
  have hhead : s.blockedQueue = (L .blocked).head? := (hq.chains .blocked).head_eq
  rw [hhead] at h1
  exact (micros_lockIrq s).trans ((wakeLoop_micros [] hi' hq rfl h1).trans (micros_unlockIrq _ _))

theorem bury_micros {t : TaskRef} (h : bury t s = some s') : Micros s s' := by
  unfold bury at h
  obtain ⟨s₁, h1, h⟩ := Option.bind_eq_some_iff.mp h
  obtain ⟨s₂, h2, h⟩ := Option.bind_eq_some_iff.mp h
  obtain ⟨s₃, h3, h⟩ := Option.bind_eq_some_iff.mp h
  cases h
  have hoff := (schedQueueRemove_micros h1).trans (schedQueueRemove_micros h2)
  rw [dropCount_eq]
  exact (((hoff.tail (.reset t)).trans (schedQueueAdd_micros h3)).trans (micros_other rfl rfl))

theorem schedExit_micros (hi : Inv D s) (h : schedExit s = some s') : Micros s s' := by
  obtain ⟨c, hc, hrun⟩ := hi.current
  simp only [schedExit, hc] at h
  split_ifs at h with h0
  · cases h
    exact .refl
  · obtain ⟨s₁, h1, h⟩ := Option.bind_eq_some_iff.mp h
    obtain ⟨L, hq⟩ := (hi.irqs false).queues
    have hlive : (schedLockIrq s).state c ≠ .dead := by
      rw [show (schedLockIrq s).state c = .running from hrun]
      decide
    obtain ⟨s₁', L', h1', hq', -, hst, -⟩ := bury_spec (s := schedLockIrq s) hq hlive
    obtain rfl : s₁ = s₁' := Option.some.inj (h1.symm.trans h1')
    have hidle : s₁.state 0 ≠ .dead := by
      rw [hst, if_neg fun e => h0 (by rw [← e]; exact hi.idleId)]
      exact hi.idle_live
    rw [schedUnlockIrq_eq] at h
    have hgone := (micros_lockIrq s).trans (bury_micros h1)
    have hleft : Micros s₁ { { s₁ with currentTask := none } with irqsEnabled := s.irqsEnabled || s₁.irqsEnabled } :=
      micros_other rfl rfl
    exact (hgone.trans hleft).trans (schedYieldIn_micros (hq'.congr rfl rfl rfl) hidle h)

theorem schedKill_micros {id : ℕ} (hi : Inv D s) (h : schedKill id s = some s') : Micros s s' := by
  obtain rfl | hexit | ⟨t, s₁, -, -, h1, rfl⟩ := schedKill_outcome h
  · exact .refl
  · exact schedExit_micros hi hexit
  · exact (micros_lockIrq s).trans ((bury_micros h1).trans (micros_unlockIrq _ _))

theorem schedSetPriority_micros (item : Option TaskRef) (priority : ℕ) (s : State) :
    Micros s (schedSetPriority item priority s) := by
  unfold schedSetPriority
  split
  · exact .refl
  · split_ifs with hdead hbig
    · exact .refl
    · exact .single (.weigh _ le_rfl)
    · exact .single (.weigh _ (not_lt.mp hbig))

end

/-- What an event writes: small writes, or a tick of the task that runs, or a task in a dead descriptor. -/
inductive Written (s : State) : State → Prop where
  | small {s' : State} : Micros s s' → Written s s'
  | tick {c : TaskRef} : s.currentTask = some c → s.state c = .running →
      Written s (tickCurrent c { s with schedulerTicks := u32 (s.schedulerTicks + 1) })
  | birth {t : TaskRef} {s₁ s' : State} (name : ℕ → UInt8) (eip esp : ℕ) : Micros s s₁ → s.state t = .dead →
      s₁.state t = .dead → Micros (describeTask t name eip esp s₁) s' → Written s s'

theorem schedTick_written {D : Set TaskRef} {s : State} (hi : Inv D s) (regs : Bool) : Written s (schedTick regs s) := by
  obtain ⟨c, hc, hrun⟩ := hi.current
  unfold schedTick
  split_ifs with hskip
  · exact .small .refl
  · simp only
    split
    next hn =>
      rw [hc] at hn
      cases hn
    next c' hc' =>
      obtain rfl : c = c' := Option.some.inj (hc.symm.trans hc')
      exact .tick hc hrun

theorem schedCreate_written {name : Option (ℕ → UInt8)} {eip esp : ℕ} {s s' : State} {r : Option TaskRef}
    (h : schedCreate name eip esp s = some (s', r)) : Written s s' := by
  obtain ⟨rfl, -⟩ | ⟨label, t, s₁, s₂, -, hdead, h1, h2, rfl⟩ := schedCreate_outcome h
  · exact .small .refl
  · have hdead₁ : s₁.state t = .dead := (schedQueueRemove_same h1).dead t |>.mpr hdead
    have hcount : Micros s₂ { s₂ with taskCountValue := u32 (s₂.taskCountValue + 1) } := micros_other rfl rfl
    exact .birth label eip esp ((micros_lockIrq s).trans (schedQueueRemove_micros h1)) hdead hdead₁
      ((schedQueueAdd_micros h2).trans (hcount.trans (micros_unlockIrq _ _)))

theorem call_written {D : Set TaskRef} {s s' : State} {call : Call} (hi : Inv D s) (h : call.run s = some s') :
    Written s s' := by
  obtain ⟨c, hc, -⟩ := hi.current
  cases call with
  | create name eip esp =>
    obtain ⟨⟨s₁, r⟩, h1, rfl⟩ := Option.map_eq_some_iff.mp h
    exact schedCreate_written h1
  | tick regs =>
    cases h
    exact schedTick_written hi regs
  | yield => exact .small (hi.toCore.yield_micros h)
  | preempt => exact .small (schedPreempt_micros hi h)
  | block =>
    rw [Call.run, schedBlock, hc] at h
    simp only at h
    split_ifs at h
    · cases h
      exact .small .refl
    · exact .small (schedBlockTaskIn_micros hi h)
  | blockTask id => exact .small (schedBlockTaskIn_micros hi h)
  | unblock item => exact .small (schedUnblock_micros h)
  | wakeTask id =>
    rw [Call.run, schedWakeTask] at h
    split at h
    · cases h
      exact .small .refl
    · exact .small (schedUnblock_micros h)
  | sleepUntil wakeTick =>
    rw [Call.run, schedSleepUntil, hc] at h
    simp only at h
    split_ifs at h
    · cases h
      exact .small .refl
    · have hi' := hi.keep c (f := fun item => { item with wakeTick := wakeTick }) (fun _ => rfl) (fun _ => rfl) fun _ => rfl
      exact .small ((ReflTransGen.single (.stamp c wakeTick)).trans (schedBlockTaskIn_micros hi' h))
  | wakeExpired nowTick =>
    obtain ⟨⟨s₁, w⟩, h1, rfl⟩ := Option.map_eq_some_iff.mp h
    exact .small (schedWakeExpired_micros hi h1)
  | kill id => exact .small (schedKill_micros hi h)
  | exit => exact .small (schedExit_micros hi h)
  | setPolicy policy =>
    cases h
    unfold schedSetPolicy
    split <;> exact .small (micros_other rfl rfl)
  | setPriority item priority =>
    cases h
    exact .small (schedSetPriority_micros item priority s)
  | lock =>
    cases h
    exact .small (micros_other rfl rfl)
  | unlock =>
    cases h
    unfold schedUnlock
    split_ifs
    · exact .small (micros_other rfl rfl)
    · exact .small .refl

/-- The rule of what is written: every event is small writes, a tick or a birth. -/
theorem next_written {D : Set TaskRef} {s s' : State} {e : Event} (hi : Inv D s) (h : system.next s e = some s') :
    Written s s' := by
  cases e with
  | call call => exact call_written hi h
  | finish =>
    obtain ⟨c, hc, -⟩ := hi.current
    simp only [system, finish, hc] at h
    split at h
    · cases h
    next f fs _ =>
      have hframes : Micros s (s.setFrames c fs) := micros_other rfl rfl
      exact .small (hframes.trans (finishFrame_micros hi.idle_live h))

end Novium.Sched
