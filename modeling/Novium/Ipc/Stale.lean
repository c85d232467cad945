import Novium.Ipc.SemWake
import Novium.Ipc.HandOff
import Novium.Ipc.PortLife

/-! Entries of killed tasks. They stay on a wait queue until some `IpcWaitTakeLive` finds
no live entry at all, and until then they count: a queue with such entries is reported
full, or a port busy, with fewer tasks parked on it than the status says. -/

namespace Novium.Ipc

open Novium.Lib

section Queues

variable {O L C : Type} {M : Code O L C} {w w' : World O L} {q : IpcWait} {asleep : L → Bool}

/-- The live tasks that are on the queue, behind the `SchedBlock` of their `IpcPark`. -/
def parkedOn (w : World O L) (q : IpcWait) (asleep : L → Bool) : Finset ℕ :=
  (Finset.range w.tasks.nextId).filter fun x => w.tasks.live x = true ∧ x ∈ q ∧ asleep (w.loc x) = true

/-- No entry is that of a killed task. -/
def NoneStale (w : World O L) (q : IpcWait) : Prop := ∀ x ∈ q, w.tasks.live x = true

def entries (q : IpcWait) : Finset ℕ := (Finset.range q.count).image q.ids

theorem mem_entries {x : ℕ} : x ∈ entries q ↔ x ∈ q := by
  simp only [entries, Finset.mem_image, Finset.mem_range]
  exact Iff.rfl

theorem card_entries (h : WellFormed q) : (entries q).card = q.count := by
  rw [entries, Finset.card_image_of_injOn, Finset.card_range]
  intro i hi j hj hij
  exact h.distinct i (Finset.mem_range.mp hi) j (Finset.mem_range.mp hj) hij

theorem parkedOn_eq (hf : M.Fresh w) (hasleep : ∀ x ∈ q, asleep (w.loc x) = true) :
    parkedOn w q asleep = (entries q).filter fun x => w.tasks.live x = true := by
  ext x
  rw [parkedOn, Finset.mem_filter, Finset.mem_filter, Finset.mem_range, mem_entries]
  constructor
  · rintro ⟨-, hlive, hin, -⟩
    exact ⟨hin, hlive⟩
  · rintro ⟨hin, hlive⟩
    exact ⟨Code.live_lt hf hlive, hlive, hin, hasleep x hin⟩

theorem refused_full {self : ℕ} {ready : Bool} (h : (ipcPark self ready q .check).2.1 = .inr .errFull) :
    ipcMaxWaiters ≤ q.count := by
  by_contra hroom
  obtain ⟨q', hadd⟩ := ipcWaitAdd_room self (Nat.lt_of_not_le hroom)
  simp only [ipcPark, hadd] at h
  split_ifs at h <;> cases h

/-- `IpcErrFull` is returned only when all slots are taken by live tasks. -/
def FullHonest (w : World O L) (q : IpcWait) (asleep : L → Bool) : Prop :=
  ∀ self ready, (ipcPark self ready q .check).2.1 = .inr .errFull → (parkedOn w q asleep).card = ipcMaxWaiters

/-- It is so exactly if there is no stale entry. -/
def FullExact (w : World O L) (q : IpcWait) (asleep : L → Bool) : Prop :=
  ∀ self ready, (ipcPark self ready q .check).2.1 = .inr .errFull →
    ((parkedOn w q asleep).card = ipcMaxWaiters ↔ NoneStale w q)

theorem fullExact (hf : M.Fresh w) (hwf : WellFormed q) (hasleep : ∀ x ∈ q, asleep (w.loc x) = true) :
    FullExact w q asleep := by
  intro self ready hfull
  have hcount : q.count = ipcMaxWaiters := le_antisymm hwf.bound (refused_full hfull)
  rw [parkedOn_eq hf hasleep, ← hcount, ← card_entries hwf, Finset.card_filter_eq_iff]
  exact ⟨fun h x hx => h x (mem_entries.mpr hx), fun h x hx => h x (mem_entries.mp hx)⟩

theorem FullExact.honest (h : FullExact w q asleep) (hnone : NoneStale w q) : FullHonest w q asleep :=
  fun self ready hfull => (h self ready hfull).mpr hnone

theorem parkedOn_nonempty (hf : M.Fresh w) (hasleep : ∀ x ∈ q, asleep (w.loc x) = true) :
    (parkedOn w q asleep).Nonempty ↔ ∃ x ∈ q, w.tasks.live x = true := by
  rw [parkedOn_eq hf hasleep]
  constructor
  · rintro ⟨x, hx⟩
    obtain ⟨hin, hlive⟩ := Finset.mem_filter.mp hx
    exact ⟨x, mem_entries.mp hin, hlive⟩
  · rintro ⟨x, hin, hlive⟩
    exact ⟨x, Finset.mem_filter.mpr ⟨mem_entries.mpr hin, hlive⟩⟩

namespace QueueView

variable {v : QueueView O L} {good : O → L → Prop}

/-- No kill hits a task that is on the queue. -/
def SparesQueued (v : QueueView O L) (w : World O L) : Event C → Prop
  | .kill id => id ∉ v.queue w.obj
  | _ => True

instance (v : QueueView O L) (w : World O L) : (e : Event C) → Decidable (v.SparesQueued w e)
  | .kill _ => inferInstanceAs (Decidable (¬_))
  | .call _ _ | .step _ | .undo _ | .create => .isTrue trivial

theorem noneStale_next (hv : v.Lawful M good) (hgood : ∀ id, good w.obj (w.loc id)) (hseat : v.Seated w)
    {e : Event C} (h : NoneStale w (v.queue w.obj)) (hok : v.SparesQueued w e) (hn : M.next w e = some w') :
    NoneStale w' (v.queue w'.obj) := by
  rcases Code.next_cases hn with ⟨id, c, l, -, -, hs, rfl⟩ | ⟨self, o, l, eff, -, hrun, hs, rfl⟩ | ⟨id, -, rfl⟩ |
    ⟨id, rfl, rfl⟩ | ⟨-, rfl⟩
  · exact h
  · intro x hx
    rw [Effect.apply_live hrun]
    rcases (step_mem hseat.wellFormed (hv.step (hgood self) hs)).2 x hx with ⟨hin, -⟩ | ⟨rfl, -⟩
    · exact h x hin
    · exact Tasks.live_iff.mpr (by simp [hrun])
  · intro x hx
    rw [Tasks.wake_live]
    exact h x hx
  · intro x hx
    have hne : x ≠ id := fun he => hok (he ▸ hx)
    rw [Tasks.kill_live, if_neg fun he => hne he.1]
    exact h x hx
  · intro x hx
    rw [Tasks.create_live]
    split_ifs
    · rfl
    · exact h x hx

theorem noneStale {init : O → Prop} {ok : World O L → Event C → Prop} (hv : v.Lawful M good)
    (hinit : ∀ o, init o → v.queue o = emptyWait)
    (hgood : ∀ w, (M.system init).ReachableIf ok w → ∀ id, good w.obj (w.loc id))
    (hok : ∀ w e, ok w e → v.SparesQueued w e) (h : (M.system init).ReachableIf ok w) :
    NoneStale w (v.queue w.obj) := by
  refine h.invariantFrom (J := fun w => (∀ id, good w.obj (w.loc id)) ∧ v.Seated w)
    (fun w hr => ⟨hgood w hr, seated hv hinit hgood hr⟩) ?_
    fun _ _ _ hJ hi he hn => noneStale_next hv hJ.1 hJ.2 hi (hok _ _ he) hn
  rintro w ⟨o, ho, rfl⟩ x hx
  have hx' : x ∈ v.queue o := hx
  rw [hinit o ho] at hx'
  exact absurd hx' (notMem_empty x)

end QueueView

end Queues

/-- The call is behind the `SchedBlock` of its `IpcPark` at this side. -/
def PortNext.asleep (s : PortSide) (op : PortOp) : PortNext → Bool
  | .inl (.park .woken) => op.side = s
  | _ => false

/-- Before the first create the memory of the port holds no queue yet. -/
def lifeView (s : PortSide) : QueueView LifeObj LifeLoc where
  queue o := if o.phase = .raw then emptyWait else s.queue o.base.port
  asleep l := l.life.isNone && l.port.cur.any fun c => PortNext.asleep s c.1 (.inl c.2)

/-- Before the first create nobody is past its tests. -/
def Untested (o : LifeObj) (l : LifeLoc) : Prop :=
  o.phase = .raw → ipcPortIsCreated o.base.port = false ∧ l.life ≠ some .destroy ∧
    ∀ op pc, l.port.cur = some (op, pc) → pc = .test ∨ pc = .tryTest

section

variable {live : ℕ → Bool} {call : ℕ × ℕ} {o o' : PortObj} {op : PortOp} {pc : PortPc} {n : PortNext} {eff : Effect}
  (s : PortSide)

theorem asleep_afterPark (hs : op.side = s) (r : ParkPc ⊕ IpcStatus) :
    PortNext.asleep s op (afterPark r) = decide (r = .inl .woken) := by
  rcases afterPark_cases r with ⟨p, rfl, ha⟩ | ⟨rfl, ha⟩ | ⟨st, rfl, -, ha⟩
  · rw [ha]
    cases p <;> simp [PortNext.asleep, hs]
  · rw [ha]
    rfl
  · rw [ha]
    rfl

theorem asleep_across (hs : op.side ≠ s) (n : PortNext) : PortNext.asleep s op n = false := by
  unfold PortNext.asleep
  split
  · exact decide_eq_false hs
  · rfl

theorem PortMove.queueStep (hm : PortMove live call o op pc o' n eff) :
    QueueStep live call.1 (s.queue o.port) (PortNext.asleep s op (.inl pc)) (s.queue o'.port) (PortNext.asleep s op n) := by
  cases hm with
  | reject hat => rcases hat with rfl | rfl <;> exact .same
  | pass | enter | wait | giveUp => exact .same
  | push =>
    rw [PortSide.push_queue]
    exact .same
  | pop =>
    rw [PortSide.pop_queue]
    exact .same
  | park p =>
    by_cases hs : op.side = s
    · have hp : PortNext.asleep s op (.inl (.park p)) = decide (p = .woken) := by
        cases p <;> simp [PortNext.asleep, hs]
      rw [asleep_afterPark s hs, hp, hs, PortSide.setQueue_queue]
      exact queueStep_park live call.1 (s.ready o.port) (s.queue o.port) p
    · rw [asleep_across s hs, PortSide.setQueue_queue_of_ne _ _ hs]
      exact .same
  | wake hone =>
    by_cases hs : op.side.other = s
    · subst hs
      rw [PortSide.setQueue_queue]
      exact queueStep_wake call.1 hone _
    · rw [PortSide.setQueue_queue_of_ne _ _ hs]
      exact .same

end

theorem reset_queue (s : PortSide) (p : IpcPort) (m : ℕ) :
    s.queue { portReset p with magic := m } = emptyWait := by
  cases s <;> rfl

theorem advance_asleep (s : PortSide) (l : LifeLoc) (hl : l.life = none) (op : PortOp) (n : PortNext) :
    (lifeView s).asleep (l.setPort (l.port.advance op n)) = PortNext.asleep s op n := by
  rcases n with pc | ⟨st, out⟩
  · simp [lifeView, LifeLoc.setPort, PortLoc.advance, hl]
  · simp [lifeView, LifeLoc.setPort, PortLoc.advance, PortNext.asleep]

theorem lifeView_step {s : PortSide} {live : ℕ → Bool} {self : ℕ} {o o' : LifeObj} {l l' : LifeLoc} {eff : Effect}
    (hu : Untested o l) (hc : LifeChange live self o l o' l' eff) :
    QueueStep live self ((lifeView s).queue o) ((lifeView s).asleep l) ((lifeView s).queue o')
      ((lifeView s).asleep l') := by
  have hbusy : l.life ≠ none → (lifeView s).asleep l = false := by
    intro hl
    simp [lifeView, Option.isNone_iff_eq_none, hl]
  cases hc with
  | create hpc =>
    rw [hbusy (by simp [hpc])]
    have hq : (lifeView s).queue ⟨⟨portReset { o.base.port with magic := portMagic }, [], []⟩, .inUse⟩ = emptyWait :=
      reset_queue s { o.base.port with magic := portMagic } portMagic
    rw [hq]
    exact .clear
  | keep hpc =>
    rw [hbusy hpc]
    exact .same
  | destroy hpc =>
    rw [hbusy (by simp [hpc])]
    have hq : (lifeView s).queue ⟨⟨{ portReset o.base.port with magic := 0 }, [], []⟩, .released⟩ = emptyWait :=
      reset_queue s o.base.port 0
    rw [hq]
    exact .clear
  | @use op pc _ n _ hidle hcur hm =>
    have hl : (lifeView s).asleep l = PortNext.asleep s op (.inl pc) := by simp [lifeView, hidle, hcur]
    rw [hl, advance_asleep s l hidle]
    by_cases hraw : o.phase = .raw
    · have hpc : PortNext.asleep s op (.inl pc) = false := by
        rcases (hu hraw).2.2 op pc hcur with rfl | rfl <;> rfl
      rw [hpc]
      simp only [lifeView, hraw, if_true]
      exact .same
    · simp only [lifeView, if_neg hraw]
      exact hm.queueStep s

theorem lifeView_lawful (s : PortSide) : (lifeView s).Lawful lifeCode Untested where
  rest := rfl
  start h := by
    obtain ⟨-, hcur, -⟩ := lifeStart_cases h
    simp [lifeView, hcur]
  step hu h := lifeView_step hu (lifeStep_change h)

theorem untested_advance {live : ℕ → Bool} {call : ℕ × ℕ} {o o' : PortObj} {op : PortOp} {pc : PortPc}
    {n : PortNext} {eff : Effect} (hm : PortMove live call o op pc o' n eff)
    (hgone : ipcPortIsCreated o.port = false) (hpc : pc = .test ∨ pc = .tryTest) : n = failed .errInvalid := by
  cases hm with
  | reject => rfl
  | pass hcreated | enter hcreated =>
    rw [hgone] at hcreated
    cases hcreated
  | _ => rcases hpc with hpc | hpc <;> cases hpc

theorem untested_step {live : ℕ → Bool} {self : ℕ} {o o' : LifeObj} {l l' : LifeLoc} {eff : Effect}
    (hc : LifeChange live self o l o' l' eff) (h : Untested o l) :
    Untested o' l' ∧ ∀ k, Untested o k → Untested o' k := by
  cases hc with
  | create => exact ⟨fun hraw => (by cases hraw), fun _ _ hraw => by cases hraw⟩
  | destroy => exact ⟨fun hraw => (by cases hraw), fun _ _ hraw => by cases hraw⟩
  | keep _ hsame htest =>
    refine ⟨fun hraw => ?_, fun _ hk => hk⟩
    obtain ⟨hgone, -, hcur⟩ := h hraw
    refine ⟨hgone, fun hd => ?_, hsame ▸ hcur⟩
    rw [htest hd] at hgone
    cases hgone
  | use hidle hcur hm =>
    refine ⟨fun hraw => ?_, fun k hk hraw => ⟨hm.created.trans (hk hraw).1, (hk hraw).2⟩⟩
    obtain ⟨hgone, hlife, htests⟩ := h hraw
    refine ⟨hm.created.trans hgone, hlife, fun op' pc' hcur' => ?_⟩
    rw [untested_advance hm hgone (htests _ _ hcur)] at hcur'
    cases hcur'

theorem untested_start {c : LifeCall} {o : LifeObj} {l l' : LifeLoc} (h : Untested o l)
    (hs : lifeStart c l = some l') : Untested o l' := by
  intro hraw
  obtain ⟨-, -, hlife, hcur⟩ := lifeStart_cases hs
  refine ⟨(h hraw).1, hlife, fun op pc hpc => ?_⟩
  rcases hcur with hcur | ⟨-, op', hcur⟩
  · rw [hcur] at hpc
    cases hpc
  · rw [hcur] at hpc
    cases hpc
    exact (entry_cases op).imp And.right And.right

theorem life_untested {ok : LifeWorld → LifeEvent → Prop} {w : LifeWorld} (h : lifeSystem.ReachableIf ok w) :
    ∀ id, Untested w.obj (w.loc id) := by
  refine Code.everywhere (M := lifeCode) (G := Untested) ?_ ?_ (fun c o l l' => untested_start)
    (fun live self o l o' l' eff hu hs => untested_step (lifeStep_change hs) hu) h
  · rintro _ ⟨p, hp, rfl⟩ -
    exact ⟨decide_eq_false hp, by simp [lifeCode], fun _ _ hcur => by cases hcur⟩
  · exact fun o l hu hraw => ⟨(hu hraw).1, by simp [lifeCode], fun _ _ hcur => by cases hcur⟩

theorem lifeView_init (s : PortSide) (o : LifeObj) (h : ∃ p : IpcPort, p.magic ≠ portMagic ∧ o = ⟨⟨p, [], []⟩, .raw⟩) :
    (lifeView s).queue o = emptyWait := by
  obtain ⟨p, -, rfl⟩ := h
  rfl

theorem life_seated {ok : LifeWorld → LifeEvent → Prop} {w : LifeWorld} (s : PortSide)
    (h : lifeSystem.ReachableIf ok w) : (lifeView s).Seated w :=
  QueueView.seated (lifeView_lawful s) (lifeView_init s) (fun _ hr => life_untested hr) h

/-- No kill hits a task that is on one of the queues of the port. -/
def SparesParked (w : LifeWorld) (e : LifeEvent) : Prop :=
  (lifeView .senders).SparesQueued w e ∧ (lifeView .receivers).SparesQueued w e

/-- `IpcPortDestroy` in its section finds the port busy. -/
def FindsBusy (w : LifeWorld) (id : ℕ) : Prop :=
  (w.loc id).life = some .destroy ∧ (ipcPortDestroy w.obj.base.port).2 = .errBusy

/-- The live tasks that are parked at one side of the port. -/
def parkedAt (w : LifeWorld) (s : PortSide) : Finset ℕ := parkedOn w (s.queue w.obj.base.port) (lifeView s).asleep

theorem busy_nonempty {p : IpcPort} (h : (ipcPortDestroy p).2 = .errBusy) : ∃ s : PortSide, (s.queue p).count ≠ 0 := by
  unfold ipcPortDestroy at h
  split_ifs at h with hbusy
  rcases hbusy with hs | hr
  · exact ⟨.senders, hs⟩
  · exact ⟨.receivers, hr⟩

/-- The statuses of `IpcPark` and `IpcPortDestroy` say what they should. -/
structure PortHonest (w : LifeWorld) (id : ℕ) : Prop where
  full : ∀ op, (w.loc id).port.cur = some (op, .park .check) →
    FullHonest w (op.side.queue w.obj.base.port) (lifeView op.side).asleep
  busy : FindsBusy w id → ∃ s, (parkedAt w s).Nonempty

/-- When they do. -/
structure PortExact (w : LifeWorld) (id : ℕ) : Prop where
  full : ∀ op, (w.loc id).port.cur = some (op, .park .check) →
    FullExact w (op.side.queue w.obj.base.port) (lifeView op.side).asleep
  busy : FindsBusy w id → ((∃ s, (parkedAt w s).Nonempty) ↔
    ∃ s : PortSide, ∃ x ∈ s.queue w.obj.base.port, w.tasks.live x = true)

section

variable {w : LifeWorld} {ok : LifeWorld → LifeEvent → Prop} {id : ℕ}

theorem lifeView_queue (s : PortSide) (h : w.obj.phase ≠ .raw) : (lifeView s).queue w.obj = s.queue w.obj.base.port :=
  if_neg h

theorem phase_of_park (h : lifeSystem.ReachableIf ok w) {op : PortOp} {p : ParkPc}
    (hcur : (w.loc id).port.cur = some (op, .park p)) : w.obj.phase ≠ .raw := by
  intro hraw
  rcases (life_untested h id hraw).2.2 _ _ hcur with he | he <;> cases he

theorem phase_of_destroy (h : lifeSystem.ReachableIf ok w) (hpc : (w.loc id).life = some .destroy) :
    w.obj.phase ≠ .raw :=
  fun hraw => (life_untested h id hraw).2.1 hpc

theorem life_fullExact (h : lifeSystem.ReachableIf ok w) (hphase : w.obj.phase ≠ .raw) (s : PortSide) :
    FullExact w (s.queue w.obj.base.port) (lifeView s).asleep := by
  have hseat := life_seated s h
  rw [← lifeView_queue s hphase]
  exact fullExact (Code.fresh h) hseat.wellFormed hseat.asleep

theorem parkedAt_nonempty (h : lifeSystem.ReachableIf ok w) (hphase : w.obj.phase ≠ .raw) (s : PortSide) :
    (parkedAt w s).Nonempty ↔ ∃ x ∈ s.queue w.obj.base.port, w.tasks.live x = true := by
  unfold parkedAt
  rw [← lifeView_queue s hphase]
  exact parkedOn_nonempty (Code.fresh h) (life_seated s h).asleep

theorem life_exact (h : lifeSystem.ReachableIf ok w) : PortExact w id where
  full op hcur := life_fullExact h (phase_of_park h hcur) op.side
  busy hbusy := exists_congr (parkedAt_nonempty h (phase_of_destroy h hbusy.1))

theorem life_noneStale (h : lifeSystem.ReachableIf SparesParked w) (hphase : w.obj.phase ≠ .raw) (s : PortSide) :
    NoneStale w (s.queue w.obj.base.port) := by
  rw [← lifeView_queue s hphase]
  refine QueueView.noneStale (lifeView_lawful s) (lifeView_init s) (fun _ hr => life_untested hr) (fun w e he => ?_) h
  cases s with
  | senders => exact he.1
  | receivers => exact he.2

theorem life_honest (h : lifeSystem.ReachableIf SparesParked w) : PortHonest w id where
  full op hcur := by
    have hphase := phase_of_park h hcur
    exact (life_fullExact h hphase op.side).honest (life_noneStale h hphase op.side)
  busy hbusy := by
    have hphase := phase_of_destroy h hbusy.1
    obtain ⟨s, hs⟩ := busy_nonempty hbusy.2
    refine ⟨s, (parkedAt_nonempty h hphase s).mpr ⟨(s.queue w.obj.base.port).ids 0, ?_, ?_⟩⟩
    · exact ⟨0, Nat.pos_of_ne_zero hs, rfl⟩
    · exact life_noneStale h hphase s _ ⟨0, Nat.pos_of_ne_zero hs, rfl⟩

end

theorem sem_fullExact {initial limit : ℕ} {ok : SemWorld → SemEvent → Prop} {w : SemWorld}
    (h : (semSystem initial limit).ReachableIf ok w) : FullExact w w.obj.sem.wait semLot.view.asleep :=
  fullExact (Code.fresh h) (sem_seated h).wellFormed (sem_seated h).asleep

theorem mutex_fullExact {ok : MutexWorld → MutexEvent → Prop} {w : MutexWorld}
    (h : mutexSystem.ReachableIf ok w) : FullExact w w.obj.wait mutexView.asleep :=
  fullExact (Code.fresh h) (mutex_seated h).wellFormed (mutex_seated h).asleep

/-- On the queue of a semaphore, of a mutex and on both of a port: the statuses are right
in every run that kills no task while it is on a queue, and in any run whatsoever exactly
when there is no stale entry, or for a destroy a live one. -/
theorem refusals_exact (initial limit : ℕ) (ws : SemWorld) (wm : MutexWorld) (wp : LifeWorld) (id : ℕ) :
    (((semSystem initial limit).Reachable ws → FullExact ws ws.obj.sem.wait semLot.view.asleep) ∧
      ((semSystem initial limit).ReachableIf (fun w e => semLot.view.SparesQueued w e) ws →
        FullHonest ws ws.obj.sem.wait semLot.view.asleep)) ∧
    ((mutexSystem.Reachable wm → FullExact wm wm.obj.wait mutexView.asleep) ∧
      (mutexSystem.ReachableIf (fun w e => mutexView.SparesQueued w e) wm →
        FullHonest wm wm.obj.wait mutexView.asleep)) ∧
    (lifeSystem.Reachable wp → PortExact wp id) ∧ (lifeSystem.ReachableIf SparesParked wp → PortHonest wp id) := by
  refine ⟨⟨sem_fullExact, fun h => ?_⟩, ⟨mutex_fullExact, fun h => ?_⟩, life_exact, life_honest⟩
  · refine (sem_fullExact h).honest ?_
    refine QueueView.noneStale semLot_lawful.view ?_ (fun _ _ _ => trivial) (fun _ _ he => he) h
    rintro o rfl
    rfl
  · refine (mutex_fullExact h).honest ?_
    refine QueueView.noneStale mutexView_lawful ?_ (fun _ _ _ => trivial) (fun _ _ he => he) h
    rintro o rfl
    rfl

/-- Tasks 2 to 17 sleep in `SemWait` and task 1 has found no permit either. -/
def sixteenParked : List SemEvent :=
  List.replicate 17 .create ++ (List.range 16).flatMap (fun i => parkIn (i + 2)) ++ [waitCall 1, .step 1]

/-- The semaphore refuses task 1. -/
def refusesOne (w : SemWorld) : Bool :=
  w.loc 1 = .park .check ∧ (ipcPark 1 (semHasPermit w.obj.sem) w.obj.sem.wait .check).2.1 = .inr .errFull

/-- Sixteen tasks are parked, and the next is refused. -/
theorem refusals_exact_sixteen :
    ∃ w, (semSystem 0 0).ReachableIf (fun w e => semLot.view.SparesQueued w e) w ∧ refusesOne w = true ∧
      (parkedOn w w.obj.sem.wait semLot.view.asleep).card = ipcMaxWaiters := by
  obtain ⟨w, -, hw, hp⟩ := System.exists_reachableIf (S := semSystem 0 0)
    (fun w e => semLot.view.SparesQueued w e) (sem_boot 0 0) sixteenParked refusesOne (by decide +kernel)
  obtain ⟨-, hfull⟩ := of_decide_eq_true hp
  have hhonest := (refusals_exact 0 0 w (mutexCode.boot mutexInit) (lifeCode.boot ⟨⟨zeroPort, [], []⟩, .raw⟩) 0).1.2 hw
  exact ⟨w, hw, hp, hhonest _ _ hfull⟩

/-- With one of the sixteen killed, task 1 is refused although fifteen are parked; and a
port with a killed receiver on its queue is busy although nobody is parked on it. -/
theorem refused_by_stale :
    (∃ w, (semSystem 0 0).Reachable w ∧ refusesOne w = true ∧
      ¬FullHonest w w.obj.sem.wait semLot.view.asleep) ∧
    ∃ w, lifeSystem.Reachable w ∧ FindsBusy w 1 ∧ ¬PortHonest w 1 := by
  constructor
  · obtain ⟨w, -, hw, hp⟩ := System.exists_reachableIf (S := semSystem 0 0) (fun _ _ => True) (sem_boot 0 0)
      (sixteenParked ++ [.kill 2])
      (fun w => refusesOne w ∧ (parkedOn w w.obj.sem.wait semLot.view.asleep).card = 15) (by decide +kernel)
    obtain ⟨hone, hcard⟩ := of_decide_eq_true hp
    refine ⟨w, hw, hone, fun hhonest => ?_⟩
    obtain ⟨-, hfull⟩ := of_decide_eq_true hone
    rw [hhonest _ _ hfull] at hcard
    cases hcard
  · obtain ⟨w, -, hw, hp⟩ := System.exists_reachableIf (S := lifeSystem) (fun _ _ => True) life_boot
      (List.replicate 2 .create ++ createCall 1 ++ [.call 2 (.use ⟨.receive true true, false⟩)] ++
        List.replicate 4 (.step 2) ++ [.kill 2, .call 1 (.life .destroy false), .step 1])
      (fun w => (w.loc 1).life = some .destroy ∧ (ipcPortDestroy w.obj.base.port).2 = .errBusy ∧
        (parkedAt w .senders).card = 0 ∧ (parkedAt w .receivers).card = 0) (by decide +kernel)
    obtain ⟨hpc, hbusy, hsend, hrecv⟩ := of_decide_eq_true hp
    refine ⟨w, hw, ⟨hpc, hbusy⟩, fun hhonest => ?_⟩
    obtain ⟨s, hs⟩ := hhonest.busy ⟨hpc, hbusy⟩
    cases s with
    | senders => exact hs.ne_empty (Finset.card_eq_zero.mp hsend)
    | receivers => exact hs.ne_empty (Finset.card_eq_zero.mp hrecv)

end Novium.Ipc
