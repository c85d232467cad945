import Novium.Ipc.PortFifo
import Novium.Ipc.PortWake

/-! Where the blocked tasks are. One that has called `SchedBlock` inside `IpcPark` stays in the wait queue until another
task takes it off, and that one goes on to wake it; so when nobody inside a call can run, everybody who sleeps is in a
queue, and what it sleeps for is not there. -/

namespace Novium.Ipc

open Novium.Lib

variable {O L C : Type}

namespace Lot

variable {t : Lot O L} {M : Code O L C} {good : O → L → Prop} {w w' : World O L}

/-- A blocked waiter is in the queue, or somebody has taken it off and is about to wake it. -/
def Anchored (t : Lot O L) (w : World O L) : Prop :=
  ∀ i, w.tasks.run i = .blocked → t.role (w.loc i) = .park .woken →
    i ∈ t.queue w.obj ∨ ∃ j, w.tasks.live j = true ∧ t.role (w.loc j) = .wake i

section Step

variable {self : ℕ} {o' : O} {l' : L} {eff : Effect}

theorem anchored_self (hseat : t.view.Seated w)
    (hls : LotStep w.tasks.live self (t.queue w.obj) (t.avail w.obj) (t.role (w.loc self)) eff (t.queue o') (t.avail o')
      (t.role l')) (hr : t.role l' = .park .woken) : self ∈ t.queue o' := by
  rw [hr] at hls
  generalize t.queue o' = q', t.avail o' = a', t.role (w.loc self) = r at hls
  generalize hwoken : Role.park ParkPc.woken = r' at hls
  cases hls with
  | other _ hout => rcases hout with rfl | rfl <;> cases hwoken
  | join h0 _ hadd => exact ((ipcWaitAdd_spec hseat.wellFormed h0 hadd).2 self).mpr (.inr rfl)
  | pick => split_ifs at hwoken
  | retry | get | fail | ready | refuse | leave | give | rouse => cases hwoken

/-- Nobody else leaves the queue but the one that the caller is going to wake. -/
theorem anchored_queue (hseat : t.view.Seated w)
    (hls : LotStep w.tasks.live self (t.queue w.obj) (t.avail w.obj) (t.role (w.loc self)) eff (t.queue o') (t.avail o')
      (t.role l')) {i : ℕ} (hi : i ≠ self) (hlive : w.tasks.live i = true) (hin : i ∈ t.queue w.obj) :
    i ∈ t.queue o' ∨ t.role l' = .wake i := by
  have hwf := hseat.wellFormed
  change WellFormed (t.queue w.obj) at hwf
  generalize t.queue w.obj = q at hls hin hwf
  generalize t.queue o' = q', t.avail o' = a', t.role (w.loc self) = r, t.role l' = r' at hls
  cases hls with
  | other | retry | get | fail | ready | refuse | give | rouse => exact .inl hin
  | join h0 _ hadd => exact .inl (((ipcWaitAdd_spec hwf h0 hadd).2 i).mpr (.inl hin))
  | leave => exact .inl (((ipcWaitRemove_spec hwf self).2 i).mpr ⟨hin, hi⟩)
  | @pick _ id htake =>
    obtain ⟨-, ⟨h0, -, -, hmem⟩ | ⟨-, -, hdead⟩⟩ := ipcWaitTakeLive_cases hwf htake
    · by_cases hid : i = id
      · exact .inr (by rw [if_pos h0, hid])
      · exact .inl ((hmem i).mpr ⟨hin, hid⟩)
    · rw [hdead i hin] at hlive
      cases hlive

theorem Anchored.step (hseat : t.view.Seated w) (h : t.Anchored w) (hrun : w.tasks.run self = .runnable)
    (hls : LotStep w.tasks.live self (t.queue w.obj) (t.avail w.obj) (t.role (w.loc self)) eff (t.queue o') (t.avail o')
      (t.role l')) : t.Anchored (w.after self o' l' eff) := by
  intro i hb hr
  by_cases hi : i = self
  · subst hi
    simp only [Function.update_self] at hr
    exact .inl (anchored_self hseat hls hr)
  simp only [Function.update_of_ne hi] at hr
  have hblocked : w.tasks.run i = .blocked := apply_blocked hb hi
  have hlive : w.tasks.live i = true := by rw [Tasks.live_iff, hblocked]; decide
  obtain hin | ⟨j, hj, hjr⟩ := h i hblocked hr
  · refine (anchored_queue hseat hls hi hlive hin).imp_right fun hwake => ⟨self, ?_, ?_⟩
    · rw [Effect.apply_live hrun, Tasks.live_iff, hrun]
      decide
    · simpa only [Function.update_self] using hwake
  · by_cases hjs : j = self
    · subst hjs
      rw [hjr] at hls
      generalize t.role l' = r', t.queue o' = q', t.avail o' = a' at hls
      cases hls
      have hwoken : (w.tasks.wake i).run i = .blocked := hb
      rw [Tasks.wake_run, if_pos ⟨rfl, hblocked⟩] at hwoken
      cases hwoken
    · refine .inr ⟨j, ?_, ?_⟩
      · rw [Effect.apply_live hrun]
        exact hj
      · simpa only [Function.update_of_ne hjs] using hjr

end Step

theorem Anchored.next (ht : t.Lawful M good) (hf : M.Fresh w) (hgood : ∀ id, good w.obj (w.loc id))
    (hseat : t.view.Seated w) {e : Event C} (h : t.Anchored w)
    (hok : ∀ id, e = .kill id → (t.role (w.loc id)).wakes = false) (hn : M.next w e = some w') : t.Anchored w' := by
  obtain ⟨id, c, l, -, hrun, hs, rfl⟩ | ⟨self, o, l, eff, -, hrun, hs, rfl⟩ | ⟨id, -, rfl⟩ | ⟨id, rfl, rfl⟩ | ⟨-, rfl⟩ :=
    Code.next_cases hn
  · obtain ⟨hrest, hl⟩ := ht.start hs
    intro i hb hr
    have hi : i ≠ id := fun e => by
      rw [e, hrun] at hb
      cases hb
    simp only [Function.update_of_ne hi] at hr
    refine (h i hb hr).imp_right fun ⟨j, hj, hjr⟩ => ⟨j, hj, ?_⟩
    have hji : j ≠ id := fun e => by
      rw [e, hrest] at hjr
      cases hjr
    simpa only [Function.update_of_ne hji] using hjr
  · exact h.step hseat hrun (ht.step (hgood self) hs)
  · intro i hb hr
    have hblocked : w.tasks.run i = .blocked := by
      rw [Tasks.wake_run] at hb
      split_ifs at hb
      exact hb
    exact (h i hblocked hr).imp_right fun ⟨j, hj, hjr⟩ => ⟨j, by rwa [Tasks.wake_live], hjr⟩
  · intro i hb hr
    have hblocked : w.tasks.run i = .blocked := by
      unfold Tasks.kill at hb
      split_ifs at hb
      · exact hb
      · rw [Tasks.setRun_run] at hb
        split_ifs at hb
        exact hb
    refine (h i hblocked hr).imp_right fun ⟨j, hj, hjr⟩ => ⟨j, ?_, hjr⟩
    rw [Tasks.kill_live, if_neg]
    · exact hj
    · rintro ⟨rfl, -⟩
      have hspared := hok j rfl
      rw [hjr] at hspared
      cases hspared
  · intro i hb hr
    have hne : i ≠ w.tasks.nextId := fun e => by
      rw [e] at hb
      simp [Tasks.create] at hb
    simp only [Function.update_of_ne hne] at hr
    have hblocked : w.tasks.run i = .blocked := by
      simpa [Tasks.create, hne] using hb
    refine (h i hblocked hr).imp_right fun ⟨j, hj, hjr⟩ => ⟨j, ?_, ?_⟩
    · rw [Tasks.create_live]
      split_ifs
      · rfl
      · exact hj
    · have hjn : j ≠ w.tasks.nextId := (Code.live_lt hf hj).ne
      simpa only [Function.update_of_ne hjn] using hjr

theorem anchored {init : O → Prop} {ok : World O L → Event C → Prop} (ht : t.Lawful M good)
    (hinit : ∀ o, init o → t.queue o = emptyWait)
    (hgood : ∀ w, (M.system init).ReachableIf ok w → ∀ id, good w.obj (w.loc id))
    (hok : ∀ w id, ok w (.kill id) → (t.role (w.loc id)).wakes = false) (h : (M.system init).ReachableIf ok w) :
    t.Anchored w := by
  refine h.invariantFrom (J := fun w => (M.system init).ReachableIf ok w) (fun _ h => h) ?_ fun w e w' hr hi hek hn => ?_
  · rintro w ⟨o, -, rfl⟩ i - hrole
    rw [show M.boot o = ⟨o, Tasks.boot, fun _ => M.rest⟩ from rfl, ht.rest] at hrole
    cases hrole
  · refine hi.next ht (Code.fresh hr) (hgood w hr) (QueueView.seated ht.view hinit hgood hr) (fun id he => ?_) hn
    rw [he] at hek
    exact hok w id hek

end Lot

section

variable {w : PortWorld}

theorem created_queue (s : PortSide) {o : PortObj}
    (h : ∃ p : IpcPort, p.magic ≠ portMagic ∧ o = ⟨(ipcPortCreate p).1, [], []⟩) : s.queue o.port = emptyWait := by
  obtain ⟨p, hp, rfl⟩ := h
  show s.queue (ipcPortCreate p).1 = emptyWait
  rw [ipcPortCreate, if_neg hp]
  cases s <;> rfl

theorem port_seated (s : PortSide) {ok : PortWorld → Event PortCall → Prop} (h : portSystem.ReachableIf ok w) :
    (portLot s).view.Seated w :=
  QueueView.seated (portLot_lawful s).view (fun _ ho => created_queue s ho) (fun _ hr => port_inUse hr) h

theorem port_anchored (s : PortSide) (h : portSystem.ReachableIf SparesCallers w) : (portLot s).Anchored w := by
  refine Lot.anchored (portLot_lawful s) (fun _ ho => created_queue s ho) (fun _ hr => port_inUse hr) (fun w id hok => ?_) h
  have hcur : (w.loc id).cur = none := hok
  simp [portLot, PortLoc.role, hcur, Role.wakes]

theorem PortMove.blocks_parked {live : ℕ → Bool} {call : ℕ × ℕ} {o o' : PortObj} {op : PortOp} {pc : PortPc} {n : PortNext}
    (hm : PortMove live call o op pc o' n .block) : n = .inl (.park .woken) := by
  generalize heff : Effect.block = eff at hm
  cases hm with
  | reject | pass | enter | wait | giveUp | push | pop => cases heff
  | park p =>
    obtain ⟨st, he⟩ | ⟨q, -, -, -, he⟩ | he := ipcPark_cases call.1 (op.side.ready o.port) (op.side.queue o.port) p
    · rw [he] at heff
      cases heff
    · rw [he]
      rfl
    · rw [he] at heff
      cases heff
  | @wake out p q r eff hone =>
    cases p with
    | take =>
      obtain ⟨⟨q₁, id⟩, -, he⟩ := Option.map_eq_some_iff.mp hone
      cases he
      cases heff
    | wake id =>
      cases hone
      cases heff

theorem blocked_parked {ok : PortWorld → Event PortCall → Prop} (h : portSystem.ReachableIf ok w) {i : ℕ}
    (hb : w.tasks.run i = .blocked) : ∃ op, (w.loc i).cur = some (op, .park .woken) := by
  refine h.invariant (I := fun w => ∀ i, w.tasks.run i = .blocked → ∃ op, (w.loc i).cur = some (op, .park .woken))
    ?_ (fun w e w' hi _ hn => ?_) i hb
  · rintro w ⟨o, -, rfl⟩ i hb
    have hboot : Tasks.boot.run i = .blocked := hb
    unfold Tasks.boot at hboot
    simp only at hboot
    split_ifs at hboot
  intro i hb
  obtain ⟨id, c, l, -, hrun, -, rfl⟩ | ⟨self, o, l, eff, -, hrun, hs, rfl⟩ | ⟨id, -, rfl⟩ | ⟨id, -, rfl⟩ | ⟨-, rfl⟩ :=
    Code.next_cases hn
  · have hne : i ≠ id := fun e => by
      rw [e, hrun] at hb
      cases hb
    simp only [Function.update_of_ne hne]
    exact hi i hb
  · by_cases hself : i = self
    · subst hself
      obtain ⟨op, pc, n, -, rfl, hm⟩ := portStep_move hs
      by_cases heff : eff = .block
      · subst heff
        rw [hm.blocks_parked]
        exact ⟨op, by simp [PortLoc.advance]⟩
      · have hrun' : (eff.apply i w.tasks).run i = .runnable := Lot.apply_runnable hrun (.inr heff)
        have hb' : (eff.apply i w.tasks).run i = .blocked := hb
        rw [hrun'] at hb'
        cases hb'
    · simp only [Function.update_of_ne hself]
      exact hi i (Lot.apply_blocked hb hself)
  · have hblocked : w.tasks.run i = .blocked := by
      rw [Tasks.wake_run] at hb
      split_ifs at hb
      exact hb
    exact hi i hblocked
  · have hblocked : w.tasks.run i = .blocked := by
      unfold Tasks.kill at hb
      split_ifs at hb
      · exact hb
      · rw [Tasks.setRun_run] at hb
        split_ifs at hb
        exact hb
    exact hi i hblocked
  · have hne : i ≠ w.tasks.nextId := fun e => by
      rw [e] at hb
      simp [Tasks.create] at hb
    simp only [Function.update_of_ne hne]
    exact hi i (by simpa [Tasks.create, hne] using hb)

/-- No task inside a call can run. -/
def Quiescent (w : PortWorld) : Prop := ∀ i, w.tasks.run i = .runnable → (w.loc i).cur = none

theorem quiescent_of_lt (hf : portCode.Fresh w)
    (h : ∀ i < w.tasks.nextId, w.tasks.run i = .runnable → (w.loc i).cur.isNone = true) : Quiescent w := by
  intro i hrun
  have hlive : w.tasks.live i = true := by
    rw [Tasks.live_iff, hrun]
    decide
  exact Option.isNone_iff_eq_none.mp (h i (Code.live_lt hf hlive) hrun)

/-- Whoever sleeps then does so in its own queue, and waits for what is not there. -/
theorem Quiescent.sleeper (hq : Quiescent w) (h : portSystem.ReachableIf SparesCallers w) {i : ℕ} {op : PortOp}
    (hb : w.tasks.run i = .blocked) (hcur : (w.loc i).cur = some (op, .park .woken)) :
    i ∈ op.side.queue w.obj.port ∧ op.side.avail w.obj.port = 0 := by
  have hstill : ∀ j, w.tasks.live j = true → ∀ op' out p, (w.loc j).cur ≠ some (op', .wake out p) := by
    intro j hj op' out p hjc
    cases hrun : w.tasks.run j with
    | gone => simp [Tasks.live, hrun] at hj
    | runnable => exact absurd (hq j hrun) (by simp [hjc])
    | blocked =>
      obtain ⟨op'', hpark⟩ := blocked_parked h hrun
      rw [hpark] at hjc
      cases hjc
  have hrole : (portLot op.side).role (w.loc i) = .park .woken := by
    simp only [portLot, PortLoc.role, hcur]
    exact role_own rfl
  have hin : i ∈ op.side.queue w.obj.port := by
    obtain hin | ⟨j, hj, hjr⟩ := port_anchored op.side h i hb hrole
    · exact hin
    · have howes : (w.loc j).owes op.side = true := role_owes (.inr (by rw [show PortLoc.role op.side (w.loc j) = _ from hjr]; rfl))
      unfold PortLoc.owes at howes
      split at howes
      next op' out p hjc => exact absurd hjc (hstill j hj op' out p)
      · cases howes
  refine ⟨hin, ?_⟩
  have hcovered := side_covered op.side h ⟨i, hin, hb⟩
  have hawake : awakeAt op.side w = ∅ := by
    refine Finset.filter_eq_empty_iff.mpr fun j _ => ?_
    rintro ⟨hrun, hseeks⟩
    rw [PortLoc.seeks, hq j hrun] at hseeks
    cases hseeks
  have hpending : pendingAt op.side w = ∅ := by
    refine Finset.filter_eq_empty_iff.mpr fun j _ => ?_
    rintro ⟨hj, howes⟩
    unfold PortLoc.owes at howes
    split at howes
    next op' out p hjc => exact hstill j hj op' out p hjc
    · cases howes
  rw [hawake, hpending] at hcovered
  simpa using hcovered

/-- A port never leaves senders and receivers asleep together. When no task inside a call can run, either nobody sleeps
but receivers, and the port is empty, or nobody but senders, and it is full; and all of them are in the queue. -/
theorem port_quiescent (h : portSystem.ReachableIf SparesCallers w) (hq : Quiescent w) :
    (∀ i, w.tasks.run i = .blocked → i ∈ w.obj.port.receivers ∧ w.obj.port.count = 0) ∨
      ∀ i, w.tasks.run i = .blocked → i ∈ w.obj.port.senders ∧ w.obj.port.count = ipcPortCapacity := by
  have hsleeper : ∀ i, w.tasks.run i = .blocked → ∃ s : PortSide, i ∈ s.queue w.obj.port ∧ s.avail w.obj.port = 0 := by
    intro i hb
    obtain ⟨op, hcur⟩ := blocked_parked h hb
    exact ⟨op.side, hq.sleeper h hb hcur⟩
  have hbound := (port_inUse h 0).bound
  by_cases hempty : w.obj.port.count = 0
  · refine .inl fun i hb => ?_
    obtain ⟨s, hin, havail⟩ := hsleeper i hb
    cases s with
    | receivers => exact ⟨hin, hempty⟩
    | senders =>
      rw [PortSide.senders_avail, hempty] at havail
      cases havail
  · refine .inr fun i hb => ?_
    obtain ⟨s, hin, havail⟩ := hsleeper i hb
    cases s with
    | receivers => exact absurd havail hempty
    | senders =>
      rw [PortSide.senders_avail] at havail
      exact ⟨hin, by omega⟩

/-- Two receivers asleep. -/
theorem port_quiescent_receivers : ∃ w, portSystem.ReachableIf SparesCallers w ∧ w.tasks.run 1 = .blocked ∧
    w.tasks.run 2 = .blocked ∧
    ((∀ i, w.tasks.run i = .blocked → i ∈ w.obj.port.receivers ∧ w.obj.port.count = 0) ∨
      ∀ i, w.tasks.run i = .blocked → i ∈ w.obj.port.senders ∧ w.obj.port.count = ipcPortCapacity) := by
  obtain ⟨w, -, hw, hp⟩ := System.exists_reachableIf SparesCallers port_boot
    ([.create, .create, .call 1 ⟨.receive true true, false⟩] ++ List.replicate 4 (.step 1) ++
      [.call 2 ⟨.receive true true, false⟩] ++ List.replicate 4 (.step 2))
    (fun w => (w.tasks.run 1 = .blocked ∧ w.tasks.run 2 = .blocked) ∧
      ∀ i < w.tasks.nextId, w.tasks.run i = .runnable → (w.loc i).cur.isNone = true) (by decide)
  obtain ⟨⟨h1, h2⟩, hquiet⟩ := of_decide_eq_true hp
  exact ⟨w, hw, h1, h2, port_quiescent hw (quiescent_of_lt (Code.fresh hw) hquiet)⟩

end

end Novium.Ipc
