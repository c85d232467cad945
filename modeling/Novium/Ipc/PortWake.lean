import Novium.Ipc.PortFifo
import Novium.Ipc.Wakeups

/-! No wakeup on a port is lost. Both sides of the port are lots: the receivers wait for
messages and the senders for room. -/

namespace Novium.Ipc

open Novium.Lib

variable {w w' : PortWorld} {s : PortSide}

def PortOp.role (s : PortSide) (op : PortOp) (pc : PortPc) : Role :=
  if op.side = s then
    match pc with
    | .tryTest | .try => if op.blocks then .seek else .out
    | .park p => .park p
    | .test | .wake _ _ => .out
  else
    match pc with
    | .wake _ p => .ofWake p
    | _ => .out

def PortNext.role (s : PortSide) (op : PortOp) : PortNext → Role
  | .inl pc => op.role s pc
  | .inr _ => .out

def PortLoc.role (s : PortSide) (l : PortLoc) : Role :=
  match l.cur with
  | some (op, pc) => op.role s pc
  | none => .out

def portLot (s : PortSide) : Lot PortObj PortLoc := ⟨fun o => s.queue o.port, fun o => s.avail o.port, PortLoc.role s⟩

theorem role_advance (s : PortSide) (l : PortLoc) (op : PortOp) (n : PortNext) :
    (l.advance op n).role s = PortNext.role s op n := by
  rcases n with pc | ⟨st, out⟩ <;> rfl

/-- A blocking call is behind its tests when it comes to the loop, and only it parks. -/
def PortOp.Sane (op : PortOp) : PortPc → Prop
  | .test => op.blocks = true
  | .tryTest => op.blocks = true → op.valid = true
  | .park _ => op.blocks = true ∧ op.valid = true
  | .try => op.valid = true
  | .wake _ _ => True

/-- What holds of the port and of a call on it, as long as the port is not destroyed. -/
structure InUse (o : PortObj) (l : PortLoc) : Prop where
  created : ipcPortIsCreated o.port = true
  bound : o.port.count ≤ ipcPortCapacity
  sane : ∀ op pc, l.cur = some (op, pc) → op.Sane pc

variable {live : ℕ → Bool} {call : ℕ × ℕ} {o o' : PortObj} {op : PortOp} {pc : PortPc} {n : PortNext} {eff : Effect}

theorem PortMove.sane (hm : PortMove live call o op pc o' n eff) (h : op.Sane pc) {pc' : PortPc}
    (hn : n = .inl pc') : op.Sane pc' := by
  cases hm with
  | reject | giveUp => cases hn
  | pass _ hv => cases hn; exact fun _ => hv
  | enter _ hv => cases hn; exact hv
  | wait hb => cases hn; exact ⟨hb, h⟩
  | push | pop => cases hn; trivial
  | park p =>
    rcases afterPark_cases (ipcPark call.1 (op.side.ready o.port) (op.side.queue o.port) p).2.1 with
      ⟨p', -, ha⟩ | ⟨-, ha⟩ | ⟨st, -, -, ha⟩
    · rw [ha] at hn
      cases hn
      exact h
    · rw [ha] at hn
      cases hn
      exact fun _ => h.2
    · rw [ha] at hn
      cases hn
  | @wake _ _ _ r =>
    cases r with
    | none => cases hn
    | some p => cases hn; trivial

section Roles

theorem role_own (h : op.side = s) : PortOp.role s op pc =
    match pc with
    | .tryTest | .try => if op.blocks then .seek else .out
    | .park p => .park p
    | .test | .wake _ _ => .out := by
  simp only [PortOp.role, if_pos h]

theorem role_across (h : op.side ≠ s) : PortOp.role s op pc =
    match pc with
    | .wake _ p => .ofWake p
    | _ => .out := by
  simp only [PortOp.role, if_neg h]

/-- A call takes what it came for, and had been waiting for it if it blocks. -/
theorem lotStep_get {self a a' : ℕ} {q : IpcWait} (h : a' + 1 ≤ a) (block : Bool) :
    LotStep live self q a (if block then .seek else .out) .stay q a' .out := by
  cases block with
  | false => exact .other (by omega) (.inl rfl)
  | true => exact .get h

theorem role_afterPark_own (h : op.side = s) (hb : op.blocks = true) (r : ParkPc ⊕ IpcStatus) :
    PortNext.role s op (afterPark r) = .afterPark r := by
  rcases afterPark_cases r with ⟨p, rfl, ha⟩ | ⟨rfl, ha⟩ | ⟨st, rfl, hst, ha⟩
  · rw [ha, PortNext.role, role_own h]
    rfl
  · rw [ha, PortNext.role, role_own h]
    simp only [hb, if_true]
    rfl
  · rw [ha, Role.afterPark_failed hst]
    rfl

theorem role_afterPark_across (h : op.side ≠ s) (r : ParkPc ⊕ IpcStatus) :
    PortNext.role s op (afterPark r) = .out := by
  rcases afterPark_cases r with ⟨p, -, ha⟩ | ⟨-, ha⟩ | ⟨st, -, -, ha⟩
  · rw [ha, PortNext.role, role_across h]
  · rw [ha, PortNext.role, role_across h]
  · rw [ha]
    rfl

theorem role_afterWake_own (h : op.side = s) (out : Option IpcMessage) (r : Option WakePc) :
    PortNext.role s op (afterWake out r) = .out := by
  cases r with
  | none => rfl
  | some p => rw [afterWake, PortNext.role, role_own h]

theorem role_afterWake_across (h : op.side ≠ s) (out : Option IpcMessage) (r : Option WakePc) :
    PortNext.role s op (afterWake out r) = r.elim .out .ofWake := by
  cases r with
  | none => rfl
  | some p => rw [afterWake, PortNext.role, role_across h, Option.elim_some]

end Roles

theorem PortMove.lotStep_own (hm : PortMove live call o op pc o' n eff) (hs : op.side = s)
    (hcreated : ipcPortIsCreated o.port = true) (hbound : o.port.count ≤ ipcPortCapacity) (hsane : op.Sane pc) :
    LotStep live call.1 (s.queue o.port) (s.avail o.port) (op.role s pc) eff (s.queue o'.port) (s.avail o'.port)
      (PortNext.role s op n) := by
  cases hm with
  | reject hat hbad =>
    have hvalid : op.valid = false := hbad.resolve_left (by simp [hcreated])
    have hout : op.role s pc = .out := by
      rcases hat with rfl | rfl
      · exact role_own hs
      · rw [role_own hs]
        cases hb : op.blocks with
        | false => rfl
        | true => rw [hsane hb] at hvalid; cases hvalid
    rw [hout]
    exact .other le_rfl (.inl rfl)
  | pass =>
    rw [role_own hs]
    refine .other le_rfl ?_
    rw [PortNext.role, role_own hs]
    cases op.blocks
    · exact .inl rfl
    · exact .inr rfl
  | enter =>
    rw [PortNext.role, role_own hs, role_own hs]
    cases op.blocks
    · exact .other le_rfl (.inl rfl)
    · exact .retry
  | wait hb h0 =>
    rw [PortNext.role, role_own hs, role_own hs]
    simp only [hb, if_true]
    exact .fail (hs ▸ h0)
  | giveUp _ hb =>
    rw [role_own hs]
    simp only [hb]
    exact .other le_rfl (.inl rfl)
  | push hsend hroom =>
    rw [PortNext.role, role_own hs, role_own hs]
    obtain rfl : s = .senders := by rw [← hs, hsend]; rfl
    rw [PortSide.push_queue]
    refine lotStep_get ?_ op.blocks
    rw [PortSide.senders_avail, PortSide.senders_avail, push_count hbound]
    omega
  | pop hrecv hpos =>
    rw [PortNext.role, role_own hs, role_own hs]
    obtain rfl : s = .receivers := by rw [← hs, hrecv]; rfl
    rw [PortSide.pop_queue]
    refine lotStep_get ?_ op.blocks
    rw [PortSide.receivers_avail, PortSide.receivers_avail, pop_count hbound call hpos]
    omega
  | park p =>
    rw [role_own hs, role_afterPark_own hs hsane.1, hs, PortSide.setQueue_queue, PortSide.setQueue_avail,
      PortSide.ready_eq]
    exact lotStep_park live call.1 (s.queue o.port) (s.avail o.port) p
  | wake hone =>
    have hne : op.side.other ≠ s := hs ▸ op.side.other_ne
    rw [role_own hs, role_afterWake_own hs, PortSide.setQueue_queue_of_ne _ _ hne, PortSide.setQueue_avail]
    exact .other le_rfl (.inl rfl)

theorem PortMove.lotStep_across (hm : PortMove live call o op pc o' n eff) (hs : op.side ≠ s)
    (hbound : o.port.count ≤ ipcPortCapacity) :
    LotStep live call.1 (s.queue o.port) (s.avail o.port) (op.role s pc) eff (s.queue o'.port) (s.avail o'.port)
      (PortNext.role s op n) := by
  cases hm with
  | reject hat =>
    rcases hat with rfl | rfl
    all_goals
      rw [role_across hs]
      exact .other le_rfl (.inl rfl)
  | pass | enter | wait =>
    rw [PortNext.role, role_across hs, role_across hs]
    exact .other le_rfl (.inl rfl)
  | giveUp =>
    rw [role_across hs]
    exact .other le_rfl (.inl rfl)
  | push hsend =>
    rw [PortNext.role, role_across hs, role_across hs]
    obtain rfl : s = .receivers := by rw [← PortSide.other_of_ne hs, hsend]; rfl
    rw [PortSide.push_queue]
    refine .give ?_
    rw [PortSide.receivers_avail, PortSide.receivers_avail, push_count hbound]
  | pop hrecv hpos =>
    rw [PortNext.role, role_across hs, role_across hs]
    obtain rfl : s = .senders := by rw [← PortSide.other_of_ne hs, hrecv]; rfl
    rw [PortSide.pop_queue]
    refine .give ?_
    rw [PortSide.senders_avail, PortSide.senders_avail, pop_count hbound call hpos]
    omega
  | park p =>
    rw [role_across hs, role_afterPark_across hs, PortSide.setQueue_queue_of_ne _ _ hs, PortSide.setQueue_avail]
    exact .other le_rfl (.inl rfl)
  | wake hone =>
    obtain rfl := PortSide.other_of_ne hs
    rw [role_across hs, role_afterWake_across hs, PortSide.setQueue_queue, PortSide.setQueue_avail]
    exact lotStep_wake call.1 _ hone

theorem entry_role (s : PortSide) (op : PortOp) : op.role s op.entry = .out := by
  unfold PortOp.role
  rcases entry_cases op with ⟨-, he⟩ | ⟨hb, he⟩
  · simp [he]
  · simp [he, hb]

theorem entry_sane (op : PortOp) : op.Sane op.entry := by
  rcases entry_cases op with ⟨hb, he⟩ | ⟨hb, he⟩
  · rw [he]
    exact hb
  · rw [he]
    simp [PortOp.Sane, hb]

theorem portLot_lawful (s : PortSide) : (portLot s).Lawful portCode InUse where
  rest := rfl
  start {c l l'} h := by
    obtain ⟨hcur, hcur'⟩ := portStart_cases h
    refine ⟨by simp [portLot, PortLoc.role, hcur], .inl ?_⟩
    rcases hcur' with hcur' | hcur'
    · simp [portLot, PortLoc.role, hcur']
    · simp [portLot, PortLoc.role, hcur', entry_role]
  step {live self o l o' l' eff} hg h := by
    obtain ⟨op, pc, n, hcur, rfl, hm⟩ := portStep_move h
    have hrole : PortLoc.role s l = op.role s pc := by rw [PortLoc.role, hcur]
    show LotStep live self _ _ (PortLoc.role s l) eff _ _ (PortLoc.role s (l.advance op n))
    rw [hrole, role_advance]
    by_cases hs : op.side = s
    · exact hm.lotStep_own hs hg.created hg.bound (hg.sane op pc hcur)
    · exact hm.lotStep_across hs hg.bound

theorem advance_sane {l : PortLoc} (h : ∀ pc, n = .inl pc → op.Sane pc) {op' : PortOp} {pc' : PortPc}
    (hcur : (l.advance op n).cur = some (op', pc')) : op'.Sane pc' := by
  rcases n with pc | ⟨st, out⟩
  · cases hcur
    exact h pc' rfl
  · cases hcur

theorem port_sane {ok : PortWorld → Event PortCall → Prop} (h : portSystem.ReachableIf ok w) :
    ∀ id, ipcPortIsCreated w.obj.port = true ∧ ∀ op pc, (w.loc id).cur = some (op, pc) → op.Sane pc := by
  refine Code.everywhere (M := portCode) (G := fun o l => ipcPortIsCreated o.port = true ∧
    ∀ op pc, l.cur = some (op, pc) → op.Sane pc) ?_ ?_ ?_ ?_ h
  · rintro _ ⟨p, hp, rfl⟩
    refine ⟨?_, fun _ _ hcur => by cases hcur⟩
    simp [ipcPortCreate, hp, ipcPortIsCreated, portReset]
  · exact fun o l hG => ⟨hG.1, fun _ _ hcur => by cases hcur⟩
  · refine fun c o l l' hG hs => ⟨hG.1, fun op pc hcur => ?_⟩
    obtain ⟨-, hcur' | hcur'⟩ := portStart_cases hs
    · rw [hcur'] at hcur
      cases hcur
    · rw [hcur'] at hcur
      cases hcur
      exact entry_sane c.op
  · intro live self o l o' l' eff hG hs
    obtain ⟨op, pc, n, hcur, rfl, hm⟩ := portStep_move hs
    have hcreated : ipcPortIsCreated o'.port = true := hm.created.trans hG.1
    refine ⟨⟨hcreated, fun op' pc' => ?_⟩, fun k hk => ⟨hcreated, hk.2⟩⟩
    exact advance_sane fun pc₁ hn => hm.sane (hG.2 op pc hcur) hn

theorem port_inUse {ok : PortWorld → Event PortCall → Prop} (h : portSystem.ReachableIf ok w) (id : ℕ) :
    InUse w.obj (w.loc id) :=
  ⟨(port_sane h id).1, (port_inv h).2.count, (port_sane h id).2⟩

/-- A task is killed only between calls. -/
def SparesCallers (w : PortWorld) : Event PortCall → Prop
  | .kill id => (w.loc id).cur = none
  | _ => True

theorem SparesCallers.spares {e : Event PortCall} (h : SparesCallers w e) : (portLot s).Spares w e := by
  cases e with
  | kill id =>
    have hcur : (w.loc id).cur = none := h
    have hout : (portLot s).role (w.loc id) = .out := by simp [portLot, PortLoc.role, hcur]
    rintro ⟨-, -, hc | hw⟩
    · exact absurd hc (Lot.not_carries (by simp [hout]) (by simp [hout, Role.waits]))
    · rw [hout] at hw
      cases hw
  | _ => trivial

theorem port_covered (s : PortSide) (h : portSystem.ReachableIf SparesCallers w) : (portLot s).Covered w := by
  refine Lot.covered (portLot_lawful s) ?_ (fun _ hr => port_inUse hr) (fun _ _ he => he.spares) h
  rintro _ ⟨p, hp, rfl⟩
  show s.queue (ipcPortCreate p).1 = emptyWait
  rw [ipcPortCreate, if_neg hp]
  cases s <;> rfl

/-- Inside `IpcSend` or `IpcReceive`, at its own side and before the push or pop. -/
def PortLoc.seeks (s : PortSide) (l : PortLoc) : Bool :=
  match l.cur with
  | some (_, .wake _ _) => false
  | some (op, _) => op.side = s && op.blocks
  | none => false

/-- Behind the push or pop of a call at the other side, with its `IpcWakeOne` not done. -/
def PortLoc.owes (s : PortSide) (l : PortLoc) : Bool :=
  match l.cur with
  | some (op, .wake _ _) => op.side ≠ s
  | _ => false

/-- The tasks that are awake inside `IpcReceive` and have not popped; for the senders,
inside `IpcSend` and have not pushed. -/
def awakeAt (s : PortSide) (w : PortWorld) : Finset ℕ :=
  (Finset.range w.tasks.nextId).filter fun i => w.tasks.run i = .runnable ∧ (w.loc i).seeks s = true

/-- The sends whose wake of a receiver is pending; for the senders, the receives. -/
def pendingAt (s : PortSide) (w : PortWorld) : Finset ℕ :=
  (Finset.range w.tasks.nextId).filter fun j => w.tasks.live j = true ∧ (w.loc j).owes s = true

theorem role_seeks {l : PortLoc} (hsane : ∀ op pc, l.cur = some (op, pc) → op.Sane pc)
    (h : (l.role s).waits = true) : l.seeks s = true := by
  rcases l with ⟨done, _ | ⟨op, pc⟩⟩
  · cases h
  · have hop : op.Sane pc := hsane op pc rfl
    have hrole : (op.role s pc).waits = true := h
    by_cases hs : op.side = s
    · rw [role_own hs] at hrole
      cases pc with
      | test | wake => cases hrole
      | tryTest | «try» =>
        cases hb : op.blocks with
        | false => simp [hb, Role.waits] at hrole
        | true => simp [PortLoc.seeks, hs, hb]
      | park p => simp [PortLoc.seeks, hs, hop.1]
    · rw [role_across hs] at hrole
      cases pc with
      | wake out p => cases p <;> cases hrole
      | _ => cases hrole

theorem role_owes {l : PortLoc} (h : l.role s = .owe ∨ (l.role s).wakes = true) : l.owes s = true := by
  rcases l with ⟨done, _ | ⟨op, pc⟩⟩
  · rcases h with h | h <;> cases h
  · have hrole : op.role s pc = .owe ∨ (op.role s pc).wakes = true := h
    by_cases hs : op.side = s
    · rw [role_own hs] at hrole
      cases pc with
      | tryTest | «try» => cases hb : op.blocks <;> simp [hb, Role.wakes] at hrole
      | _ => simp [Role.wakes] at hrole
    · rw [role_across hs] at hrole
      cases pc with
      | wake out p => simp [PortLoc.owes, hs]
      | _ => simp [Role.wakes] at hrole

/-- While a task sleeps at one side, what it sleeps for is no more than the tasks that
are there to take it and those that are about to wake one. -/
theorem side_covered (s : PortSide) (h : portSystem.ReachableIf SparesCallers w)
    (hsleep : ∃ x ∈ s.queue w.obj.port, w.tasks.run x = .blocked) :
    s.avail w.obj.port ≤ (awakeAt s w).card + (pendingAt s w).card := by
  have hcard : s.avail w.obj.port ≤ ((portLot s).carriers w).card := port_covered s h hsleep
  have hawake : (portLot s).awake w ⊆ awakeAt s w :=
    Finset.monotone_filter_right _ fun i _ hi => ⟨hi.1, role_seeks (port_inUse h i).sane hi.2⟩
  have hpending : (portLot s).pending w ⊆ pendingAt s w :=
    Finset.monotone_filter_right _ fun j _ hj => ⟨hj.1, role_owes hj.2⟩
  calc s.avail w.obj.port
      ≤ ((portLot s).carriers w).card := hcard
    _ ≤ ((portLot s).awake w).card + ((portLot s).pending w).card := Lot.card_carriers_le_add _ w
    _ ≤ (awakeAt s w).card + (pendingAt s w).card :=
      Nat.add_le_add (Finset.card_le_card hawake) (Finset.card_le_card hpending)

/-- No wakeup on a port is lost, whatever the order of the calls and of their sections. -/
theorem no_lost_wakeup (h : portSystem.ReachableIf SparesCallers w) :
    ((∃ x ∈ w.obj.port.receivers, w.tasks.run x = .blocked) →
      w.obj.port.count ≤ (awakeAt .receivers w).card + (pendingAt .receivers w).card) ∧
    ((∃ x ∈ w.obj.port.senders, w.tasks.run x = .blocked) →
      ipcPortCapacity - w.obj.port.count ≤ (awakeAt .senders w).card + (pendingAt .senders w).card) :=
  ⟨side_covered .receivers h, side_covered .senders h⟩

instance : (w : PortWorld) → (e : Event PortCall) → Decidable (SparesCallers w e)
  | w, .kill id => decidable_of_iff ((w.loc id).cur.isNone = true) Option.isNone_iff_eq_none
  | _, .call _ _ | _, .step _ | _, .undo _ | _, .create => .isTrue trivial

def receiveIn (id : ℕ) : List (Event PortCall) := .call id ⟨.receive true true, false⟩ :: List.replicate 4 (.step id)

/-- Tasks 2 and 3 sleep and task 4 ends; task 1 has sent a message and is about to wake task 2. -/
theorem no_lost_wakeup_two_receivers :
    ∃ w, portSystem.ReachableIf SparesCallers w ∧ w.obj.port.count = 1 ∧ 3 ∈ w.obj.port.receivers ∧
      w.tasks.run 3 = .blocked ∧ 1 ≤ (awakeAt .receivers w).card + (pendingAt .receivers w).card := by
  obtain ⟨w, -, hw, hp⟩ := System.exists_reachableIf SparesCallers port_boot
    (List.replicate 4 .create ++ receiveIn 2 ++ receiveIn 3 ++
      [.kill 4, .call 1 ⟨.send false (some ⟨1, 0, fun _ => 7⟩), false⟩] ++ List.replicate 3 (.step 1))
    (fun w => w.obj.port.count = 1 ∧ 3 ∈ w.obj.port.receivers ∧ w.tasks.run 3 = .blocked) (by decide +kernel)
  obtain ⟨hc, hin, hb⟩ := of_decide_eq_true hp
  refine ⟨w, hw, hc, hin, hb, ?_⟩
  rw [← hc]
  exact (no_lost_wakeup hw).1 ⟨3, hin, hb⟩

end Novium.Ipc
