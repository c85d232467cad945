import Novium.Ipc.PortSides

/-! A port delivers every accepted message once and in order, in every run: what was
taken, followed by what lies in the slots, is what was accepted, and each call that
returns `IpcOk` has moved one message, every other call none. -/

namespace Novium.Ipc

open Novium.Lib

structure SameQueue (o o' : PortObj) : Prop where
  accepted : o'.accepted = o.accepted
  taken : o'.taken = o.taken
  head : o'.port.head = o.port.head
  count : o'.port.count = o.port.count
  slots : o'.port.slots = o.port.slots

namespace PortNext

/-- The call is behind its push or pop. -/
def passed : PortNext → Bool
  | .inl (.wake _ _) => true
  | .inl _ => false
  | .inr (st, _) => st = .ok

def out : PortNext → Option IpcMessage
  | .inl (.wake out _) => out
  | .inl _ => none
  | .inr (_, out) => out

end PortNext

inductive PortChange (call : ℕ × ℕ) (o : PortObj) : PortOp → PortPc → PortObj → PortNext → Prop where
  | keep {op : PortOp} {pc : PortPc} {o' : PortObj} {n : PortNext} (same : SameQueue o o')
      (passed : PortNext.passed n = PortNext.passed (.inl pc)) (out : PortNext.out n = PortNext.out (.inl pc)) :
      PortChange call o op pc o' n
  | push {block : Bool} {m : IpcMessage} (room : o.port.count ≠ ipcPortCapacity) :
      PortChange call o (.send block (some m)) .try (o.push call m) (.inl (.wake none .take))
  | pop {block out : Bool} (some_queued : o.port.count ≠ 0) :
      PortChange call o (.receive block out) .try (o.pop call) (.inl (.wake (some o.front) .take))

theorem afterPark_passed (r : ParkPc ⊕ IpcStatus) : PortNext.passed (afterPark r) = false := by
  rcases r with p | st
  · rfl
  · cases st <;> rfl

theorem afterPark_out (r : ParkPc ⊕ IpcStatus) : PortNext.out (afterPark r) = none := by
  rcases r with p | st
  · rfl
  · cases st <;> rfl

theorem afterWake_keeps (out : Option IpcMessage) (r : Option WakePc) :
    PortNext.passed (afterWake out r) = true ∧ PortNext.out (afterWake out r) = out := by
  cases r with
  | none => exact ⟨by simp [afterWake, PortNext.passed], rfl⟩
  | some p => exact ⟨rfl, rfl⟩

theorem SameQueue.refl (o : PortObj) : SameQueue o o := ⟨rfl, rfl, rfl, rfl, rfl⟩

theorem SameQueue.setQueue (o : PortObj) (s : PortSide) (q : IpcWait) : SameQueue o (s.setQueue o q) := by
  cases s <;> exact ⟨rfl, rfl, rfl, rfl, rfl⟩

theorem PortMove.change {live : ℕ → Bool} {call : ℕ × ℕ} {o o' : PortObj} {op : PortOp} {pc : PortPc}
    {n : PortNext} {eff : Effect} (hm : PortMove live call o op pc o' n eff) : PortChange call o op pc o' n := by
  cases hm with
  | reject hat => rcases hat with rfl | rfl <;> exact .keep (.refl o) rfl rfl
  | pass | enter | wait => exact .keep (.refl o) rfl rfl
  | giveUp hst => exact .keep (.refl o) (decide_eq_false hst) rfl
  | push hsend hroom => exact hsend ▸ .push hroom
  | pop hreceive hpos => exact hreceive ▸ .pop hpos
  | park p => exact .keep (.setQueue o _ _) (afterPark_passed _) (afterPark_out _)
  | @wake out _ _ r => exact .keep (.setQueue o _ _) (afterWake_keeps out r).1 (afterWake_keeps out r).2

/-- The queued messages, oldest first. -/
def IpcPort.queued (p : IpcPort) : List IpcMessage :=
  (List.range p.count).map fun i => p.slots ((p.head + i) % ipcPortCapacity)

structure PortInv (o : PortObj) : Prop where
  head : o.port.head < ipcPortCapacity
  count : o.port.count ≤ ipcPortCapacity
  fifo : o.accepted.map Prod.snd = o.taken.map Prod.snd ++ o.port.queued

theorem created_inv {p : IpcPort} (h : p.magic ≠ portMagic) : PortInv ⟨(ipcPortCreate p).1, [], []⟩ := by
  simp only [ipcPortCreate, if_neg h]
  exact ⟨Nat.zero_lt_succ 15, Nat.zero_le 16, rfl⟩

theorem push_count {o : PortObj} (h : o.port.count ≤ ipcPortCapacity) (call : ℕ × ℕ) (m : IpcMessage) :
    (o.push call m).port.count = o.port.count + 1 := by
  refine u32_of_lt ?_
  unfold ipcPortCapacity at h
  omega

theorem pop_count {o : PortObj} (h : o.port.count ≤ ipcPortCapacity) (call : ℕ × ℕ) (hpos : o.port.count ≠ 0) :
    (o.pop call).port.count = o.port.count - 1 := by
  refine sub32_of_le (by omega) ?_
  unfold ipcPortCapacity at h
  omega

theorem push_inv {o : PortObj} (h : PortInv o) (call : ℕ × ℕ) (m : IpcMessage)
    (hroom : o.port.count ≠ ipcPortCapacity) : PortInv (o.push call m) := by
  have hh := h.head
  have hlt : o.port.count < ipcPortCapacity := lt_of_le_of_ne h.count hroom
  have hcount := push_count h.count call m
  refine ⟨h.head, by omega, ?_⟩
  have hslots : (o.push call m).port.slots =
      Function.update o.port.slots ((o.port.head + o.port.count) % ipcPortCapacity) (m.stamped call.1) := by
    simp only [PortObj.push, portPush]
    rw [u32_of_lt (by unfold ipcPortCapacity at *; omega)]
  have hqueued : (o.push call m).port.queued = o.port.queued ++ [m.stamped call.1] := by
    unfold IpcPort.queued
    rw [hcount, hslots]
    exact ringList_push o.port.slots (m.stamped call.1) hlt
  have htaken : (o.push call m).taken = o.taken := rfl
  rw [hqueued, htaken, ← List.append_assoc, ← h.fifo]
  simp [PortObj.push]

theorem pop_inv {o : PortObj} (h : PortInv o) (call : ℕ × ℕ) (hpos : o.port.count ≠ 0) :
    PortInv (o.pop call) := by
  have hh := h.head
  have hc := h.count
  have hhead : (o.pop call).port.head = (o.port.head + 1) % ipcPortCapacity := by
    simp only [PortObj.pop, portPop]
    rw [u32_of_lt (by unfold ipcPortCapacity at *; omega)]
  have hcount := pop_count h.count call hpos
  refine ⟨?_, by omega, ?_⟩
  · rw [hhead]
    exact Nat.mod_lt _ (by decide)
  have hqueued : o.port.queued = o.front :: (o.pop call).port.queued := by
    have hpop := ringList_pop ipcPortCapacity o.port.head o.port.slots
      (Nat.pos_of_ne_zero hpos)
    rw [Nat.mod_eq_of_lt hh] at hpop
    unfold IpcPort.queued
    rw [hcount, hhead]
    exact hpop
  rw [show (o.pop call).accepted = o.accepted from rfl, h.fifo, hqueued]
  simp [PortObj.pop]

theorem PortChange.inv {call : ℕ × ℕ} {o o' : PortObj} {op : PortOp} {pc : PortPc} {n : PortNext}
    (h : PortInv o) (hc : PortChange call o op pc o' n) : PortInv o' := by
  cases hc with
  | keep same =>
    refine ⟨by rw [same.head]; exact h.head, by rw [same.count]; exact h.count, ?_⟩
    rw [same.accepted, same.taken, IpcPort.queued, same.head, same.count, same.slots]
    exact h.fifo
  | push room => exact push_inv h call _ room
  | pop some_queued => exact pop_inv h call some_queued

/-- The messages that `log` has under a call. -/
def movedBy (log : List ((ℕ × ℕ) × IpcMessage)) (call : ℕ × ℕ) : List IpcMessage :=
  (log.filter fun e => e.1 = call).map Prod.snd

theorem movedBy_append (log : List ((ℕ × ℕ) × IpcMessage)) (c call : ℕ × ℕ) (m : IpcMessage) :
    movedBy (log ++ [(c, m)]) call = movedBy log call ++ if c = call then [m] else [] := by
  unfold movedBy
  rw [List.filter_append, List.map_append]
  by_cases h : c = call <;> simp [h]

/-- What a call of task `t` that has come to `n` has had accepted. -/
def PortOp.sent (t : ℕ) (n : PortNext) : PortOp → List IpcMessage
  | .send _ (some m) => if PortNext.passed n then [m.stamped t] else []
  | _ => []

/-- What it has taken. -/
def PortOp.received (n : PortNext) : PortOp → List IpcMessage
  | .receive _ _ => (PortNext.out n).toList
  | _ => []

/-- A call has moved one message if it is behind its push or pop, and none before. -/
def Single (op : PortOp) (n : PortNext) : Prop :=
  (op.sent 0 n).length + (op.received n).length = if PortNext.passed n then 1 else 0

namespace PortLoc

/-- The calls of a task in order, each with how far it has come. -/
def calls (l : PortLoc) : List (PortOp × PortNext) :=
  l.done.map (fun r => (r.op, .inr (r.status, r.out))) ++ (l.cur.map fun c => (c.1, .inl c.2)).toList

def sent (l : PortLoc) (t k : ℕ) : List IpcMessage := (l.calls[k]?).elim [] fun c => c.1.sent t c.2

def received (l : PortLoc) (k : ℕ) : List IpcMessage := (l.calls[k]?).elim [] fun c => c.1.received c.2

theorem calls_advance (l : PortLoc) (op : PortOp) (n : PortNext) :
    (l.advance op n).calls = l.done.map (fun r => (r.op, .inr (r.status, r.out))) ++ [(op, n)] := by
  rcases n with pc | ⟨st, out⟩
  · rfl
  · simp [advance, calls]

theorem getElem?_calls_of_ne (l : PortLoc) (op : PortOp) (n : PortNext) {k : ℕ} (hk : k ≠ l.done.length) :
    (l.advance op n).calls[k]? = l.calls[k]? := by
  have hlen : (l.done.map fun r => (r.op, (.inr (r.status, r.out) : PortNext))).length = l.done.length := by simp
  rw [calls_advance, calls]
  rcases Nat.lt_or_gt_of_ne hk with h | h
  · rw [List.getElem?_append_left (by omega), List.getElem?_append_left (by omega)]
  · have hcur : (l.cur.map fun c => (c.1, (.inl c.2 : PortNext))).toList.length ≤ 1 := by
      cases l.cur <;> simp
    rw [List.getElem?_eq_none, List.getElem?_eq_none]
    · rw [List.length_append]
      omega
    · rw [List.length_append]
      simp only [List.length_cons, List.length_nil]
      omega

theorem getElem?_calls_self (l : PortLoc) (op : PortOp) (n : PortNext) :
    (l.advance op n).calls[l.done.length]? = some (op, n) := by
  rw [calls_advance, List.getElem?_append_right (by simp)]
  simp

theorem getElem?_calls_cur (l : PortLoc) : l.calls[l.done.length]? = l.cur.map fun c => (c.1, .inl c.2) := by
  rw [calls, List.getElem?_append_right (by simp)]
  cases l.cur <;> simp

end PortLoc

/-- The logs hold what the calls of each task say they have moved. -/
structure Accounted (w : PortWorld) : Prop where
  accepted : ∀ t k, movedBy w.obj.accepted (t, k) = (w.loc t).sent t k
  taken : ∀ t k, movedBy w.obj.taken (t, k) = (w.loc t).received k
  single : ∀ t, ∀ c ∈ (w.loc t).calls, Single c.1 c.2

theorem PortChange.moved {call : ℕ × ℕ} {o o' : PortObj} {op : PortOp} {pc : PortPc} {n : PortNext}
    (hc : PortChange call o op pc o' n) (c : ℕ × ℕ) :
    (c ≠ call → movedBy o'.accepted c = movedBy o.accepted c ∧ movedBy o'.taken c = movedBy o.taken c) ∧
      (movedBy o.accepted call = op.sent call.1 (.inl pc) → movedBy o'.accepted call = op.sent call.1 n) ∧
      (movedBy o.taken call = op.received (.inl pc) → movedBy o'.taken call = op.received n) := by
  cases hc with
  | keep same passed out =>
    rw [same.accepted, same.taken]
    refine ⟨fun _ => ⟨rfl, rfl⟩, fun h => h.trans ?_, fun h => h.trans ?_⟩
    · unfold PortOp.sent
      rw [passed]
    · unfold PortOp.received
      rw [out]
  | push room =>
    simp only [PortObj.push, movedBy_append]
    refine ⟨fun hne => ⟨by simp [hne.symm], trivial⟩, fun h => ?_, fun h => h⟩
    rw [h]
    simp [PortOp.sent, PortNext.passed]
  | pop some_queued =>
    simp only [PortObj.pop, movedBy_append]
    refine ⟨fun hne => ⟨trivial, by simp [hne.symm]⟩, fun h => h, fun h => ?_⟩
    rw [h]
    simp [PortOp.received, PortNext.out]

theorem PortChange.single {call : ℕ × ℕ} {o o' : PortObj} {op : PortOp} {pc : PortPc} {n : PortNext}
    (hc : PortChange call o op pc o' n) (h : Single op (.inl pc)) : Single op n := by
  cases hc with
  | keep same passed out =>
    unfold Single PortOp.sent PortOp.received at *
    rw [passed, out]
    exact h
  | push room => rfl
  | pop some_queued => rfl

theorem Accounted.advance {w : PortWorld} {o' : PortObj} {ts : Tasks} {t : ℕ} {op : PortOp} {n : PortNext}
    (h : Accounted w)
    (hother : ∀ c, c ≠ (t, (w.loc t).done.length) →
      movedBy o'.accepted c = movedBy w.obj.accepted c ∧ movedBy o'.taken c = movedBy w.obj.taken c)
    (hsent : movedBy o'.accepted (t, (w.loc t).done.length) = op.sent t n)
    (hreceived : movedBy o'.taken (t, (w.loc t).done.length) = op.received n) (hsingle : Single op n) :
    Accounted ⟨o', ts, Function.update w.loc t ((w.loc t).advance op n)⟩ := by
  have hcalls : ∀ i k, (i, k) ≠ (t, (w.loc t).done.length) →
      (Function.update w.loc t ((w.loc t).advance op n) i).calls[k]? = (w.loc i).calls[k]? := by
    intro i k hne
    by_cases hi : i = t
    · subst hi
      rw [Function.update_self]
      exact PortLoc.getElem?_calls_of_ne _ _ _ fun e => hne (by rw [e])
    · rw [Function.update_of_ne hi]
  have hself : (Function.update w.loc t ((w.loc t).advance op n) t).calls[(w.loc t).done.length]? =
      some (op, n) := by
    rw [Function.update_self]
    exact PortLoc.getElem?_calls_self _ _ _
  refine ⟨fun i k => ?_, fun i k => ?_, fun i c hc => ?_⟩
  · by_cases hik : (i, k) = (t, (w.loc t).done.length)
    · cases hik
      unfold PortLoc.sent
      rw [hself]
      exact hsent
    · unfold PortLoc.sent
      rw [hcalls i k hik]
      exact (hother _ hik).1.trans (h.accepted i k)
  · by_cases hik : (i, k) = (t, (w.loc t).done.length)
    · cases hik
      unfold PortLoc.received
      rw [hself]
      exact hreceived
    · unfold PortLoc.received
      rw [hcalls i k hik]
      exact (hother _ hik).2.trans (h.taken i k)
  · obtain ⟨k, hk⟩ := List.getElem?_of_mem hc
    by_cases hik : (i, k) = (t, (w.loc t).done.length)
    · cases hik
      rw [hself] at hk
      cases hk
      exact hsingle
    · have hk' := (hcalls i k hik).symm.trans hk
      exact h.single i c (List.mem_of_getElem? hk')

theorem accounted_step {w : PortWorld} {t : ℕ} {o' : PortObj} {l' : PortLoc} {eff : Effect} (h : Accounted w)
    (hs : portStep w.tasks.live t w.obj (w.loc t) = some (o', l', eff)) :
    Accounted ⟨o', eff.apply t w.tasks, Function.update w.loc t l'⟩ ∧ (PortInv w.obj → PortInv o') := by
  obtain ⟨⟨op, pc⟩, hcur, hs⟩ := Option.bind_eq_some_iff.mp hs
  obtain ⟨⟨o₁, n, eff₁⟩, hstep, hs⟩ := Option.bind_eq_some_iff.mp hs
  cases hs
  have hc := (step_move hstep).change
  have hthere : (w.loc t).calls[(w.loc t).done.length]? = some (op, .inl pc) := by
    rw [PortLoc.getElem?_calls_cur, hcur]
    rfl
  have hsent : movedBy w.obj.accepted (t, (w.loc t).done.length) = op.sent t (.inl pc) := by
    rw [h.accepted, PortLoc.sent, hthere]
    rfl
  have hreceived : movedBy w.obj.taken (t, (w.loc t).done.length) = op.received (.inl pc) := by
    rw [h.taken, PortLoc.received, hthere]
    rfl
  refine ⟨h.advance (fun c hne => (hc.moved c).1 hne) ((hc.moved (0, 0)).2.1 hsent)
    ((hc.moved (0, 0)).2.2 hreceived) (hc.single (h.single t _ (List.mem_of_getElem? hthere))), hc.inv⟩

theorem accounted_start {w : PortWorld} {t : ℕ} {c : PortCall} {l' : PortLoc} (h : Accounted w)
    (hs : portStart c (w.loc t) = some l') : Accounted { w with loc := Function.update w.loc t l' } := by
  unfold portStart at hs
  split at hs
  · cases hs
  · rename_i hcur
    cases hs
    have hnone : (w.loc t).calls[(w.loc t).done.length]? = none := by
      rw [PortLoc.getElem?_calls_cur, hcur]
      rfl
    have hpassed : PortNext.passed (if c.null then failed .errInvalid else .inl c.op.entry) = false := by
      cases c.op <;> simp only [PortOp.entry] <;> split_ifs <;> rfl
    have hout : PortNext.out (if c.null then failed .errInvalid else .inl c.op.entry) = none := by
      cases c.op <;> simp only [PortOp.entry] <;> split_ifs <;> rfl
    have hsent : ∀ i, c.op.sent i (if c.null then failed .errInvalid else .inl c.op.entry) = [] := by
      intro i
      unfold PortOp.sent
      rw [hpassed]
      split <;> rfl
    have hreceived : c.op.received (if c.null then failed .errInvalid else .inl c.op.entry) = [] := by
      unfold PortOp.received
      rw [hout]
      split <;> rfl
    refine h.advance (fun _ _ => ⟨rfl, rfl⟩) ?_ ?_ ?_
    · rw [h.accepted, PortLoc.sent, hnone, hsent]
      rfl
    · rw [h.taken, PortLoc.received, hnone, hreceived]
      rfl
    · unfold Single
      rw [hsent, hreceived, hpassed]
      rfl

theorem port_next {w w' : PortWorld} {e : Event PortCall} (hfresh : portCode.Fresh w)
    (h : Accounted w ∧ PortInv w.obj) (hn : portSystem.next w e = some w') : Accounted w' ∧ PortInv w'.obj := by
  rcases Code.next_cases hn with ⟨id, c, l, -, -, hs, rfl⟩ | ⟨id, o, l, eff, -, -, hs, rfl⟩ | ⟨id, -, rfl⟩ |
    ⟨id, -, rfl⟩ | ⟨-, rfl⟩
  · exact ⟨accounted_start h.1 hs, h.2⟩
  · obtain ⟨hacc, hinv⟩ := accounted_step h.1 hs
    exact ⟨hacc, hinv h.2⟩
  · exact ⟨⟨h.1.accepted, h.1.taken, h.1.single⟩, h.2⟩
  · exact ⟨⟨h.1.accepted, h.1.taken, h.1.single⟩, h.2⟩
  · -- the new task has made no call yet, and neither had anyone under its id
    have hrest : Function.update w.loc w.tasks.nextId portCode.rest = w.loc := by
      rw [← (hfresh _ le_rfl).1, Function.update_eq_self]
    rw [hrest]
    exact ⟨⟨h.1.accepted, h.1.taken, h.1.single⟩, h.2⟩

theorem port_inv {ok : PortWorld → Event PortCall → Prop} {w : PortWorld} (h : portSystem.ReachableIf ok w) :
    Accounted w ∧ PortInv w.obj := by
  refine h.invariantFrom (I := fun w => Accounted w ∧ PortInv w.obj) (fun _ => Code.fresh) ?_
    fun _ _ _ hf hi _ hn => port_next hf hi hn
  rintro w ⟨_, ⟨p, hp, rfl⟩, rfl⟩
  refine ⟨⟨fun t k => ?_, fun t k => ?_, fun t c hc => ?_⟩, created_inv hp⟩
  · simp [Code.boot, portCode, movedBy, PortLoc.sent, PortLoc.calls]
  · simp [Code.boot, portCode, movedBy, PortLoc.received, PortLoc.calls]
  · simp [Code.boot, portCode, PortLoc.calls] at hc

/-- The finished call number `k` of task `t` has moved one message if it returned
`IpcOk`, its own in the direction of the call, and none otherwise. -/
def MovedOnce (w : PortWorld) (t k : ℕ) (r : Outcome) : Prop :=
  match r.op with
  | .send _ message => movedBy w.obj.taken (t, k) = [] ∧
      if r.status = .ok then ∃ m, message = some m ∧ movedBy w.obj.accepted (t, k) = [m.stamped t]
      else movedBy w.obj.accepted (t, k) = []
  | .receive _ _ => movedBy w.obj.accepted (t, k) = [] ∧
      if r.status = .ok then ∃ m, r.out = some m ∧ movedBy w.obj.taken (t, k) = [m]
      else movedBy w.obj.taken (t, k) = []

theorem Accounted.movedOnce {w : PortWorld} (h : Accounted w) {t k : ℕ} {r : Outcome}
    (hr : (w.loc t).done[k]? = some r) : MovedOnce w t k r := by
  have hk := (List.getElem?_eq_some_iff.mp hr).1
  have hcall : (w.loc t).calls[k]? = some (r.op, .inr (r.status, r.out)) := by
    rw [PortLoc.calls, List.getElem?_append_left (by simpa using hk), List.getElem?_map, hr]
    rfl
  have hsent : movedBy w.obj.accepted (t, k) = r.op.sent t (.inr (r.status, r.out)) := by
    rw [h.accepted, PortLoc.sent, hcall]
    rfl
  have hreceived : movedBy w.obj.taken (t, k) = r.op.received (.inr (r.status, r.out)) := by
    rw [h.taken, PortLoc.received, hcall]
    rfl
  have hsingle := h.single t _ (List.mem_of_getElem? hcall)
  unfold MovedOnce
  rw [hsent, hreceived]
  unfold Single at hsingle
  cases hop : r.op with
  | send block message =>
    refine ⟨rfl, ?_⟩
    cases message with
    | none =>
      simp only [hop, PortOp.sent, PortOp.received, PortNext.passed] at hsingle
      rw [if_neg]
      · rfl
      · intro hst
        simp [hst] at hsingle
    | some m =>
      split_ifs with hst
      · exact ⟨m, rfl, by simp [PortOp.sent, PortNext.passed, hst]⟩
      · simp [PortOp.sent, PortNext.passed, hst]
  | receive block out =>
    refine ⟨rfl, ?_⟩
    simp only [hop, PortOp.sent, PortOp.received, PortNext.passed, PortNext.out] at hsingle ⊢
    cases hout : r.out with
    | none =>
      rw [if_neg]
      · rfl
      · intro hst
        simp [hst, hout] at hsingle
    | some m =>
      rw [if_pos]
      · exact ⟨m, rfl, rfl⟩
      · by_contra hst
        simp [hst, hout] at hsingle

/-- An accepted message is the one its call sends, under the id of the sender. -/
theorem Accounted.stamped {w : PortWorld} (h : Accounted w) {t k : ℕ} {m : IpcMessage}
    (hm : ((t, k), m) ∈ w.obj.accepted) :
    ∃ block m₀ n, (w.loc t).calls[k]? = some (.send block (some m₀), n) ∧ m = m₀.stamped t := by
  have hin : m ∈ movedBy w.obj.accepted (t, k) :=
    List.mem_map.mpr ⟨_, List.mem_filter.mpr ⟨hm, by simp⟩, rfl⟩
  rw [h.accepted, PortLoc.sent] at hin
  cases hcall : (w.loc t).calls[k]? with
  | none => simp [hcall] at hin
  | some c =>
    obtain ⟨op, n⟩ := c
    rw [hcall] at hin
    simp only [Option.elim_some] at hin
    unfold PortOp.sent at hin
    split at hin
    · rename_i block m₀
      split_ifs at hin
      · exact ⟨block, m₀, n, rfl, List.mem_singleton.mp hin⟩
      · cases hin
    · cases hin

/-- Exactly once, in order, under the sender's id: the accepted messages are those
taken followed by those in the slots. -/
theorem port_exactly_once {w : PortWorld} (h : portSystem.Reachable w) :
    w.obj.accepted.map Prod.snd = w.obj.taken.map Prod.snd ++
        (List.range w.obj.port.count).map (fun i => w.obj.port.slots ((w.obj.port.head + i) % 16)) ∧
      w.obj.port.head < 16 ∧ w.obj.port.count ≤ 16 ∧
      (∀ t k r, (w.loc t).done[k]? = some r → MovedOnce w t k r) ∧
      (∀ t k m, ((t, k), m) ∈ w.obj.accepted →
        ∃ block m₀ n, (w.loc t).calls[k]? = some (.send block (some m₀), n) ∧ m = m₀.stamped t) ∧
      ∀ c m, (c, m) ∈ w.obj.taken → ∃ t k, ((t, k), m) ∈ w.obj.accepted := by
  obtain ⟨hacc, hinv⟩ := port_inv h
  refine ⟨hinv.fifo, hinv.head, hinv.count, fun t k r => hacc.movedOnce, fun t k m => hacc.stamped,
    fun c m hm => ?_⟩
  have hin : m ∈ w.obj.accepted.map Prod.snd := by
    rw [hinv.fifo]
    exact List.mem_append_left _ (List.mem_map_of_mem hm)
  obtain ⟨⟨⟨t, k⟩, m'⟩, hmem, rfl⟩ := List.mem_map.mp hin
  exact ⟨t, k, hmem⟩

def zeroPort : IpcPort := ⟨0, 0, 0, fun _ => ⟨0, 0, fun _ => 0⟩, emptyWait, emptyWait⟩

theorem port_boot : portSystem.init (portCode.boot ⟨(ipcPortCreate zeroPort).1, [], []⟩) :=
  ⟨_, ⟨zeroPort, by decide, rfl⟩, rfl⟩

/-- Task 1 parks for a message, the idle task sends one and wakes it. -/
theorem port_exactly_once_parked_receiver :
    ∃ w r, portSystem.Reachable w ∧ (w.loc 1).done[0]? = some r ∧ r.status = .ok ∧ MovedOnce w 1 0 r := by
  obtain ⟨w, -, hw, hp⟩ := System.exists_reachableIf (S := portSystem) (fun _ _ => True) port_boot
    ([.create, .call 1 ⟨.receive true true, false⟩] ++ List.replicate 4 (.step 1) ++
      [.call 0 ⟨.send true (some ⟨1, 9, fun _ => 7⟩), false⟩] ++ List.replicate 5 (.step 0) ++
      List.replicate 5 (.step 1))
    (fun w => ((w.loc 1).done[0]?).any fun r => r.status = .ok) (by decide +kernel)
  obtain ⟨r, hr, hst⟩ := (Option.any_eq_true _ _).mp hp
  exact ⟨w, r, hw, hr, of_decide_eq_true hst, (port_exactly_once hw).2.2.2.1 1 0 r hr⟩

end Novium.Ipc
