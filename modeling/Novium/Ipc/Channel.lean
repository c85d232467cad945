import Novium.Ipc.PortFifo
import Novium.Ipc.Quiescent

/-! A port between two tasks, one that only receives and one that only sends. Neither can fail, and the `k`-th call of
the receiver returns the message of the `k`-th call of the sender. -/

namespace Novium.Ipc

open Novium.Lib

theorem move_succeeds {live : ℕ → Bool} {call : ℕ × ℕ} {o o' : PortObj} {op : PortOp} {pc : PortPc} {n : PortNext}
    {eff : Effect} (hm : PortMove live call o op pc o' n eff) (hid : call.1 ≠ 0)
    (hcreated : ipcPortIsCreated o.port = true) (hvalid : op.valid = true) (hblocks : op.blocks = true)
    (hroom : (op.side.queue o.port).count < ipcMaxWaiters) {st : IpcStatus} {out : Option IpcMessage}
    (hn : n = .inr (st, out)) : st = .ok := by
  cases hm with
  | reject _ hbad =>
    rw [hcreated, hvalid] at hbad
    simp at hbad
  | giveUp _ hno =>
    rw [hblocks] at hno
    cases hno
  | pass | enter | wait | push | pop => cases hn
  | park p =>
    cases p with
    | woken => cases hn
    | check =>
      simp only [ipcPark, if_neg hid] at hn
      split_ifs at hn
      · cases hn
      · obtain ⟨q, hadd⟩ := ipcWaitAdd_room call.1 hroom
        rw [hadd] at hn
        cases hn
  | @wake _ _ _ r =>
    cases r with
    | none =>
      cases hn
      rfl
    | some p => cases hn

theorem portStep_some (live : ℕ → Bool) (self : ℕ) {o : PortObj} {l : PortLoc} {op : PortOp} {pc : PortPc}
    (hcur : l.cur = some (op, pc)) (hvalid : op.valid = true) (hwf : ∀ s : PortSide, WellFormed (s.queue o.port)) :
    ∃ r, portStep live self o l = some r := by
  have hwake : ∀ (s : PortSide) (p : WakePc), ∃ r, ipcWakeOne live (s.queue o.port) p = some r := by
    intro s p
    cases p with
    | take =>
      obtain ⟨q, id, htake, -⟩ := ipcWaitTakeLive_spec live (hwf s)
      exact ⟨_, congrArg (Option.map _) htake⟩
    | wake id => exact ⟨_, rfl⟩
  have hstep : ∃ r, op.step live (self, l.done.length) o pc = some r := by
    cases op with
    | send block message =>
      cases message with
      | none => cases hvalid
      | some m =>
        cases pc with
        | test | tryTest =>
          simp only [PortOp.step, sendStep]
          split_ifs <;> exact ⟨_, rfl⟩
        | «try» =>
          simp only [PortOp.step, sendStep, Option.bind_eq_bind, Option.bind_some]
          split_ifs <;> exact ⟨_, rfl⟩
        | park p => exact ⟨_, rfl⟩
        | wake out p =>
          obtain ⟨⟨q, r, eff⟩, hr⟩ := hwake .receivers p
          exact ⟨_, congrArg (Option.bind · _) hr⟩
    | receive block out =>
      cases pc with
      | test | tryTest | «try» =>
        simp only [PortOp.step, receiveStep]
        split_ifs <;> exact ⟨_, rfl⟩
      | park p => exact ⟨_, rfl⟩
      | wake out p =>
        obtain ⟨⟨q, r, eff⟩, hr⟩ := hwake .senders p
        exact ⟨_, congrArg (Option.bind · _) hr⟩
  obtain ⟨⟨o', n, eff⟩, hr⟩ := hstep
  refine ⟨(o', l.advance op n, eff), ?_⟩
  simp only [portStep, hcur, Option.bind_eq_bind, Option.bind_some, hr]

/-- What the calls of a task that are behind their push or pop have written to `*out`. -/
def handled (l : PortLoc) : List (Option IpcMessage) :=
  l.done.map Outcome.out ++
    (l.cur.elim [] fun c => if PortNext.passed (.inl c.2) then [PortNext.out (.inl c.2)] else [])

theorem handled_advance (l : PortLoc) (op : PortOp) {n : PortNext} (hok : ∀ st out, n = .inr (st, out) → st = .ok) :
    handled (l.advance op n) = l.done.map Outcome.out ++ if PortNext.passed n then [PortNext.out n] else [] := by
  cases n with
  | inl pc => rfl
  | inr ret =>
    obtain ⟨st, out⟩ := ret
    obtain rfl := hok st out rfl
    simp [handled, PortLoc.advance, PortNext.passed, PortNext.out]

/-- The `k`-th call of a task is `op k`, and those that have returned have succeeded. -/
structure Calls (l : PortLoc) (op : ℕ → PortOp) : Prop where
  done : ∀ r ∈ l.done, r.status = .ok
  cur : ∀ c, l.cur = some c → c.1 = op l.done.length

theorem Calls.advance {l : PortLoc} {ops : ℕ → PortOp} {op : PortOp} {n : PortNext} (h : Calls l ops)
    (hop : op = ops l.done.length) (hok : ∀ st out, n = .inr (st, out) → st = .ok) : Calls (l.advance op n) ops := by
  cases n with
  | inl pc =>
    refine ⟨h.done, fun c hc => ?_⟩
    obtain rfl := Option.some.inj hc
    exact hop
  | inr ret =>
    obtain ⟨st, out⟩ := ret
    refine ⟨fun r hr => ?_, fun c hc => by cases hc⟩
    obtain hr | hr := List.mem_append.mp hr
    · exact h.done r hr
    · obtain rfl := List.mem_singleton.mp hr
      exact hok st out rfl

theorem handled_cur {l : PortLoc} {op : PortOp} {pc : PortPc} (hcur : l.cur = some (op, pc)) :
    handled l = l.done.map Outcome.out ++ if PortNext.passed (.inl pc) then [PortNext.out (.inl pc)] else [] := by
  rw [handled, hcur]
  rfl

/-- What a task that goes on to `l'` in a call adds to the logs. -/
inductive Logs (call : ℕ × ℕ) (o o' : PortObj) (l l' : PortLoc) : PortOp → Prop where
  | keep {op : PortOp} (handled : handled l' = handled l) (accepted : o'.accepted = o.accepted)
      (taken : o'.taken = o.taken) : Logs call o o' l l' op
  | send {block : Bool} {m : IpcMessage} (first : (handled l).length = l.done.length)
      (handled : handled l' = handled l ++ [none]) (accepted : o'.accepted = o.accepted ++ [(call, m.stamped call.1)])
      (taken : o'.taken = o.taken) : Logs call o o' l l' (.send block (some m))
  | receive {block out : Bool} {m : IpcMessage} (handled : handled l' = handled l ++ [some m])
      (accepted : o'.accepted = o.accepted) (taken : o'.taken = o.taken ++ [(call, m)]) :
      Logs call o o' l l' (.receive block out)

theorem PortChange.logs {call : ℕ × ℕ} {o o' : PortObj} {l : PortLoc} {op : PortOp} {pc : PortPc} {n : PortNext}
    (hc : PortChange call o op pc o' n) (hcur : l.cur = some (op, pc))
    (hok : ∀ st out, n = .inr (st, out) → st = .ok) : Logs call o o' l (l.advance op n) op := by
  have hnext := handled_advance l op hok
  have hnow := handled_cur hcur
  cases hc with
  | keep same passed out =>
    rw [passed, out, ← hnow] at hnext
    exact .keep hnext same.accepted same.taken
  | push => exact .send (by simp [hnow, PortNext.passed]) (by rw [hnext, hnow]; simp [PortNext.passed, PortNext.out]) rfl rfl
  | pop => exact .receive (by rw [hnext, hnow]; simp [PortNext.passed, PortNext.out]) rfl rfl

section

variable {message : ℕ → IpcMessage} {receiver sender : Option ℕ} {w w' : PortWorld}

/-- Where a task stands, at rest as long as there is none. -/
def locOf (w : PortWorld) (id : Option ℕ) : PortLoc := id.elim ⟨[], none⟩ w.loc

/-- Nobody uses the port but the two, neither of them the idle task, and the sender sends `message k` in its `k`-th
call. -/
structure Channel (message : ℕ → IpcMessage) (receiver sender : Option ℕ) (w : PortWorld) : Prop where
  rest : ∀ i, receiver ≠ some i → sender ≠ some i → w.loc i = ⟨[], none⟩
  apart : ∀ i, receiver = some i → sender ≠ some i
  alive : ∀ i, receiver = some i ∨ sender = some i → i ≠ 0 ∧ w.tasks.live i = true
  short : ∀ k, (message k).length ≤ ipcMessageWords
  receives : Calls (locOf w receiver) fun _ => .receive true true
  sends : Calls (locOf w sender) fun k => .send true (some (message k))
  taken : handled (locOf w receiver) = w.obj.taken.map fun e => some e.2
  accepted : w.obj.accepted.map Prod.snd =
    (List.range (handled (locOf w sender)).length).map fun k => (message k).stamped (sender.getD 0)

theorem locOf_of_ne {o : PortObj} {ts : Tasks} {i : ℕ} {l : PortLoc} {id : Option ℕ} (h : id ≠ some i) :
    locOf ⟨o, ts, Function.update w.loc i l⟩ id = locOf w id := by
  cases id with
  | none => rfl
  | some j => exact Function.update_of_ne (fun e => h (congrArg some e)) _ _

theorem locOf_self (o : PortObj) (ts : Tasks) (i : ℕ) (l : PortLoc) :
    locOf ⟨o, ts, Function.update w.loc i l⟩ (some i) = l :=
  Function.update_self ..

theorem create_next (hf : portCode.Fresh w) : portCode.next w .create = some { w with tasks := w.tasks.create } := by
  have hloc : Function.update w.loc w.tasks.nextId portCode.rest = w.loc := by
    rw [← (hf w.tasks.nextId le_rfl).1, Function.update_eq_self]
  simp only [Code.next, hloc]

theorem create_alive (ts : Tasks) (i : ℕ) (h : ts.live i = true) : ts.create.live i = true := by
  rw [Tasks.create_live]
  split_ifs
  · rfl
  · exact h

theorem locOf_new (hf : portCode.Fresh w) (ts : Tasks) :
    locOf ⟨w.obj, ts, w.loc⟩ (some w.tasks.nextId) = locOf w none :=
  (hf w.tasks.nextId le_rfl).1

namespace Channel

theorem one_waits (h : Channel message receiver sender w) {ok : PortWorld → Event PortCall → Prop}
    (hw : portSystem.ReachableIf ok w) (s : PortSide) : ∃ id, ∀ x ∈ s.queue w.obj.port, x = id := by
  have hseat := port_seated s hw
  have hside : ∀ x ∈ s.queue w.obj.port, ∃ op pc, (w.loc x).cur = some (op, pc) ∧ op.side = s := by
    intro x hx
    have hpark : PortLoc.role s (w.loc x) = .park .woken := of_decide_eq_true (hseat.asleep x hx)
    unfold PortLoc.role at hpark
    split at hpark
    next op pc hcur =>
      refine ⟨op, pc, hcur, ?_⟩
      by_contra hs
      rw [role_across hs] at hpark
      split at hpark
      next p =>  cases p <;> cases hpark
      · cases hpark
    · cases hpark
  refine ⟨(match s with | .receivers => receiver | .senders => sender).getD 0, fun x hx => ?_⟩
  obtain ⟨op, pc, hcur, rfl⟩ := hside x hx
  by_cases hr : receiver = some x
  · subst hr
    have hop := h.receives.cur _ hcur
    simp only at hop
    subst hop
    rfl
  by_cases hsd : sender = some x
  · subst hsd
    have hop := h.sends.cur _ hcur
    simp only at hop
    subst hop
    rfl
  rw [h.rest x hr hsd] at hcur
  cases hcur

theorem room (h : Channel message receiver sender w) {ok : PortWorld → Event PortCall → Prop}
    (hw : portSystem.ReachableIf ok w) (s : PortSide) : (s.queue w.obj.port).count < ipcMaxWaiters := by
  obtain ⟨id, hid⟩ := h.one_waits hw s
  have hwf : WellFormed (s.queue w.obj.port) := (port_seated s hw).wellFormed
  by_contra hfull
  have h16 : ipcMaxWaiters = 16 := rfl
  have h0 : (s.queue w.obj.port).ids 0 = id := hid _ ⟨0, by omega, rfl⟩
  have h1 : (s.queue w.obj.port).ids 1 = id := hid _ ⟨1, by omega, rfl⟩
  have := hwf.distinct 0 (by omega) 1 (by omega) (h0.trans h1.symm)
  omega

theorem advance (h : Channel message receiver sender w) {id : ℕ} {op : PortOp} {n : PortNext} {o' : PortObj} {ts : Tasks}
    (hid : (receiver = some id ∧ op = .receive true true) ∨
      (sender = some id ∧ op = .send true (some (message (w.loc id).done.length))))
    (halive : ∀ i, w.tasks.live i = true → ts.live i = true) (hok : ∀ st out, n = .inr (st, out) → st = .ok)
    (hlogs : Logs (id, (w.loc id).done.length) w.obj o' (w.loc id) ((w.loc id).advance op n) op) :
    Channel message receiver sender ⟨o', ts, Function.update w.loc id ((w.loc id).advance op n)⟩ := by
  have hrest : ∀ i, receiver ≠ some i → sender ≠ some i →
      Function.update w.loc id ((w.loc id).advance op n) i = ⟨[], none⟩ := by
    intro i hr hsd
    rw [Function.update_of_ne (fun e => by subst e; exact hid.elim (hr ·.1) (hsd ·.1))]
    exact h.rest i hr hsd
  have hids : ∀ i, receiver = some i ∨ sender = some i → i ≠ 0 ∧ ts.live i = true :=
    fun i hi => (h.alive i hi).imp_right (halive i)
  obtain ⟨rfl, rfl⟩ | ⟨rfl, rfl⟩ := hid
  · have hne : sender ≠ some id := h.apart id rfl
    have htaken : handled (w.loc id) = w.obj.taken.map fun e => some e.2 := h.taken
    refine ⟨hrest, h.apart, hids, h.short, ?_, ?_, ?_, ?_⟩
    · rw [locOf_self]
      exact h.receives.advance rfl hok
    · rw [locOf_of_ne hne]
      exact h.sends
    · rw [locOf_self]
      cases hlogs with
      | keep hh _ ht => rw [hh, ht, htaken]
      | receive hh _ ht =>
        rw [hh, ht, htaken, List.map_append]
        rfl
    · rw [locOf_of_ne hne]
      cases hlogs with
      | keep _ ha _ | receive _ ha _ => exact ha ▸ h.accepted
  · have hne : receiver ≠ some id := fun e => h.apart id e rfl
    have haccepted : w.obj.accepted.map Prod.snd =
        (List.range (handled (w.loc id)).length).map fun k => (message k).stamped id := h.accepted
    refine ⟨hrest, h.apart, hids, h.short, ?_, ?_, ?_, ?_⟩
    · rw [locOf_of_ne hne]
      exact h.receives
    · rw [locOf_self]
      exact h.sends.advance rfl hok
    · rw [locOf_of_ne hne]
      cases hlogs with
      | keep _ _ ht | send _ _ _ ht => exact ht ▸ h.taken
    · rw [locOf_self]
      cases hlogs with
      | keep hh ha _ => rw [hh, ha, haccepted]; rfl
      | send hfirst hh ha _ =>
        rw [hh, ha, List.map_append, haccepted, List.length_append, hfirst, List.length_singleton, List.range_succ,
          List.map_append]
        rfl

theorem step (h : Channel message receiver sender w) {ok : PortWorld → Event PortCall → Prop}
    (hw : portSystem.ReachableIf ok w) {id : ℕ} (hid : receiver = some id ∨ sender = some id)
    (hn : portCode.next w (.step id) = some w') : Channel message receiver sender w' := by
  obtain ⟨o, l, eff, hrun, hs, rfl⟩ := Code.step_cases hn
  obtain ⟨op, pc, n, hcur, rfl, hm⟩ := portStep_move hs
  have hop : (receiver = some id ∧ op = .receive true true) ∨
      (sender = some id ∧ op = .send true (some (message (w.loc id).done.length))) := by
    refine hid.imp (fun e => ⟨e, ?_⟩) fun e => ⟨e, ?_⟩
    · subst e
      exact h.receives.cur _ hcur
    · subst e
      exact h.sends.cur _ hcur
  have hgood : op.valid = true ∧ op.blocks = true := by
    obtain ⟨-, rfl⟩ | ⟨-, rfl⟩ := hop
    · exact ⟨rfl, rfl⟩
    · exact ⟨by simp [PortOp.valid, h.short], rfl⟩
  have hok : ∀ st out, n = .inr (st, out) → st = .ok := fun st out he =>
    move_succeeds hm (h.alive id hid).1 (port_inUse hw id).created hgood.1 hgood.2 (h.room hw _) he
  exact h.advance hop (fun i hi => by rwa [Effect.apply_live hrun]) hok (hm.change.logs hcur hok)

theorem start (h : Channel message receiver sender w) {id : ℕ} {op : PortOp}
    (hid : (receiver = some id ∧ op = .receive true true) ∨
      (sender = some id ∧ op = .send true (some (message (w.loc id).done.length))))
    (hn : portCode.next w (.call id ⟨op, false⟩) = some w') :
    (w.loc id).cur = none ∧ w' = { w with loc := Function.update w.loc id ((w.loc id).advance op (.inl op.entry)) } ∧
      Channel message receiver sender w' := by
  obtain ⟨id', c, l, he, -, hs, rfl⟩ | ⟨_, _, _, _, he, -⟩ | ⟨_, he, -⟩ | ⟨_, he, -⟩ | ⟨he, -⟩ := Code.next_cases hn
  · cases he
    obtain ⟨hcur, rfl⟩ : (w.loc id).cur = none ∧ l = (w.loc id).advance op (.inl op.entry) := by
      unfold portCode portStart at hs
      simp only at hs
      split at hs
      · cases hs
      · next hcur => exact ⟨hcur, (Option.some.inj hs).symm⟩
    refine ⟨hcur, rfl, h.advance hid (fun _ hi => hi) (fun st out he => by cases he) (.keep ?_ rfl rfl)⟩
    have hpassed : PortNext.passed (.inl op.entry) = false := by
      obtain ⟨-, he⟩ | ⟨-, he⟩ := entry_cases op <;> rw [he] <;> rfl
    rw [handled_advance _ _ (fun st out he => by cases he), hpassed, handled, hcur]
    rfl
  all_goals cases he

theorem step_some (h : Channel message receiver sender w) {ok : PortWorld → Event PortCall → Prop}
    (hw : portSystem.ReachableIf ok w) {id : ℕ} (hid : receiver = some id ∨ sender = some id)
    (hrun : w.tasks.run id = .runnable) {c : PortOp × PortPc} (hcur : (w.loc id).cur = some c) :
    ∃ w', portCode.next w (.step id) = some w' := by
  have hvalid : c.1.valid = true := by
    rcases hid with rfl | rfl
    · rw [h.receives.cur _ hcur]
      rfl
    · rw [h.sends.cur _ hcur]
      simp [PortOp.valid, h.short]
  obtain ⟨o, ho⟩ := portStep_some w.tasks.live id hcur hvalid fun s => (port_seated s hw).wellFormed
  exact ⟨_, by simp only [Code.next, hrun, if_true]; exact congrArg (Option.map _) ho⟩

theorem others (h : Channel message receiver sender w) {ts : Tasks}
    (halive : ∀ i, w.tasks.live i = true → ts.live i = true) :
    Channel message receiver sender { w with tasks := ts } :=
  ⟨h.rest, h.apart, fun i hi => (h.alive i hi).imp_right (halive i), h.short, h.receives, h.sends, h.taken, h.accepted⟩

theorem create_receiver (h : Channel message none sender w) (hf : portCode.Fresh w) (hpos : w.tasks.nextId ≠ 0) :
    Channel message (some w.tasks.nextId) sender { w with tasks := w.tasks.create } where
  rest i _ hsd := h.rest i (by simp) hsd
  apart i hi hsd := by
    obtain rfl := Option.some.inj hi
    exact (Code.live_lt hf (h.alive _ (.inr hsd)).2).ne rfl
  alive i hi := by
    obtain hi | hi := hi
    · obtain rfl := Option.some.inj hi
      exact ⟨hpos, by simp [Tasks.create_live]⟩
    · exact (h.alive i (.inr hi)).imp_right (create_alive _ i)
  short := h.short
  receives := by
    rw [locOf_new hf]
    exact h.receives
  sends := h.sends
  taken := by
    rw [locOf_new hf]
    exact h.taken
  accepted := h.accepted

theorem create_sender (h : Channel message receiver none w) (hf : portCode.Fresh w) (hpos : w.tasks.nextId ≠ 0) :
    Channel message receiver (some w.tasks.nextId) { w with tasks := w.tasks.create } where
  rest i hr _ := h.rest i hr (by simp)
  apart i hr hi := by
    obtain rfl := Option.some.inj hi
    exact (Code.live_lt hf (h.alive _ (.inl hr)).2).ne rfl
  alive i hi := by
    obtain hi | hi := hi
    · exact (h.alive i (.inl hi)).imp_right (create_alive _ i)
    · obtain rfl := Option.some.inj hi
      exact ⟨hpos, by simp [Tasks.create_live]⟩
  short := h.short
  receives := h.receives
  sends := by
    rw [locOf_new hf]
    exact h.sends
  taken := h.taken
  accepted := by
    rw [locOf_new hf]
    exact h.accepted

theorem count_eq (h : Channel message receiver sender w) {ok : PortWorld → Event PortCall → Prop}
    (hw : portSystem.ReachableIf ok w) :
    (handled (locOf w sender)).length = (handled (locOf w receiver)).length + w.obj.port.count := by
  have hfifo := congrArg List.length (port_inv hw).2.fifo
  have haccepted := congrArg List.length h.accepted
  have htaken := congrArg List.length h.taken
  simp only [List.length_map, List.length_append, List.length_range, IpcPort.queued] at hfifo haccepted htaken
  omega

/-- The `k`-th call of the receiver returns what the `k`-th call of the sender sends, under the id of the sender. -/
theorem received (h : Channel message receiver sender w) {ok : PortWorld → Event PortCall → Prop}
    (hw : portSystem.ReachableIf ok w) {k : ℕ} {r : Outcome} (hr : (locOf w receiver).done[k]? = some r) :
    r.status = .ok ∧ r.out = some ((message k).stamped (sender.getD 0)) := by
  refine ⟨h.receives.done r (List.mem_of_getElem? hr), ?_⟩
  have hk : k < (locOf w receiver).done.length := (List.getElem?_eq_some_iff.mp hr).1
  have hhandled : (handled (locOf w receiver))[k]? = some r.out := by
    rw [handled, List.getElem?_append_left (by simpa using hk), List.getElem?_map, hr]
    rfl
  rw [h.taken, List.getElem?_map, Option.map_eq_some_iff] at hhandled
  obtain ⟨e, he, hout⟩ := hhandled
  have hmem : (w.obj.accepted.map Prod.snd)[k]? = some e.2 := by
    rw [(port_inv hw).2.fifo, List.getElem?_append_left, List.getElem?_map, he]
    · rfl
    · simpa using (List.getElem?_eq_some_iff.mp he).1
  rw [h.accepted, List.getElem?_map, Option.map_eq_some_iff] at hmem
  obtain ⟨j, hj, hmessage⟩ := hmem
  obtain ⟨_, rfl⟩ := List.getElem?_eq_some_iff.mp hj
  rw [← hout, ← hmessage, List.getElem_range]

/-- Whoever sleeps while nobody inside a call can run has found the port empty, or full. -/
theorem sleeps (h : Channel message receiver sender w) (hw : portSystem.ReachableIf SparesCallers w) (hq : Quiescent w)
    {i : ℕ} (hb : w.tasks.run i = .blocked) :
    (receiver = some i → (handled (w.loc i)).length = (w.loc i).done.length ∧ w.obj.port.count = 0) ∧
      (sender = some i → (handled (w.loc i)).length = (w.loc i).done.length ∧ w.obj.port.count = ipcPortCapacity) := by
  obtain ⟨op, hcur⟩ := blocked_parked hw hb
  have hlen : (handled (w.loc i)).length = (w.loc i).done.length := by
    simp [handled_cur hcur, PortNext.passed]
  have havail := (hq.sleeper hw hb hcur).2
  have hbound := (port_inUse hw 0).bound
  refine ⟨fun hr => ⟨hlen, ?_⟩, fun hsd => ⟨hlen, ?_⟩⟩
  · subst hr
    obtain rfl : op = .receive true true := h.receives.cur _ hcur
    exact havail
  · subst hsd
    obtain rfl : op = _ := h.sends.cur _ hcur
    have hfull : ipcPortCapacity - w.obj.port.count = 0 := havail
    omega

end Channel

end

end Novium.Ipc
