import Novium.Ipc.Channel

/-! The rendezvous of `init/main.c`: `ipc_test_tasks` starts a consumer and a producer that pass numbered messages
through one port, more of them than the port can hold. The tasks and the idle task that starts them may be
interleaved in any way. -/

namespace Novium.Selftest

open Novium.Lib Novium.Ipc

/-- Where `ipc_test_tasks` stands behind its `IpcPortCreate`. -/
inductive MainPc where
  | createConsumer | createProducer | setProducerId | waiting
  deriving DecidableEq, Repr

/-- At the head of the `for` loop, inside `IpcReceive` or `IpcSend`, or behind the loop. -/
inductive ClientPc where
  | loop | inCall | finished
  deriving DecidableEq, Repr

/-- The local variables `Index` and `Message`. -/
structure Client where
  pc : ClientPc
  index : ℕ
  message : IpcMessage

structure Rendezvous where
  world : PortWorld
  main : MainPc
  consumer : Option ℕ
  producer : Option ℕ
  receiving : Client
  sending : Client
  producerId : ℕ
  consumerBad : ℕ
  consumerDone : Bool
  producerDone : Bool
  /-- How many messages the consumer has checked before `ProducerId` was written. -/
  early : ℕ

inductive TestEvent where
  | main
  | consumer
  | producer
  | undo (id : ℕ)
  deriving DecidableEq, Repr

def mainStep (r : Rendezvous) : Option Rendezvous :=
  match r.main with
  | .createConsumer =>
    (portCode.next r.world .create).map fun w =>
      { r with world := w, consumer := some r.world.tasks.nextId, main := .createProducer }
  | .createProducer =>
    (portCode.next r.world .create).map fun w =>
      { r with world := w, producer := some r.world.tasks.nextId, main := .setProducerId }
  | .setProducerId => some { r with producerId := r.producer.getD 0, main := .waiting }
  | .waiting => none

def testMessage (message : IpcMessage) (index : ℕ) : IpcMessage :=
  { message with length := 1, data := Function.update message.data 0 index }

def badMessage (m : IpcMessage) (index producerId : ℕ) : Bool :=
  m.length ≠ 1 || m.data 0 ≠ index || m.sender ≠ producerId

def consumerCheck (r : Rendezvous) (outcome : Outcome) : Rendezvous :=
  if outcome.status ≠ .ok then
    { r with
      consumerBad := u32 (r.consumerBad + 1), consumerDone := true
      receiving := { r.receiving with pc := .finished } }
  else
    let message := outcome.out.getD r.receiving.message
    { r with
      consumerBad := if badMessage message r.receiving.index r.producerId then u32 (r.consumerBad + 1) else r.consumerBad
      early := if r.main = .waiting then r.early else r.early + 1
      receiving := ⟨.loop, r.receiving.index + 1, message⟩ }

def producerCheck (r : Rendezvous) (outcome : Outcome) : Rendezvous :=
  if outcome.status ≠ .ok then
    { r with
      consumerBad := u32 (r.consumerBad + 1), producerDone := true
      sending := { r.sending with pc := .finished } }
  else { r with sending := { r.sending with pc := .loop, index := r.sending.index + 1 } }

section

variable (messages : ℕ)

def consumerStep (c : ℕ) (r : Rendezvous) : Option Rendezvous :=
  match r.receiving.pc with
  | .loop =>
    if r.receiving.index < messages then
      (portCode.next r.world (.call c ⟨.receive true true, false⟩)).map fun w =>
        { r with world := w, receiving := { r.receiving with pc := .inCall } }
    else some { r with consumerDone := true, receiving := { r.receiving with pc := .finished } }
  | .inCall =>
    match (r.world.loc c).cur with
    | some _ => (portCode.next r.world (.step c)).map fun w => { r with world := w }
    | none => (r.world.loc c).done.getLast?.map (consumerCheck r)
  | .finished => none

def producerStep (p : ℕ) (r : Rendezvous) : Option Rendezvous :=
  match r.sending.pc with
  | .loop =>
    if r.sending.index < messages then
      let message := testMessage r.sending.message r.sending.index
      (portCode.next r.world (.call p ⟨.send true (some message), false⟩)).map fun w =>
        { r with world := w, sending := { r.sending with pc := .inCall, message := message } }
    else some { r with producerDone := true, sending := { r.sending with pc := .finished } }
  | .inCall =>
    match (r.world.loc p).cur with
    | some _ => (portCode.next r.world (.step p)).map fun w => { r with world := w }
    | none => (r.world.loc p).done.getLast?.map (producerCheck r)
  | .finished => none

/-- A step of a task that has been created and can run. -/
def ifRunnable (id : Option ℕ) (step : ℕ → Rendezvous → Option Rendezvous) (r : Rendezvous) : Option Rendezvous :=
  match id with
  | none => none
  | some id => if r.world.tasks.run id = .runnable then step id r else none

/-- Any interleaving of the three tasks, with blocks that the scheduler undoes. -/
def rendezvous : System Rendezvous TestEvent where
  init r := ∃ (p : IpcPort) (m m' : IpcMessage), p.magic ≠ portMagic ∧
    r = ⟨portCode.boot ⟨(ipcPortCreate p).1, [], []⟩, .createConsumer, none, none, ⟨.loop, 0, m⟩, ⟨.loop, 0, m'⟩,
      0, 0, false, false, 0⟩
  next r
    | .main => mainStep r
    | .consumer => ifRunnable r.consumer (consumerStep messages) r
    | .producer => ifRunnable r.producer (producerStep messages) r
    | .undo id => (portCode.next r.world (.undo id)).map fun w => { r with world := w }

end

/-- How far a task is in its loop and in its calls. -/
structure Client.Fits (messages : ℕ) (x : Client) (l : PortLoc) (finished : Bool) : Prop where
  cur : x.pc ≠ .inCall → l.cur = none
  index : l.done.length = x.index + if x.pc = .inCall ∧ l.cur = none then 1 else 0
  bound : x.index + (if x.pc = .inCall then 1 else 0) ≤ messages
  all : x.pc = .finished → x.index = messages
  flag : finished = decide (x.pc = .finished)

namespace Client.Fits

variable {messages : ℕ} {x : Client} {l : PortLoc} {finished : Bool}

theorem enter (h : x.Fits messages l finished) (hpc : x.pc = .loop) (hlt : x.index < messages) (op : PortOp)
    (pc : PortPc) (m : IpcMessage) : Client.Fits messages ⟨.inCall, x.index, m⟩ (l.advance op (.inl pc)) finished where
  cur hne := absurd rfl hne
  index := by
    have hlen := h.index
    simp only [hpc, reduceCtorEq, false_and, if_false, add_zero] at hlen
    simp [PortLoc.advance, hlen]
  bound := hlt
  all hpc' := by cases hpc'
  flag := by simpa [hpc] using h.flag

theorem step (h : x.Fits messages l finished) (hpc : x.pc = .inCall) {op : PortOp} {pc : PortPc}
    (hcur : l.cur = some (op, pc)) (n : PortNext) : x.Fits messages (l.advance op n) finished where
  cur hne := absurd hpc hne
  index := by
    have hlen := h.index
    simp only [hpc, hcur, reduceCtorEq, and_false, if_false, add_zero] at hlen
    cases n with
    | inl pc' => simp [PortLoc.advance, hlen]
    | inr ret => simp [PortLoc.advance, hlen, hpc]
  bound := h.bound
  all := h.all
  flag := h.flag

theorem back (h : x.Fits messages l finished) (hpc : x.pc = .inCall) (hcur : l.cur = none) (m : IpcMessage) :
    Client.Fits messages ⟨.loop, x.index + 1, m⟩ l finished where
  cur _ := hcur
  index := by simpa [hpc, hcur] using h.index
  bound := by simpa [hpc] using h.bound
  all hpc' := by cases hpc'
  flag := by simpa [hpc] using h.flag

theorem stop (h : x.Fits messages l finished) (hpc : x.pc = .loop) (hge : ¬x.index < messages) (m : IpcMessage) :
    Client.Fits messages ⟨.finished, x.index, m⟩ l true where
  cur _ := h.cur (by simp [hpc])
  index := by simpa [hpc] using h.index
  bound := by simpa [hpc] using h.bound
  all _ := by
    have hle := h.bound
    simp only [hpc, reduceCtorEq, if_false, add_zero] at hle
    exact le_antisymm hle (not_lt.mp hge)
  flag := by simp

theorem getLast (h : x.Fits messages l finished) (hpc : x.pc = .inCall) (hcur : l.cur = none) :
    l.done.getLast? = l.done[x.index]? := by
  have hlen := h.index
  simp only [hpc, hcur, and_self, if_true] at hlen
  rw [List.getLast?_eq_getElem?, hlen, Nat.add_sub_cancel]

end Client.Fits

theorem Client.Fits.handled_of_finished {messages : ℕ} {x : Client} {l : PortLoc} {finished : Bool}
    (h : x.Fits messages l finished) (hdone : finished = true) : (handled l).length = messages := by
  have hpc : x.pc = .finished := of_decide_eq_true (h.flag.symm.trans hdone)
  have hlen := h.index
  simp only [hpc, reduceCtorEq, false_and, if_false, add_zero, h.all hpc] at hlen
  simp [handled, h.cur (by simp [hpc]), hlen]

theorem testMessage_again (m : IpcMessage) (i : ℕ) : testMessage (testMessage m i) = testMessage m := by
  funext k
  simp [testMessage]

structure Sound (messages : ℕ) (r : Rendezvous) : Prop where
  world : portSystem.ReachableIf SparesCallers r.world
  channel : Channel (testMessage r.sending.message) r.consumer r.producer r.world
  consumer : r.consumer = none ↔ r.main = .createConsumer
  producer : r.producer = none ↔ r.main = .createConsumer ∨ r.main = .createProducer
  producerId : r.producerId = if r.main = .waiting then r.producer.getD 0 else 0
  receiving : r.receiving.Fits messages (locOf r.world r.consumer) r.consumerDone
  sending : r.sending.Fits messages (locOf r.world r.producer) r.producerDone
  bad : r.consumerBad = u32 r.early

section

variable {messages : ℕ} {r r' : Rendezvous}

theorem Sound.init (h : (rendezvous messages).init r) : Sound messages r := by
  obtain ⟨p, m, m', hp, rfl⟩ := h
  have hfits : ∀ m : IpcMessage, Client.Fits messages ⟨.loop, 0, m⟩ ⟨[], none⟩ false := fun m =>
    ⟨fun _ => rfl, rfl, Nat.zero_le _, (fun h => by cases h), rfl⟩
  have hcalls : ∀ op, Calls ⟨[], none⟩ op := fun op => ⟨(fun _ h => by cases h), (fun _ h => by cases h)⟩
  refine ⟨.init ⟨_, ⟨p, hp, rfl⟩, rfl⟩, ?_, by simp, by simp, rfl, hfits m, hfits m', rfl⟩
  exact ⟨fun _ _ _ => rfl, (fun _ h => by cases h), (fun _ h => by simp at h), (fun _ => by simp [testMessage, ipcMessageWords]),
    hcalls _, hcalls _, rfl, rfl⟩

theorem Sound.main (h : Sound messages r) (hn : mainStep r = some r') : Sound messages r' := by
  have hfresh : portCode.Fresh r.world := Code.fresh h.world
  have hpos := Code.nextId_ne_zero h.world
  have hcreated : portSystem.ReachableIf SparesCallers { r.world with tasks := r.world.tasks.create } :=
    h.world.step (e := .create) trivial (create_next hfresh)
  unfold mainStep at hn
  rw [create_next hfresh] at hn
  split at hn
  next hmain =>
    obtain rfl := Option.some.inj hn
    have hnone := h.consumer.mpr hmain
    have hchannel := h.channel
    have hfits := h.receiving
    rw [hnone] at hchannel hfits
    exact ⟨hcreated, hchannel.create_receiver hfresh hpos, by simp, by simpa [hmain] using h.producer,
      by simpa [hmain] using h.producerId, by rwa [locOf_new hfresh], h.sending, h.bad⟩
  next hmain =>
    obtain rfl := Option.some.inj hn
    have hnone := h.producer.mpr (.inr hmain)
    have hchannel := h.channel
    have hfits := h.sending
    rw [hnone] at hchannel hfits
    exact ⟨hcreated, hchannel.create_sender hfresh hpos, by simpa [hmain] using h.consumer, by simp,
      by simpa [hmain] using h.producerId, h.receiving, by rwa [locOf_new hfresh], h.bad⟩
  next hmain =>
    obtain rfl := Option.some.inj hn
    exact ⟨h.world, h.channel, by simpa [hmain] using h.consumer, by simpa [hmain] using h.producer, by simp,
      h.receiving, h.sending, h.bad⟩
  · cases hn

theorem Sound.undo (h : Sound messages r) {id : ℕ}
    (hn : ((portCode.next r.world (.undo id)).map fun w => { r with world := w }) = some r') : Sound messages r' := by
  obtain ⟨w, hw, rfl⟩ := Option.map_eq_some_iff.mp hn
  have hreach : portSystem.ReachableIf SparesCallers w := h.world.step (e := .undo id) trivial hw
  obtain ⟨_, _, _, he, -⟩ | ⟨_, _, _, _, he, -⟩ | ⟨_, he, rfl⟩ | ⟨_, he, -⟩ | ⟨he, -⟩ := Code.next_cases hw
  all_goals cases he
  exact ⟨hreach, h.channel.others fun i hi => by rwa [Tasks.wake_live], h.consumer, h.producer, h.producerId, h.receiving,
    h.sending, h.bad⟩

theorem step_loc {w w' : PortWorld} {id : ℕ} (hn : portCode.next w (.step id) = some w') :
    ∃ o ts op pc n, (w.loc id).cur = some (op, pc) ∧ w' = ⟨o, ts, Function.update w.loc id ((w.loc id).advance op n)⟩ := by
  obtain ⟨o, l, eff, -, hs, rfl⟩ := Code.step_cases hn
  obtain ⟨op, pc, n, hcur, rfl, -⟩ := portStep_move hs
  exact ⟨o, _, op, pc, n, hcur, rfl⟩

/-- Nothing is received from nobody. -/
theorem Sound.has_producer (h : Sound messages r) {c : ℕ} (hc : r.consumer = some c) {k : ℕ}
    (hk : k < (r.world.loc c).done.length) : ∃ p, r.producer = some p := by
  refine Option.ne_none_iff_exists'.mp fun hnone => ?_
  have hcount := h.channel.count_eq h.world
  simp only [hc, hnone, locOf, handled, Option.elim_none, Option.elim_some, List.map_nil, List.append_nil,
    List.length_nil, List.length_append, List.length_map] at hcount
  omega

/-- The message that a receive has returned is bad if and only if `ProducerId` has not been written yet. -/
theorem Sound.check (h : Sound messages r) {c : ℕ} (hc : r.consumer = some c) (hpc : r.receiving.pc = .inCall)
    (hcur : (r.world.loc c).cur = none) {outcome : Outcome} (hlast : (r.world.loc c).done.getLast? = some outcome)
    (m : IpcMessage) : outcome.status = .ok ∧
      badMessage (outcome.out.getD m) r.receiving.index r.producerId = decide (r.main ≠ .waiting) := by
  have hfits := h.receiving
  have hloc : locOf r.world r.consumer = r.world.loc c := by rw [hc]; rfl
  rw [hloc] at hfits
  rw [hfits.getLast hpc hcur, ← hloc] at hlast
  obtain ⟨hok, hout⟩ := h.channel.received h.world hlast
  refine ⟨hok, ?_⟩
  obtain ⟨p, hp⟩ := h.has_producer hc (hloc ▸ (List.getElem?_eq_some_iff.mp hlast).1)
  have hp0 : p ≠ 0 := (h.channel.alive p (.inr hp)).1
  rw [hout, h.producerId, hp]
  by_cases hmain : r.main = .waiting
  · simp [hmain, badMessage, testMessage, IpcMessage.stamped]
  · simp [hmain, badMessage, testMessage, IpcMessage.stamped, hp0]

theorem Sound.consumer_step (h : Sound messages r) {c : ℕ} (hc : r.consumer = some c)
    (hn : consumerStep messages c r = some r') : Sound messages r' := by
  have hne : r.producer ≠ some c := h.channel.apart c hc
  have hfits := h.receiving
  rw [hc] at hfits
  unfold consumerStep at hn
  split at hn
  next hpc =>
    split_ifs at hn with hlt
    · obtain ⟨w, hw, rfl⟩ := Option.map_eq_some_iff.mp hn
      have hreach : portSystem.ReachableIf SparesCallers w := h.world.step (e := .call c _) trivial hw
      obtain ⟨hcur, rfl, hchannel⟩ := h.channel.start (.inl ⟨hc, rfl⟩) hw
      refine ⟨hreach, hchannel, h.consumer, h.producer, h.producerId, ?_, ?_, h.bad⟩
      · simp only [hc]
        rw [locOf_self]
        exact hfits.enter hpc hlt _ _ _
      · simp only
        rw [locOf_of_ne hne]
        exact h.sending
    · obtain rfl := Option.some.inj hn
      refine ⟨h.world, h.channel, h.consumer, h.producer, h.producerId, ?_, h.sending, h.bad⟩
      simp only [hc]
      exact hfits.stop hpc hlt _
  next hpc =>
    split at hn
    next hcur =>
      obtain ⟨w, hw, rfl⟩ := Option.map_eq_some_iff.mp hn
      have hchannel := h.channel.step h.world (.inl hc) hw
      have hreach : portSystem.ReachableIf SparesCallers w := h.world.step (e := .step c) trivial hw
      obtain ⟨o, ts, op, pc, n, hcur', rfl⟩ := step_loc hw
      refine ⟨hreach, hchannel, h.consumer, h.producer, h.producerId, ?_, ?_, h.bad⟩
      · simp only [hc]
        rw [locOf_self]
        exact hfits.step hpc hcur' n
      · simp only
        rw [locOf_of_ne hne]
        exact h.sending
    next hcur =>
      obtain ⟨outcome, hlast, rfl⟩ := Option.map_eq_some_iff.mp hn
      obtain ⟨hok, hbad⟩ := h.check hc hpc hcur hlast r.receiving.message
      unfold consumerCheck
      rw [if_neg (not_not.mpr hok)]
      refine ⟨h.world, h.channel, h.consumer, h.producer, h.producerId, ?_, h.sending, ?_⟩
      · simp only [hc]
        exact hfits.back hpc hcur _
      · simp only [hbad]
        by_cases hmain : r.main = .waiting
        · simpa [hmain] using h.bad
        · simp [hmain, h.bad, u32_add]
  · cases hn

theorem Sound.producer_step (h : Sound messages r) {p : ℕ} (hp : r.producer = some p)
    (hn : producerStep messages p r = some r') : Sound messages r' := by
  have hne : r.consumer ≠ some p := fun hc => h.channel.apart p hc hp
  have hfits := h.sending
  rw [hp] at hfits
  unfold producerStep at hn
  split at hn
  next hpc =>
    split_ifs at hn with hlt
    · obtain ⟨w, hw, rfl⟩ := Option.map_eq_some_iff.mp hn
      have hindex : r.sending.index = (r.world.loc p).done.length := by simpa [hpc, locOf] using hfits.index.symm
      have hreach : portSystem.ReachableIf SparesCallers w := h.world.step (e := .call p _) trivial hw
      obtain ⟨hcur, rfl, hchannel⟩ := h.channel.start (.inr ⟨hp, by rw [hindex]⟩) hw
      refine ⟨hreach, ?_, h.consumer, h.producer, h.producerId, ?_, ?_, h.bad⟩
      · simpa only [testMessage_again] using hchannel
      · simp only
        rw [locOf_of_ne hne]
        exact h.receiving
      · simp only [hp]
        rw [locOf_self]
        exact hfits.enter hpc hlt _ _ _
    · obtain rfl := Option.some.inj hn
      refine ⟨h.world, h.channel, h.consumer, h.producer, h.producerId, h.receiving, ?_, h.bad⟩
      simp only [hp]
      exact hfits.stop hpc hlt _
  next hpc =>
    split at hn
    next hcur =>
      obtain ⟨w, hw, rfl⟩ := Option.map_eq_some_iff.mp hn
      have hchannel := h.channel.step h.world (.inr hp) hw
      have hreach : portSystem.ReachableIf SparesCallers w := h.world.step (e := .step p) trivial hw
      obtain ⟨o, ts, op, pc, n, hcur', rfl⟩ := step_loc hw
      refine ⟨hreach, hchannel, h.consumer, h.producer, h.producerId, ?_, ?_, h.bad⟩
      · simp only
        rw [locOf_of_ne hne]
        exact h.receiving
      · simp only [hp]
        rw [locOf_self]
        exact hfits.step hpc hcur' n
    next hcur =>
      obtain ⟨outcome, hlast, rfl⟩ := Option.map_eq_some_iff.mp hn
      have hdone : outcome ∈ (locOf r.world r.producer).done := by
        rw [hp]
        exact List.mem_of_getLast? hlast
      unfold producerCheck
      rw [if_neg (not_not.mpr (h.channel.sends.done _ hdone))]
      refine ⟨h.world, h.channel, h.consumer, h.producer, h.producerId, h.receiving, ?_, h.bad⟩
      simp only [hp]
      exact hfits.back hpc hcur _
  · cases hn

theorem ifRunnable_some {id : Option ℕ} {step : ℕ → Rendezvous → Option Rendezvous}
    (h : ifRunnable id step r = some r') : ∃ i, id = some i ∧ r.world.tasks.run i = .runnable ∧ step i r = some r' := by
  unfold ifRunnable at h
  split at h
  · cases h
  next i =>
    split_ifs at h with hrun
    exact ⟨i, rfl, hrun, h⟩

theorem Sound.next (h : Sound messages r) {e : TestEvent} (hn : (rendezvous messages).next r e = some r') :
    Sound messages r' := by
  cases e with
  | main => exact h.main hn
  | consumer =>
    obtain ⟨c, hc, -, hstep⟩ := ifRunnable_some hn
    exact h.consumer_step hc hstep
  | producer =>
    obtain ⟨p, hp, -, hstep⟩ := ifRunnable_some hn
    exact h.producer_step hp hstep
  | undo id => exact h.undo hn

theorem sound (h : (rendezvous messages).Reachable r) : Sound messages r :=
  h.invariant (fun _ => Sound.init) fun _ _ _ hs hn => hs.next hn

/-- No call fails, the `k`-th message received has number `k` and comes from the producer, and `ConsumerBad` counts
nothing but the messages checked before `ProducerId` is written. When both tasks are done the port is empty. -/
theorem rendezvous_delivers (h : (rendezvous messages).Reachable r) :
    r.consumerBad = u32 r.early ∧
      (∀ id, ∀ outcome ∈ (r.world.loc id).done, outcome.status = .ok) ∧
      (∀ (c k : ℕ) (outcome : Outcome), r.consumer = some c → (r.world.loc c).done[k]? = some outcome →
        ∃ p m, r.producer = some p ∧ outcome.out = some m ∧ m.length = 1 ∧ m.data 0 = k ∧ m.sender = p) ∧
      (r.consumerDone = true → r.producerDone = true →
        r.world.obj.port.count = 0 ∧ r.world.obj.taken.length = messages) := by
  have hs := sound h
  refine ⟨hs.bad, fun id outcome hout => ?_, fun c k outcome hc hk => ?_, fun hc hp => ?_⟩
  · by_cases hc : r.consumer = some id
    · exact hs.channel.receives.done outcome (by rw [hc]; exact hout)
    by_cases hp : r.producer = some id
    · exact hs.channel.sends.done outcome (by rw [hp]; exact hout)
    rw [hs.channel.rest id hc hp] at hout
    cases hout
  · obtain ⟨p, hp⟩ := hs.has_producer hc (List.getElem?_eq_some_iff.mp hk).1
    obtain ⟨-, hout⟩ := hs.channel.received hs.world (k := k) (r := outcome) (by rw [hc]; exact hk)
    refine ⟨p, _, hp, hout, rfl, ?_, ?_⟩
    · simp [testMessage, IpcMessage.stamped]
    · simp [testMessage, IpcMessage.stamped, hp]
  · have hcount := hs.channel.count_eq hs.world
    rw [hs.receiving.handled_of_finished hc, hs.sending.handled_of_finished hp] at hcount
    have htaken := congrArg List.length hs.channel.taken
    rw [hs.receiving.handled_of_finished hc, List.length_map] at htaken
    exact ⟨by omega, htaken.symm⟩

def zeroMessage : IpcMessage := ⟨0, 0, fun _ => 0⟩

def zeroRendezvous : Rendezvous :=
  ⟨portCode.boot ⟨(ipcPortCreate zeroPort).1, [], []⟩, .createConsumer, none, none, ⟨.loop, 0, zeroMessage⟩,
    ⟨.loop, 0, zeroMessage⟩, 0, 0, false, false, 0⟩

theorem rendezvous_boot (messages : ℕ) : (rendezvous messages).init zeroRendezvous :=
  ⟨zeroPort, zeroMessage, zeroMessage, by decide, rfl⟩

/-- The producer fills the port and parks, the consumer checks the 16 messages before `ProducerId` is written, and the
last one behind that. -/
theorem rendezvous_delivers_early : ∃ r, (rendezvous 17).Reachable r ∧ r.early = 16 ∧ r.consumerBad = 16 ∧
    r.world.obj.port.count = 0 ∧ r.world.obj.taken.length = 17 := by
  obtain ⟨r, -, hr, hp⟩ := System.exists_reachableIf (S := rendezvous 17) (fun _ _ => True) (rendezvous_boot 17)
    ([.main, .main] ++ List.replicate 101 .producer ++ List.replicate 102 .consumer ++ [.main] ++
      List.replicate 8 .producer ++ List.replicate 7 .consumer)
    (fun r => r.early = 16 ∧ r.consumerDone = true ∧ r.producerDone = true) (by decide +kernel)
  obtain ⟨hearly, hc, hp⟩ := of_decide_eq_true hp
  obtain ⟨hbad, -, -, hend⟩ := rendezvous_delivers hr
  exact ⟨r, hr, hearly, by rw [hbad, hearly]; rfl, hend hc hp⟩

theorem call_some {w : PortWorld} {id : ℕ} (hrun : w.tasks.run id = .runnable) (hcur : (w.loc id).cur = none)
    (op : PortOp) : ∃ w', portCode.next w (.call id ⟨op, false⟩) = some w' := by
  simp [Code.next, hrun, portCode, portStart, hcur]

theorem Sound.consumer_some (h : Sound messages r) {c : ℕ} (hc : r.consumer = some c)
    (hrun : r.world.tasks.run c = .runnable) (hpc : r.receiving.pc ≠ .finished) :
    ((rendezvous messages).next r .consumer).isSome = true := by
  have hfits := h.receiving
  rw [hc] at hfits
  have hnext : (rendezvous messages).next r .consumer = consumerStep messages c r := by
    simp only [rendezvous, ifRunnable, hc, hrun, if_true]
  rw [hnext]
  unfold consumerStep
  split
  next hloop =>
    split_ifs
    · obtain ⟨w, hw⟩ := call_some hrun (hfits.cur (by simp [hloop])) (.receive true true)
      simp [hw]
    · rfl
  next hin =>
    split
    next hcur =>
      obtain ⟨w, hw⟩ := h.channel.step_some h.world (.inl hc) hrun hcur
      simp [hw]
    next hcur =>
      have hlen := hfits.index
      simp only [hin, show (locOf r.world (some c)).cur = none from hcur, and_self, if_true] at hlen
      rw [Option.isSome_map, show (r.world.loc c).done.getLast? = _ from hfits.getLast hin hcur]
      simp [hlen]
  next hfinished => exact absurd hfinished hpc

theorem Sound.producer_some (h : Sound messages r) {p : ℕ} (hp : r.producer = some p)
    (hrun : r.world.tasks.run p = .runnable) (hpc : r.sending.pc ≠ .finished) :
    ((rendezvous messages).next r .producer).isSome = true := by
  have hfits := h.sending
  rw [hp] at hfits
  have hnext : (rendezvous messages).next r .producer = producerStep messages p r := by
    simp only [rendezvous, ifRunnable, hp, hrun, if_true]
  rw [hnext]
  unfold producerStep
  split
  next hloop =>
    split_ifs
    · obtain ⟨w, hw⟩ := call_some hrun (hfits.cur (by simp [hloop]))
        (.send true (some (testMessage r.sending.message r.sending.index)))
      simp [hw]
    · rfl
  next hin =>
    split
    next hcur =>
      obtain ⟨w, hw⟩ := h.channel.step_some h.world (.inr hp) hrun hcur
      simp [hw]
    next hcur =>
      have hlen := hfits.index
      simp only [hin, show (locOf r.world (some p)).cur = none from hcur, and_self, if_true] at hlen
      rw [Option.isSome_map, show (r.world.loc p).done.getLast? = _ from hfits.getLast hin hcur]
      simp [hlen]
  next hfinished => exact absurd hfinished hpc

/-- Once both tasks are created, one of them can go on until both are done. -/
theorem rendezvous_never_stuck (h : (rendezvous messages).Reachable r) (hc : r.consumer ≠ none) (hp : r.producer ≠ none)
    (hopen : r.consumerDone = false ∨ r.producerDone = false) :
    ((rendezvous messages).next r .consumer).isSome = true ∨ ((rendezvous messages).next r .producer).isSome = true := by
  have hs := sound h
  obtain ⟨c, hc⟩ := Option.ne_none_iff_exists'.mp hc
  obtain ⟨p, hp⟩ := Option.ne_none_iff_exists'.mp hp
  by_contra hno
  obtain ⟨hnoc, hnop⟩ := not_or.mp hno
  -- whoever can run has finished, so nobody inside a call can
  have hcfin : r.world.tasks.run c = .runnable → r.receiving.pc = .finished := fun hrun =>
    not_not.mp fun hpc => hnoc (hs.consumer_some hc hrun hpc)
  have hpfin : r.world.tasks.run p = .runnable → r.sending.pc = .finished := fun hrun =>
    not_not.mp fun hpc => hnop (hs.producer_some hp hrun hpc)
  have hfitc := hs.receiving
  have hfitp := hs.sending
  have hcount := hs.channel.count_eq hs.world
  rw [hc] at hfitc hcount
  rw [hp] at hfitp hcount
  have hquiet : Quiescent r.world := by
    intro i hrun
    by_cases hic : i = c
    · subst hic
      exact hfitc.cur (by simp [hcfin hrun])
    by_cases hip : i = p
    · subst hip
      exact hfitp.cur (by simp [hpfin hrun])
    rw [hs.channel.rest i (by simp [hc, Ne.symm hic]) (by simp [hp, Ne.symm hip])]
  have hcases : ∀ i, (r.consumer = some i ∨ r.producer = some i) →
      r.world.tasks.run i = .runnable ∨ r.world.tasks.run i = .blocked := by
    intro i hi
    have hlive := Tasks.live_iff.mp (hs.channel.alive i hi).2
    cases hrun : r.world.tasks.run i with
    | gone => exact absurd hrun hlive
    | runnable => exact .inl rfl
    | blocked => exact .inr rfl
  have hsleeps : ∀ i, r.world.tasks.run i = .blocked → _ := fun i => hs.channel.sleeps hs.world hquiet
  obtain hcrun | hcb := hcases c (.inl hc)
  · have hcdone : r.consumerDone = true := by simp [hfitc.flag, hcfin hcrun]
    obtain hprun | hpb := hcases p (.inr hp)
    · have hpdone : r.producerDone = true := by simp [hfitp.flag, hpfin hprun]
      simp [hcdone, hpdone] at hopen
    · obtain ⟨hlen, hfull⟩ := (hsleeps p hpb).2 hp
      have hall := hfitc.handled_of_finished hcdone
      have hbound := hfitp.bound
      have hindex := hfitp.index
      simp only [locOf, Option.elim_some] at hcount hall hindex
      have h16 : ipcPortCapacity = 16 := rfl
      obtain ⟨op, hcur⟩ := blocked_parked hs.world hpb
      simp only [hcur, reduceCtorEq, and_false, if_false] at hindex
      omega
  · obtain ⟨hlen, hempty⟩ := (hsleeps c hcb).1 hc
    obtain hprun | hpb := hcases p (.inr hp)
    · have hpdone : r.producerDone = true := by simp [hfitp.flag, hpfin hprun]
      have hall := hfitp.handled_of_finished hpdone
      have hbound := hfitc.bound
      have hindex := hfitc.index
      obtain ⟨op, hcur⟩ := blocked_parked hs.world hcb
      have hpc : r.receiving.pc = .inCall := by
        by_contra hpc
        have hnone : (r.world.loc c).cur = none := hfitc.cur hpc
        rw [hnone] at hcur
        cases hcur
      simp only [locOf, Option.elim_some, hcur, hpc, reduceCtorEq, and_false, if_false, if_true] at hcount hall hindex hbound
      omega
    · obtain ⟨-, hfull⟩ := (hsleeps p hpb).2 hp
      rw [hempty] at hfull
      cases hfull

/-- The producer sleeps at the full port, and the consumer has not begun. -/
theorem rendezvous_never_stuck_parked : ∃ r, (rendezvous 17).Reachable r ∧ r.world.tasks.run 2 = .blocked ∧
    r.world.obj.port.count = 16 ∧
    (((rendezvous 17).next r .consumer).isSome = true ∨ ((rendezvous 17).next r .producer).isSome = true) := by
  obtain ⟨r, -, hr, hp⟩ := System.exists_reachableIf (S := rendezvous 17) (fun _ _ => True) (rendezvous_boot 17)
    ([.main, .main] ++ List.replicate 101 .producer)
    (fun r => r.consumer = some 1 ∧ r.producer = some 2 ∧ r.consumerDone = false ∧ r.world.tasks.run 2 = .blocked ∧
      r.world.obj.port.count = 16)
    (by decide +kernel)
  obtain ⟨hc, hp, hopen, hb, hfull⟩ := of_decide_eq_true hp
  exact ⟨r, hr, hb, hfull, rendezvous_never_stuck hr (by simp [hc]) (by simp [hp]) (.inl hopen)⟩

end

end Novium.Selftest
