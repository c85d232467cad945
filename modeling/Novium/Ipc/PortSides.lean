import Novium.Ipc.Port

/-! The two sides of a port. A send waits among the senders for room and wakes a
receiver behind its push; a receive waits among the receivers for a message and wakes a
sender behind its pop. Seen from its own side, one is the other. -/

namespace Novium.Ipc

open Novium.Lib

inductive PortSide where
  | senders | receivers
  deriving DecidableEq, Repr

namespace PortSide

def other : PortSide → PortSide
  | .senders => .receivers
  | .receivers => .senders

def queue (s : PortSide) (p : IpcPort) : IpcWait :=
  match s with
  | .senders => p.senders
  | .receivers => p.receivers

/-- What those on this side wait for: room, or messages. -/
def avail (s : PortSide) (p : IpcPort) : ℕ :=
  match s with
  | .senders => ipcPortCapacity - p.count
  | .receivers => p.count

def ready : PortSide → IpcPort → Bool
  | .senders => portHasRoom
  | .receivers => portHasMessage

def setQueue (s : PortSide) (o : PortObj) (q : IpcWait) : PortObj :=
  match s with
  | .senders => o.setSenders q
  | .receivers => o.setReceivers q

theorem senders_avail (p : IpcPort) : senders.avail p = ipcPortCapacity - p.count := rfl

theorem receivers_avail (p : IpcPort) : receivers.avail p = p.count := rfl

theorem ready_eq (s : PortSide) (p : IpcPort) : s.ready p = decide (0 < s.avail p) := by
  cases s with
  | senders => exact decide_eq_decide.mpr Nat.sub_pos_iff_lt.symm
  | receivers => rfl

theorem other_ne (s : PortSide) : s.other ≠ s := by cases s <;> decide

theorem other_of_ne {s s' : PortSide} (h : s ≠ s') : s.other = s' := by
  cases s <;> cases s' <;> first | rfl | exact absurd rfl h

variable (s : PortSide) (o : PortObj) (q : IpcWait)

@[simp] theorem setQueue_queue : s.queue (s.setQueue o q).port = q := by cases s <;> rfl

theorem setQueue_queue_of_ne {s s' : PortSide} (h : s ≠ s') : s'.queue (s.setQueue o q).port = s'.queue o.port := by
  cases s <;> cases s' <;> first | rfl | exact absurd rfl h

@[simp] theorem setQueue_count : (s.setQueue o q).port.count = o.port.count := by cases s <;> rfl

@[simp] theorem setQueue_magic : (s.setQueue o q).port.magic = o.port.magic := by cases s <;> rfl

@[simp] theorem setQueue_accepted : (s.setQueue o q).accepted = o.accepted := by cases s <;> rfl

@[simp] theorem setQueue_avail (s' : PortSide) : s'.avail (s.setQueue o q).port = s'.avail o.port := by
  cases s' <;> simp [avail]

@[simp] theorem push_queue (call : ℕ × ℕ) (m : IpcMessage) : s.queue (o.push call m).port = s.queue o.port := by
  cases s <;> rfl

@[simp] theorem pop_queue (call : ℕ × ℕ) : s.queue (o.pop call).port = s.queue o.port := by cases s <;> rfl

end PortSide

namespace PortOp

def side : PortOp → PortSide
  | .send _ _ => .senders
  | .receive _ _ => .receivers

def blocks : PortOp → Bool
  | .send block _ | .receive block _ => block

/-- The arguments pass the tests at the head of the call. -/
def valid : PortOp → Bool
  | .send _ message => !message.all fun m => m.length > ipcMessageWords
  | .receive _ out => out

end PortOp

/-- What a step of a call can do, in terms of its side. -/
inductive PortMove (live : ℕ → Bool) (call : ℕ × ℕ) (o : PortObj) (op : PortOp) :
    PortPc → PortObj → PortNext → Effect → Prop where
  | reject {pc : PortPc} (head : pc = .test ∨ pc = .tryTest)
      (bad : ipcPortIsCreated o.port = false ∨ op.valid = false) :
      PortMove live call o op pc o (failed .errInvalid) .stay
  | pass (created : ipcPortIsCreated o.port = true) (valid : op.valid = true) :
      PortMove live call o op .test o (.inl .tryTest) .stay
  | enter (created : ipcPortIsCreated o.port = true) (valid : op.valid = true) :
      PortMove live call o op .tryTest o (.inl .try) .stay
  | wait (blocks : op.blocks = true) (none_left : op.side.avail o.port = 0) :
      PortMove live call o op .try o (.inl (.park .check)) .stay
  | giveUp {st : IpcStatus} (status : st ≠ .ok) (blocks : op.blocks = false) :
      PortMove live call o op .try o (failed st) .stay
  | push {block : Bool} {m : IpcMessage} (send : op = .send block (some m))
      (room : o.port.count ≠ ipcPortCapacity) :
      PortMove live call o op .try (o.push call m) (.inl (.wake none .take)) .stay
  | pop {block out : Bool} (receive : op = .receive block out) (some_queued : o.port.count ≠ 0) :
      PortMove live call o op .try (o.pop call) (.inl (.wake (some o.front) .take)) .stay
  | park (p : ParkPc) : PortMove live call o op (.park p)
      (op.side.setQueue o (ipcPark call.1 (op.side.ready o.port) (op.side.queue o.port) p).1)
      (afterPark (ipcPark call.1 (op.side.ready o.port) (op.side.queue o.port) p).2.1)
      (ipcPark call.1 (op.side.ready o.port) (op.side.queue o.port) p).2.2
  | wake {out : Option IpcMessage} {p : WakePc} {q : IpcWait} {r : Option WakePc} {eff : Effect}
      (one : ipcWakeOne live (op.side.other.queue o.port) p = some (q, r, eff)) :
      PortMove live call o op (.wake out p) (op.side.other.setQueue o q) (afterWake out r) eff

theorem PortMove.created {live : ℕ → Bool} {call : ℕ × ℕ} {o o' : PortObj} {op : PortOp} {pc : PortPc}
    {n : PortNext} {eff : Effect} (hm : PortMove live call o op pc o' n eff) :
    ipcPortIsCreated o'.port = ipcPortIsCreated o.port := by
  cases hm with
  | park | wake => simp [ipcPortIsCreated]
  | _ => rfl

theorem afterPark_cases (r : ParkPc ⊕ IpcStatus) :
    (∃ p, r = .inl p ∧ afterPark r = .inl (.park p)) ∨ (r = .inr .ok ∧ afterPark r = .inl .tryTest) ∨
      (∃ st, r = .inr st ∧ st ≠ .ok ∧ afterPark r = failed st) := by
  rcases r with p | st
  · exact .inl ⟨p, rfl, rfl⟩
  · cases st with
    | ok => exact .inr (.inl ⟨rfl, rfl⟩)
    | _ => exact .inr (.inr ⟨_, rfl, by decide, rfl⟩)

theorem tests_move {live : ℕ → Bool} {call : ℕ × ℕ} {o o' : PortObj} {op : PortOp} {pc pc' : PortPc} {n : PortNext}
    {eff : Effect} {bad : Prop} [Decidable bad] (hbad : bad ↔ ipcPortIsCreated o.port = false ∨ op.valid = false)
    (hpc : (pc = .test ∧ pc' = .tryTest) ∨ (pc = .tryTest ∧ pc' = .try))
    (h : (if bad then some (o, failed .errInvalid, .stay) else some (o, .inl pc', Effect.stay)) = some (o', n, eff)) :
    PortMove live call o op pc o' n eff := by
  split_ifs at h with hb
  · cases h
    exact .reject (hpc.imp And.left And.left) (hbad.mp hb)
  · cases h
    obtain ⟨hcreated, hvalid⟩ : ipcPortIsCreated o.port = true ∧ op.valid = true := by simpa [hbad] using hb
    rcases hpc with ⟨rfl, rfl⟩ | ⟨rfl, rfl⟩
    · exact .pass hcreated hvalid
    · exact .enter hcreated hvalid

theorem sendStep_move {live : ℕ → Bool} {call : ℕ × ℕ} {block : Bool} {message : Option IpcMessage}
    {o o' : PortObj} {pc : PortPc} {n : PortNext} {eff : Effect}
    (h : sendStep live call block message o pc = some (o', n, eff)) :
    PortMove live call o (.send block message) pc o' n eff := by
  cases pc with
  | test => exact tests_move (by simp [PortOp.valid]) (.inl ⟨rfl, rfl⟩) h
  | tryTest => exact tests_move (by simp [PortOp.valid]) (.inr ⟨rfl, rfl⟩) h
  | «try» =>
    cases message with
    | none => cases h
    | some m =>
      simp only [sendStep, Option.bind_eq_bind, Option.bind_some] at h
      split_ifs at h with hfull hblock
      · cases h
        exact .wait hblock (by simp [PortOp.side, PortSide.avail, hfull])
      · cases h
        exact .giveUp (by decide) (by simpa [PortOp.blocks] using hblock)
      · cases h
        exact .push rfl hfull
  | park p =>
    cases h
    exact .park p
  | wake out p =>
    obtain ⟨⟨q, r, eff'⟩, hone, h⟩ := Option.bind_eq_some_iff.mp h
    cases h
    exact .wake hone

theorem receiveStep_move {live : ℕ → Bool} {call : ℕ × ℕ} {block out : Bool} {o o' : PortObj} {pc : PortPc}
    {n : PortNext} {eff : Effect} (h : receiveStep live call block out o pc = some (o', n, eff)) :
    PortMove live call o (.receive block out) pc o' n eff := by
  cases pc with
  | test => exact tests_move (by simp [PortOp.valid]) (.inl ⟨rfl, rfl⟩) h
  | tryTest => exact tests_move (by simp [PortOp.valid]) (.inr ⟨rfl, rfl⟩) h
  | «try» =>
    simp only [receiveStep] at h
    split_ifs at h with hempty hblock
    · cases h
      exact .wait hblock hempty
    · cases h
      exact .giveUp (by decide) (by simpa [PortOp.blocks] using hblock)
    · cases h
      exact .pop rfl hempty
  | park p =>
    cases h
    exact .park p
  | wake out p =>
    obtain ⟨⟨q, r, eff'⟩, hone, h⟩ := Option.bind_eq_some_iff.mp h
    cases h
    exact .wake hone

theorem step_move {live : ℕ → Bool} {call : ℕ × ℕ} {op : PortOp} {o o' : PortObj} {pc : PortPc} {n : PortNext}
    {eff : Effect} (h : op.step live call o pc = some (o', n, eff)) : PortMove live call o op pc o' n eff := by
  cases op with
  | send block message => exact sendStep_move h
  | receive block out => exact receiveStep_move h

theorem portStep_move {live : ℕ → Bool} {self : ℕ} {o o' : PortObj} {l l' : PortLoc} {eff : Effect}
    (h : portStep live self o l = some (o', l', eff)) :
    ∃ op pc n, l.cur = some (op, pc) ∧ l' = l.advance op n ∧
      PortMove live (self, l.done.length) o op pc o' n eff := by
  obtain ⟨⟨op, pc⟩, hcur, h⟩ := Option.bind_eq_some_iff.mp h
  obtain ⟨⟨o₁, n, eff₁⟩, hstep, h⟩ := Option.bind_eq_some_iff.mp h
  cases h
  exact ⟨op, pc, n, hcur, rfl, step_move hstep⟩

theorem entry_cases (op : PortOp) :
    (op.blocks = true ∧ op.entry = .test) ∨ (op.blocks = false ∧ op.entry = .tryTest) := by
  cases op with
  | send block message =>
    cases block
    · exact .inr ⟨rfl, rfl⟩
    · exact .inl ⟨rfl, rfl⟩
  | receive block out =>
    cases block
    · exact .inr ⟨rfl, rfl⟩
    · exact .inl ⟨rfl, rfl⟩

theorem portStart_cases {c : PortCall} {l l' : PortLoc} (h : portStart c l = some l') :
    l.cur = none ∧ (l'.cur = none ∨ l'.cur = some (c.op, c.op.entry)) := by
  unfold portStart at h
  split at h
  · cases h
  · rename_i hcur
    cases h
    refine ⟨hcur, ?_⟩
    split_ifs
    · exact .inl rfl
    · exact .inr rfl

end Novium.Ipc
