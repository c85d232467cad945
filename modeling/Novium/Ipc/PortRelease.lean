import Novium.Ipc.PortLife

/-! What becomes of a released port. `IpcPortDestroy` looks at the wait queues in its
section, but sees neither a caller that is past its own test of the port nor a waiter
that is off the queue and has not run yet. -/

namespace Novium.Ipc

open Novium.Lib

/-- The call would act on a released port: it is a send behind its tests, or a task that
can sleep is in `IpcReceive` behind its tests. -/
def PortOp.exposed (id : ℕ) (op : PortOp) : PortPc → Bool
  | .try => op.side = .senders || (op.blocks && id ≠ 0)
  | .park _ => op.side = .receivers && id ≠ 0
  | _ => false

def PortLoc.exposed (id : ℕ) (l : PortLoc) : Bool :=
  match l.cur with
  | some (op, pc) => op.exposed id pc
  | none => false

/-- Nothing is queued, nobody is parked and no message has been accepted. -/
structure PortEmpty (o : PortObj) : Prop where
  count : o.port.count = 0
  senders : o.port.senders.count = 0
  receivers : o.port.receivers.count = 0
  accepted : o.accepted = []

theorem PortEmpty.queue {o : PortObj} (h : PortEmpty o) (s : PortSide) : (s.queue o.port).count = 0 := by
  cases s with
  | senders => exact h.senders
  | receivers => exact h.receivers

theorem PortEmpty.setQueue {o : PortObj} (h : PortEmpty o) (s : PortSide) {q : IpcWait} (hq : q.count = 0) :
    PortEmpty (s.setQueue o q) := by
  cases s with
  | senders => exact ⟨h.count, hq, h.receivers, h.accepted⟩
  | receivers => exact ⟨h.count, h.senders, hq, h.accepted⟩

theorem ipcPark_empty {self : ℕ} {ready : Bool} {q : IpcWait} (p : ParkPc) (hq : q.count = 0)
    (h : ready = true ∨ self = 0) : (ipcPark self ready q p).1.count = 0 := by
  rcases ipcPark_cases self ready q p with ⟨st, he⟩ | ⟨q', h0, hr, -, -⟩ | he
  · rw [he]
    exact hq
  · rcases h with h | h
    · rw [h] at hr
      cases hr
    · exact absurd h h0
  · have hle := ipcWaitRemove_count_le q self
    rw [he]
    show (ipcWaitRemove q self).count = 0
    omega

theorem ipcWakeOne_empty {live : ℕ → Bool} {q q' : IpcWait} {p : WakePc} {r : Option WakePc} {eff : Effect}
    (hq : q.count = 0) (h : ipcWakeOne live q p = some (q', r, eff)) : q'.count = 0 := by
  cases p with
  | take =>
    obtain ⟨⟨q₁, id⟩, htake, he⟩ := Option.map_eq_some_iff.mp h
    cases he
    simp only [ipcWaitTakeLive, hq, List.range_zero, List.find?_nil, purgeLoop, Nat.lt_irrefl, if_false,
      Option.map_some, Option.some.injEq, Prod.mk.injEq] at htake
    rw [← htake.1]
    exact hq
  | wake id =>
    cases h
    exact hq

variable {live : ℕ → Bool} {call : ℕ × ℕ} {o o' : PortObj} {op : PortOp} {pc : PortPc} {n : PortNext} {eff : Effect}

theorem PortMove.empty (hm : PortMove live call o op pc o' n eff) (h : PortEmpty o)
    (hgone : ipcPortIsCreated o.port = false) (hx : op.exposed call.1 pc = false) :
    PortEmpty o' ∧ ∀ pc', n = .inl pc' → op.exposed call.1 pc' = false := by
  cases hm with
  | reject => exact ⟨h, fun _ he => by cases he⟩
  | pass hc => simp [hgone] at hc
  | enter hc => simp [hgone] at hc
  | wait hb =>
    refine ⟨h, fun pc' he => ?_⟩
    cases he
    simp only [PortOp.exposed, hb, Bool.true_and, Bool.or_eq_false_iff] at hx
    simp [PortOp.exposed, hx.2]
  | giveUp => exact ⟨h, fun _ he => by cases he⟩
  | push hsend => simp [PortOp.exposed, hsend, PortOp.side] at hx
  | pop _ hpos => exact absurd h.count hpos
  | park p =>
    have hready : op.side.ready o.port = true ∨ call.1 = 0 := by
      cases hs : op.side with
      | senders => exact .inl (by simp [PortSide.ready, portHasRoom, h.count, ipcPortCapacity])
      | receivers => exact .inr (by simpa [PortOp.exposed, hs] using hx)
    refine ⟨h.setQueue _ (ipcPark_empty p (h.queue _) hready), fun pc' he => ?_⟩
    rcases afterPark_cases (ipcPark call.1 (op.side.ready o.port) (op.side.queue o.port) p).2.1 with
      ⟨p', -, ha⟩ | ⟨-, ha⟩ | ⟨st, -, -, ha⟩
    · rw [ha] at he
      cases he
      exact hx
    · rw [ha] at he
      cases he
      rfl
    · rw [ha] at he
      cases he
  | @wake _ _ _ r _ hone =>
    refine ⟨h.setQueue _ (ipcWakeOne_empty (h.queue _) hone), fun pc' he => ?_⟩
    cases r with
    | none => cases he
    | some p => cases he; rfl

theorem advance_exposed {l : PortLoc} {id : ℕ} (h : ∀ pc, n = .inl pc → op.exposed id pc = false) :
    (l.advance op n).exposed id = false := by
  rcases n with pc | ⟨st, out⟩
  · exact h pc rfl
  · rfl

theorem start_exposed {c : LifeCall} {l l' : LifeLoc} (h : lifeStart c l = some l') (id : ℕ) :
    l'.port.exposed id = false := by
  obtain ⟨-, -, -, hcur | ⟨-, op, hcur⟩⟩ := lifeStart_cases h
  · simp [PortLoc.exposed, hcur]
  · rcases entry_cases op with ⟨-, he⟩ | ⟨-, he⟩
    · simp [PortLoc.exposed, hcur, he, PortOp.exposed]
    · simp [PortLoc.exposed, hcur, he, PortOp.exposed]

/-- An `IpcPortDestroy` succeeds only when no live task is exposed. -/
def Quiet (w : LifeWorld) : LifeEvent → Prop
  | .step id => (w.loc id).life = some .destroy → (ipcPortDestroy w.obj.base.port).2 = .ok →
      ∀ i < w.tasks.nextId, w.tasks.live i = true → (w.loc i).port.exposed i = false
  | _ => True

instance (w : LifeWorld) : (e : LifeEvent) → Decidable (Quiet w e)
  | .step _ => inferInstanceAs (Decidable (_ → _ → ∀ i < _, _ → _))
  | .call _ _ | .undo _ | .kill _ | .create => .isTrue trivial

/-- Between an `IpcPortDestroy` and the next `IpcPortCreate`. -/
structure Released (w : LifeWorld) : Prop where
  empty : PortEmpty w.obj.base
  gone : ipcPortIsCreated w.obj.base.port = false
  unexposed : ∀ i, w.tasks.live i = true → (w.loc i).port.exposed i = false

variable {w w' : LifeWorld} {e : LifeEvent} {ok : LifeWorld → LifeEvent → Prop}

theorem Released.update {self : ℕ} {l' : LifeLoc} {ts : Tasks} {o' : LifeObj} (hempty : PortEmpty o'.base)
    (hgone : ipcPortIsCreated o'.base.port = false) (hlive : ∀ i, ts.live i = true → w.tasks.live i = true)
    (hself : l'.port.exposed self = false)
    (h : ∀ i, w.tasks.live i = true → i ≠ self → (w.loc i).port.exposed i = false) :
    Released ⟨o', ts, Function.update w.loc self l'⟩ := by
  refine ⟨hempty, hgone, fun i hi => ?_⟩
  by_cases hs : i = self
  · subst hs
    simpa only [Function.update_self] using hself
  · simp only [Function.update_of_ne hs]
    exact h i (hlive i hi) hs

theorem released_step {self : ℕ} {o' : LifeObj} {l' : LifeLoc} (hf : lifeCode.Fresh w)
    (hrun : w.tasks.run self = .runnable) (h : w.obj.phase = .released → Released w)
    (hq : Quiet w (.step self)) (hc : LifeChange w.tasks.live self w.obj (w.loc self) o' l' eff)
    (hphase : o'.phase = .released) : Released ⟨o', eff.apply self w.tasks, Function.update w.loc self l'⟩ := by
  have hlive : ∀ i, (eff.apply self w.tasks).live i = true → w.tasks.live i = true := fun i hi => by
    rwa [Effect.apply_live hrun] at hi
  have hself : w.tasks.live self = true := Tasks.live_iff.mpr (by simp [hrun])
  cases hc with
  | create => cases hphase
  | keep _ hsame =>
    obtain ⟨hempty, hgone, hun⟩ := h hphase
    exact .update hempty hgone hlive (hsame ▸ hun self hself) fun i hi _ => hun i hi
  | destroy hpc hs hr =>
    have hun := hq hpc (by simp [ipcPortDestroy, hs, hr])
    have hun' : ∀ i, w.tasks.live i = true → (w.loc i).port.exposed i = false := fun i hi =>
      hun i (Code.live_lt hf hi) hi
    exact .update ⟨rfl, rfl, rfl, rfl⟩ rfl hlive (hun' self hself) fun i hi _ => hun' i hi
  | @use op pc _ _ _ _ hcur hm =>
    obtain ⟨hempty, hgone, hun⟩ := h hphase
    have hx : op.exposed self pc = false := by
      have := hun self hself
      rwa [PortLoc.exposed, hcur] at this
    obtain ⟨hempty', hx'⟩ := hm.empty hempty hgone hx
    exact .update hempty' (hm.created.trans hgone) hlive (advance_exposed hx') fun i hi _ => hun i hi

theorem released_next (hf : lifeCode.Fresh w) (h : w.obj.phase = .released → Released w) (hq : Quiet w e)
    (hn : lifeCode.next w e = some w') : w'.obj.phase = .released → Released w' := by
  rcases Code.next_cases hn with ⟨id, c, l, -, -, hs, rfl⟩ | ⟨self, o, l, eff, rfl, hrun, hs, rfl⟩ | ⟨_, -, rfl⟩ |
    ⟨id, -, rfl⟩ | ⟨-, rfl⟩
  · intro hphase
    obtain ⟨hempty, hgone, hun⟩ := h hphase
    exact .update hempty hgone (fun _ hi => hi) (start_exposed hs id) fun i hi _ => hun i hi
  · exact released_step hf hrun h hq (lifeStep_change hs)
  · intro hphase
    obtain ⟨hempty, hgone, hun⟩ := h hphase
    exact ⟨hempty, hgone, fun i hi => hun i (by simpa using hi)⟩
  · intro hphase
    obtain ⟨hempty, hgone, hun⟩ := h hphase
    refine ⟨hempty, hgone, fun i hi => hun i ?_⟩
    rw [Tasks.kill_live] at hi
    split_ifs at hi
    exact hi
  · intro hphase
    obtain ⟨hempty, hgone, hun⟩ := h hphase
    refine ⟨hempty, hgone, fun i hi => ?_⟩
    by_cases hnew : i = w.tasks.nextId
    · subst hnew
      simp [lifeCode, PortLoc.exposed]
    · simp only [Function.update_of_ne hnew]
      rw [Tasks.create_live, if_neg hnew] at hi
      exact hun i hi

/-- A released port holds nothing, nobody is parked on it, and it accepts no message. -/
def StaysEmpty (o : LifeObj) : Prop := o.phase = .released → o.base.port.count = 0 ∧
  o.base.port.senders.count = 0 ∧ o.base.port.receivers.count = 0 ∧ o.base.accepted = []

/-- A task is in one call at a time, and behind the tests with valid arguments. -/
structure Coherent (l : LifeLoc) : Prop where
  one : l.life = none ∨ l.port.cur = none
  valid : ∀ op, l.port.cur = some (op, .try) → op.valid = true

theorem PortMove.valid_try (hm : PortMove live call o op pc o' n eff) (hn : n = .inl .try) : op.valid = true := by
  cases hm with
  | enter _ hvalid => exact hvalid
  | park p =>
    rcases afterPark_cases (ipcPark call.1 (op.side.ready o.port) (op.side.queue o.port) p).2.1 with
      ⟨p', -, ha⟩ | ⟨-, ha⟩ | ⟨st, -, -, ha⟩
    all_goals
      rw [ha] at hn
      cases hn
  | @wake _ _ _ r => cases r <;> cases hn
  | _ => cases hn

theorem coherent_idle {l l' : LifeLoc} (h : Coherent l) (hlife : l.life ≠ none) (hport : l'.port = l.port) :
    Coherent l' := by
  have hcur : l'.port.cur = none := by
    rw [hport]
    exact h.one.resolve_left hlife
  exact ⟨.inr hcur, fun op hop => by rw [hcur] at hop; cases hop⟩

theorem coherent_step {live : ℕ → Bool} {self : ℕ} {o o' : LifeObj} {l l' : LifeLoc} {eff : Effect}
    (h : Coherent l) (hc : LifeChange live self o l o' l' eff) : Coherent l' := by
  cases hc with
  | create hpc => exact coherent_idle h (by simp [hpc]) rfl
  | keep hpc hsame => exact coherent_idle h hpc hsame
  | destroy hpc => exact coherent_idle h (by simp [hpc]) rfl
  | @use op pc b n eff hidle hcur hm =>
    refine ⟨.inl hidle, fun op' hop => ?_⟩
    rcases n with pc' | ⟨st, out⟩
    · cases hop
      exact hm.valid_try rfl
    · cases hop

theorem life_coherent (h : lifeSystem.ReachableIf ok w) :
    ∀ id, Coherent (w.loc id) := by
  refine Code.everywhere (M := lifeCode) (G := fun _ l => Coherent l) ?_ ?_ ?_ ?_ h
  · exact fun _ _ => ⟨.inl rfl, fun _ hop => by cases hop⟩
  · exact fun _ _ _ => ⟨.inl rfl, fun _ hop => by cases hop⟩
  · intro c o l l' _ hs
    obtain ⟨-, -, -, hcur | ⟨hlife, op, hcur⟩⟩ := lifeStart_cases hs
    · exact ⟨.inr hcur, fun _ hop => by rw [hcur] at hop; cases hop⟩
    · refine ⟨.inl hlife, fun op' hop => ?_⟩
      rw [hcur] at hop
      rcases entry_cases op with ⟨-, he⟩ | ⟨-, he⟩
      · rw [he] at hop
        cases hop
      · rw [he] at hop
        cases hop
  · exact fun _ _ _ _ _ _ _ hl hs => ⟨coherent_step hl (lifeStep_change hs), fun _ hk => hk⟩

/-- The task `i` can go on with its call on a port that has just been released. -/
structure Poised (w : LifeWorld) (i : ℕ) (op : PortOp) (pc : PortPc) : Prop where
  phase : w.obj.phase = .released
  empty : PortEmpty w.obj.base
  run : w.tasks.run i = .runnable
  life : (w.loc i).life = none
  cur : (w.loc i).port.cur = some (op, pc)

/-- Going on with `i` alone, the port is soon no longer empty. -/
def Breaks (w : LifeWorld) (i : ℕ) : Prop :=
  ∃ w', lifeSystem.Leads (fun _ e => e = .undo i ∨ e = .step i) w w' ∧ ¬StaysEmpty w'.obj

theorem Breaks.before {i : ℕ} (h : Breaks w' i) (he : e = .undo i ∨ e = .step i)
    (hn : lifeSystem.next w e = some w') : Breaks w i := by
  obtain ⟨w₁, hleads, hbad⟩ := h
  exact ⟨w₁, System.Leads.trans (.tail .refl he hn) hleads, hbad⟩

section Poised

variable {i : ℕ}

theorem Poised.next (h : Poised w i op pc) {b : PortObj}
    (hs : op.step w.tasks.live (i, (w.loc i).port.done.length) w.obj.base pc = some (b, n, eff)) :
    lifeSystem.next w (.step i) = some ⟨{ w.obj with base := b }, eff.apply i w.tasks,
      Function.update w.loc i ((w.loc i).setPort ((w.loc i).port.advance op n))⟩ := by
  simp [lifeSystem, Code.system, Code.next, lifeCode, lifeStep, portStep, h.run, h.life, h.cur, hs]

theorem Poised.goesOn (h : Poised w i op pc) {b : PortObj} {pc' : PortPc} (hb : PortEmpty b)
    (hs : op.step w.tasks.live (i, (w.loc i).port.done.length) w.obj.base pc = some (b, .inl pc', .stay))
    (hbreaks : ∀ w', Poised w' i op pc' → Breaks w' i) : Breaks w i := by
  refine Breaks.before ?_ (.inr rfl) (h.next hs)
  refine hbreaks _ ⟨h.phase, hb, h.run, ?_, ?_⟩
  · simpa [LifeLoc.setPort] using h.life
  · simp [LifeLoc.setPort, PortLoc.advance]

theorem Poised.breaks_of (h : Poised w i op pc) {b : PortObj}
    (hs : op.step w.tasks.live (i, (w.loc i).port.done.length) w.obj.base pc = some (b, n, eff))
    (hb : b.port.count ≠ 0 ∨ b.port.receivers.count ≠ 0) : Breaks w i := by
  refine ⟨_, .tail .refl (.inr rfl) (h.next hs), fun hempty => ?_⟩
  obtain ⟨hcount, -, hreceivers, -⟩ := hempty h.phase
  exact hb.elim (· hcount) (· hreceivers)

theorem Poised.send {block : Bool} {m : IpcMessage} (h : Poised w i (.send block (some m)) .try) : Breaks w i := by
  have hroom : w.obj.base.port.count ≠ ipcPortCapacity := by rw [h.empty.count]; decide
  have hs : (PortOp.send block (some m)).step w.tasks.live (i, (w.loc i).port.done.length) w.obj.base .try =
      some (w.obj.base.push (i, (w.loc i).port.done.length) m, .inl (.wake none .take), .stay) := by
    simp only [PortOp.step, sendStep, Option.bind_eq_bind, Option.bind_some, if_neg hroom]
  refine h.breaks_of hs (.inl ?_)
  rw [push_count (by rw [h.empty.count]; exact Nat.zero_le _)]
  omega

theorem Poised.check {block out : Bool} (h0 : i ≠ 0) (h : Poised w i (.receive block out) (.park .check)) :
    Breaks w i := by
  have hq := h.empty.receivers
  have hadd : ipcWaitAdd w.obj.base.port.receivers i = some (w.obj.base.port.receivers.append i) := by
    simp [ipcWaitAdd, hq, ipcMaxWaiters]
  have hpark : ipcPark i (portHasMessage w.obj.base.port) w.obj.base.port.receivers .check =
      (w.obj.base.port.receivers.append i, .inl .woken, .block) := by
    simp [ipcPark, h0, portHasMessage, h.empty.count, hadd]
  have hs : (PortOp.receive block out).step w.tasks.live (i, (w.loc i).port.done.length) w.obj.base (.park .check) =
      some (w.obj.base.setReceivers (w.obj.base.port.receivers.append i), .inl (.park .woken), .block) := by
    simp only [PortOp.step, receiveStep, hpark, afterPark]
  refine h.breaks_of hs (.inr ?_)
  show (w.obj.base.port.receivers.append i).count ≠ 0
  simp

theorem Poised.receive {block out : Bool} (h0 : i ≠ 0) (hx : pc = .try ∧ block = true ∨ ∃ p, pc = .park p)
    (h : Poised w i (.receive block out) pc) : Breaks w i := by
  rcases hx with ⟨rfl, rfl⟩ | ⟨p, rfl⟩
  · refine h.goesOn h.empty ?_ fun w' h' => h'.check h0
    simp [PortOp.step, receiveStep, h.empty.count]
  · cases p with
    | check => exact h.check h0
    | woken =>
      have hle := ipcWaitRemove_count_le w.obj.base.port.receivers i
      have hq := h.empty.receivers
      have hempty : PortEmpty (w.obj.base.setReceivers (ipcWaitRemove w.obj.base.port.receivers i)) :=
        h.empty.setQueue .receivers (by omega)
      exact h.goesOn hempty rfl fun w' h' => h'.check h0

/-- Whoever is exposed when the port is released can break it. -/
theorem Poised.breaks (h : Poised w i op pc) (hcoh : Coherent (w.loc i)) (hx : op.exposed i pc = true) : Breaks w i := by
  cases op with
  | send block message =>
    cases pc with
    | «try» =>
      have hvalid := hcoh.valid _ h.cur
      cases message with
      | none => cases hvalid
      | some m => exact h.send
    | _ => cases hx
  | receive block out =>
    cases pc with
    | «try» =>
      obtain ⟨hb, h0⟩ : block = true ∧ i ≠ 0 := by simpa [PortOp.exposed, PortOp.side, PortOp.blocks] using hx
      exact h.receive h0 (.inl ⟨rfl, hb⟩)
    | park p =>
      have h0 : i ≠ 0 := by simpa [PortOp.exposed, PortOp.side] using hx
      exact h.receive h0 (.inr ⟨p, rfl⟩)
    | _ => cases hx

end Poised

theorem exposed_cur {l : PortLoc} {i : ℕ} (h : l.exposed i = true) :
    ∃ op pc, l.cur = some (op, pc) ∧ op.exposed i pc = true := by
  unfold PortLoc.exposed at h
  split at h
  · exact ⟨_, _, ‹_›, h⟩
  · cases h

theorem breaks_of_live {i : ℕ} (hphase : w.obj.phase = .released) (hempty : PortEmpty w.obj.base)
    (hlive : w.tasks.live i = true) (hcoh : Coherent (w.loc i)) (hx : (w.loc i).port.exposed i = true) : Breaks w i := by
  obtain ⟨op, pc, hcur, hop⟩ := exposed_cur hx
  have hlife : (w.loc i).life = none := hcoh.one.resolve_right (by simp [hcur])
  cases hrun : w.tasks.run i with
  | gone => exact absurd hrun (Tasks.live_iff.mp hlive)
  | runnable => exact Poised.breaks ⟨hphase, hempty, hrun, hlife, hcur⟩ hcoh hop
  | blocked =>
    have hn : lifeSystem.next w (.undo i) = some { w with tasks := w.tasks.wake i } := by
      simp [lifeSystem, Code.system, Code.next, hrun]
    have hup : (w.tasks.wake i).run i = .runnable := by
      rw [Tasks.wake_run, if_pos ⟨rfl, hrun⟩]
    refine Breaks.before ?_ (.inl rfl) hn
    exact Poised.breaks ⟨hphase, hempty, hup, hlife, hcur⟩ hcoh hop

theorem destroy_breaks (h : lifeSystem.ReachableIf ok w) (hq : ¬Quiet w e) (hn : lifeSystem.next w e = some w') :
    ∃ i, Breaks w' i := by
  cases e with
  | step id =>
    simp only [Quiet, not_forall, Bool.not_eq_false] at hq
    obtain ⟨hpc, hok, i, -, hlive, hx⟩ := hq
    have hr : ipcPortDestroy w.obj.base.port = ({ portReset w.obj.base.port with magic := 0 }, .ok) := by
      unfold ipcPortDestroy at hok ⊢
      split_ifs at hok ⊢
      rfl
    obtain ⟨o', l', eff, hrun, hs, rfl⟩ := Code.step_cases (show lifeCode.next w (.step id) = some w' from hn)
    have hs' : lifeStep w.tasks.live id w.obj (w.loc id) = some (o', l', eff) := hs
    simp only [lifeStep, hpc, hr, LifeObj.become, Option.some.injEq, Prod.mk.injEq] at hs'
    obtain ⟨rfl, rfl, rfl⟩ := hs'
    have hne : i ≠ id := by
      rintro rfl
      obtain ⟨op, pc, hcur, -⟩ := exposed_cur hx
      rcases (life_coherent h i).one with h1 | h1
      · rw [h1] at hpc
        cases hpc
      · rw [h1] at hcur
        cases hcur
    refine ⟨i, breaks_of_live rfl ⟨rfl, rfl, rfl, rfl⟩ hlive ?_ ?_⟩
    · simpa only [Function.update_of_ne hne] using life_coherent h i
    · simpa only [Function.update_of_ne hne] using hx
  | _ => exact absurd trivial hq

/-- A released port stays empty in every run in which an `IpcPortDestroy` succeeds only when nobody is exposed; and
one that succeeds when somebody is can be continued, by steps of a task that was exposed, to a state in which the port
is not empty. -/
theorem released_port_empty (h : lifeSystem.ReachableIf Quiet w) :
    StaysEmpty w.obj ∧ ∀ e w', lifeSystem.next w e = some w' → ¬Quiet w e → ∃ i, Breaks w' i := by
  have hinv : w.obj.phase = .released → Released w := by
    refine h.invariantFrom (I := fun w => w.obj.phase = .released → Released w) (fun _ => Code.fresh) ?_
      fun _ _ _ hf hi hq hn => released_next hf hi hq hn
    rintro w ⟨_, ⟨p, -, rfl⟩, rfl⟩ hphase
    cases hphase
  refine ⟨fun hphase => ?_, fun e w' hn hq => destroy_breaks h hq hn⟩
  obtain ⟨hempty, -, -⟩ := hinv hphase
  exact ⟨hempty.count, hempty.senders, hempty.receivers, hempty.accepted⟩

def destroyCall (id : ℕ) : List LifeEvent := .call id (.life .destroy false) :: List.replicate 2 (.step id)

def sendTested (id : ℕ) : List LifeEvent :=
  [.call id (.use ⟨.send false (some ⟨1, 0, fun _ => 7⟩), false⟩), .step id]

/-- The port is created, gets a message and is destroyed, and the next send is turned away. -/
theorem released_port_empty_dropped :
    ∃ w, lifeSystem.ReachableIf Quiet w ∧ w.obj.phase = .released ∧ (w.loc 1).last = some (.destroy, .ok) ∧
      (w.loc 2).port.done.map Outcome.status = [.ok, .errInvalid] ∧ StaysEmpty w.obj := by
  obtain ⟨w, -, hw, hp⟩ := System.exists_reachableIf Quiet life_boot
    (List.replicate 2 .create ++ createCall 1 ++ sendTested 2 ++ List.replicate 2 (.step 2) ++ destroyCall 1 ++
      sendTested 2)
    (fun w => w.obj.phase = .released ∧ (w.loc 1).last = some (.destroy, .ok) ∧
      (w.loc 2).port.done.map Outcome.status = [.ok, .errInvalid]) (by decide +kernel)
  obtain ⟨hphase, hlast, hdone⟩ := of_decide_eq_true hp
  exact ⟨w, hw, hphase, hlast, hdone, (released_port_empty hw).1⟩

/-- Task 2 is past the tests of `IpcTrySend` when task 1 destroys the port; its message
goes into the released port and the call returns `IpcOk`. -/
theorem released_port_accepts :
    ∃ w, lifeSystem.Reachable w ∧ (w.loc 1).last = some (.destroy, .ok) ∧
      (w.loc 2).port.done.map Outcome.status = [.ok] ∧ w.obj.base.port.count = 1 ∧ ¬StaysEmpty w.obj := by
  obtain ⟨w, -, hw, hp⟩ := System.exists_reachableIf (S := lifeSystem) (fun _ _ => True) life_boot
    (List.replicate 2 .create ++ createCall 1 ++ sendTested 2 ++ destroyCall 1 ++ List.replicate 2 (.step 2))
    (fun w => w.obj.phase = .released ∧ (w.loc 1).last = some (.destroy, .ok) ∧
      (w.loc 2).port.done.map Outcome.status = [.ok] ∧ w.obj.base.port.count = 1) (by decide +kernel)
  obtain ⟨hphase, hlast, hdone, hc⟩ := of_decide_eq_true hp
  refine ⟨w, hw, hlast, hdone, hc, fun hempty => ?_⟩
  have h0 := (hempty hphase).1
  omega

end Novium.Ipc
