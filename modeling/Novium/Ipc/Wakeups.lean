import Novium.Ipc.Parking
import Mathlib.Data.Finset.Card
import Mathlib.Data.Finset.Range

/-! Counting wakeups, for an object whose waiters look for something that other tasks
put there, be it permits, messages or room. A wakeup rests on a task that has put
something there and not yet been to the queue, and on a waiter that is off the queue
and awake or about to be woken. While a task sleeps on the queue, a wakeup rests on at
least as many tasks as there are things to be had. -/

namespace Novium.Ipc

open Novium.Lib

variable {O L C : Type}

instance (x : ℕ) (q : IpcWait) : Decidable (x ∈ q) := inferInstanceAs (Decidable (∃ i < q.count, q.ids i = x))

/-- Where a task stands with respect to one queue. -/
inductive Role where
  /-- neither waiting nor bringing anything -/
  | out
  /-- about to look for something, in a call that will wait for it -/
  | seek
  | park (p : ParkPc)
  /-- it has put something there and has to call `IpcWakeOne` -/
  | owe
  /-- it has taken `id` off the queue and has to wake it -/
  | wake (id : ℕ)
  deriving DecidableEq, Repr

namespace Role

def waits : Role → Bool
  | .seek | .park _ => true
  | _ => false

def wakes : Role → Bool
  | .wake _ => true
  | _ => false

/-- Whom the task is about to wake, itself if nobody. -/
def target (self : ℕ) : Role → ℕ
  | .wake id => id
  | _ => self

def ofWake : WakePc → Role
  | .take => .owe
  | .wake id => .wake id

def afterPark : ParkPc ⊕ IpcStatus → Role
  | .inl p => .park p
  | .inr .ok => .seek
  | .inr _ => .out

theorem afterPark_failed {st : IpcStatus} (h : st ≠ .ok) : afterPark (.inr st) = .out := by
  cases st with
  | ok => exact absurd rfl h
  | _ => rfl

end Role

/-- A step of the task `self`: the queue, what there is to be had and the role of the
task, before and after. -/
inductive LotStep (live : ℕ → Bool) (self : ℕ) (q : IpcWait) (a : ℕ) : Role → Effect → IpcWait → ℕ → Role → Prop where
  /-- whatever else the code does; it may take something without waiting for it -/
  | other {eff : Effect} {a' : ℕ} {r' : Role} : a' ≤ a → r' = .out ∨ r' = .seek → LotStep live self q a .out eff q a' r'
  | retry : LotStep live self q a .seek .stay q a .seek
  | get {a' : ℕ} : a' + 1 ≤ a → LotStep live self q a .seek .stay q a' .out
  | fail : a = 0 → LotStep live self q a .seek .stay q a (.park .check)
  | ready : 0 < a → LotStep live self q a (.park .check) .stay q a .seek
  | refuse : self = 0 ∨ a = 0 → LotStep live self q a (.park .check) .stay q a .out
  | join {q' : IpcWait} : self ≠ 0 → a = 0 → ipcWaitAdd q self = some q' →
      LotStep live self q a (.park .check) .block q' a (.park .woken)
  | leave : LotStep live self q a (.park .woken) .stay (ipcWaitRemove q self) a (.park .check)
  | give {a' : ℕ} : a' ≤ a + 1 → LotStep live self q a .out .stay q a' .owe
  | pick {q' : IpcWait} {id : ℕ} : ipcWaitTakeLive live q = some (q', id) →
      LotStep live self q a .owe .stay q' a (if id ≠ 0 then .wake id else .out)
  | rouse {id : ℕ} : LotStep live self q a (.wake id) (.wake id) q a .out

theorem lotStep_park (live : ℕ → Bool) (self : ℕ) (q : IpcWait) (a : ℕ) (p : ParkPc) :
    LotStep live self q a (.park p) (ipcPark self (decide (0 < a)) q p).2.2 (ipcPark self (decide (0 < a)) q p).1 a
      (Role.afterPark (ipcPark self (decide (0 < a)) q p).2.1) := by
  cases p with
  | woken => exact .leave
  | check =>
    simp only [ipcPark]
    split_ifs with h0 ha
    · exact .refuse (.inl h0)
    · exact .ready (of_decide_eq_true ha)
    · have ha0 : a = 0 := by simpa using ha
      cases hadd : ipcWaitAdd q self with
      | none => exact .refuse (.inr ha0)
      | some q' => exact .join h0 ha0 hadd

theorem lotStep_wake {live : ℕ → Bool} (self : ℕ) {q q' : IpcWait} (a : ℕ) {p : WakePc} {r : Option WakePc}
    {eff : Effect} (h : ipcWakeOne live q p = some (q', r, eff)) :
    LotStep live self q a (.ofWake p) eff q' a (r.elim .out .ofWake) := by
  cases p with
  | take =>
    obtain ⟨⟨q₁, id⟩, htake, he⟩ := Option.map_eq_some_iff.mp h
    cases he
    have hpick : LotStep live self q a .owe .stay q' a (if id ≠ 0 then .wake id else .out) := .pick htake
    by_cases hid : id = 0
    · simpa [hid, Role.ofWake] using hpick
    · simpa [hid, Role.ofWake] using hpick
  | wake id =>
    cases h
    exact .rouse

theorem LotStep.queueStep {live : ℕ → Bool} {self : ℕ} {q q' : IpcWait} {a a' : ℕ} {r r' : Role} {eff : Effect}
    (h : LotStep live self q a r eff q' a' r') :
    QueueStep live self q (decide (r = .park .woken)) q' (decide (r' = .park .woken)) := by
  cases h with
  | other | retry | get | fail | ready | refuse | give | rouse => exact .same
  | join h0 _ hadd => exact .join h0 hadd
  | leave => exact .leave
  | pick htake => exact .pick htake

/-- The world after a step of the task `self`. -/
abbrev World.after (w : World O L) (self : ℕ) (o' : O) (l' : L) (eff : Effect) : World O L :=
  ⟨o', eff.apply self w.tasks, Function.update w.loc self l'⟩

structure Lot (O L : Type) where
  queue : O → IpcWait
  avail : O → ℕ
  role : L → Role

namespace Lot

def view (t : Lot O L) : QueueView O L := ⟨t.queue, fun l => t.role l = .park .woken⟩

structure Lawful (t : Lot O L) (M : Code O L C) (good : O → L → Prop) : Prop where
  rest : t.role M.rest = .out
  start : ∀ {c l l'}, M.start c l = some l' → t.role l = .out ∧ (t.role l' = .out ∨ t.role l' = .seek)
  step : ∀ {live self o l o' l' eff}, good o l → M.step live self o l = some (o', l', eff) →
    LotStep live self (t.queue o) (t.avail o) (t.role l) eff (t.queue o') (t.avail o') (t.role l')

variable {t : Lot O L} {M : Code O L C} {good : O → L → Prop} {w w' : World O L}

theorem Lawful.view (h : t.Lawful M good) : t.view.Lawful M good where
  rest := by simp [Lot.view, h.rest]
  start hs := by simp [Lot.view, (h.start hs).1]
  step hg hs := (h.step hg hs).queueStep

/-- Awake, or taken off the queue by a task that is about to wake it. -/
def Stirs (t : Lot O L) (w : World O L) (i : ℕ) : Prop :=
  w.tasks.run i = .runnable ∨ ∃ j < w.tasks.nextId, w.tasks.live j = true ∧ t.role (w.loc j) = .wake i

def Carries (t : Lot O L) (w : World O L) (i : ℕ) : Prop :=
  w.tasks.live i = true ∧ (t.role (w.loc i) = .owe ∨
    (i ≠ 0 ∧ (t.role (w.loc i)).waits = true ∧ i ∉ t.queue w.obj ∧ t.Stirs w i))

instance (t : Lot O L) (w : World O L) (i : ℕ) : Decidable (t.Stirs w i) := inferInstanceAs (Decidable (_ ∨ _))

instance (t : Lot O L) (w : World O L) (i : ℕ) : Decidable (t.Carries w i) := inferInstanceAs (Decidable (_ ∧ _))

def carriers (t : Lot O L) (w : World O L) : Finset ℕ := (Finset.range w.tasks.nextId).filter (t.Carries w)

/-- A task is blocked with its id in the queue. -/
def Sleeper (t : Lot O L) (w : World O L) (x : ℕ) : Prop := x ∈ t.queue w.obj ∧ w.tasks.run x = .blocked

instance (t : Lot O L) (w : World O L) (x : ℕ) : Decidable (t.Sleeper w x) := inferInstanceAs (Decidable (_ ∧ _))

def Covered (t : Lot O L) (w : World O L) : Prop := (∃ x, t.Sleeper w x) → t.avail w.obj ≤ (t.carriers w).card

/-- What more there is to be had, there are more carriers for. -/
theorem Covered.of_card (h : t.Covered w) (hsleep : ∀ x, t.Sleeper w' x → t.Sleeper w x)
    (hcard : t.avail w'.obj + (t.carriers w).card ≤ t.avail w.obj + (t.carriers w').card) : t.Covered w' := by
  rintro ⟨x, hx⟩
  have := h ⟨x, hsleep x hx⟩
  omega

def awake (t : Lot O L) (w : World O L) : Finset ℕ :=
  (Finset.range w.tasks.nextId).filter fun i => w.tasks.run i = .runnable ∧ (t.role (w.loc i)).waits = true

def pending (t : Lot O L) (w : World O L) : Finset ℕ :=
  (Finset.range w.tasks.nextId).filter fun j =>
    w.tasks.live j = true ∧ (t.role (w.loc j) = .owe ∨ (t.role (w.loc j)).wakes = true)

/-- A waiter that is not awake is about to be woken by a task that wakes nobody else. -/
theorem card_carriers_le_add (t : Lot O L) (w : World O L) :
    (t.carriers w).card ≤ (t.awake w).card + (t.pending w).card := by
  have hsub : t.carriers w ⊆ t.awake w ∪ (t.pending w).image fun j => (t.role (w.loc j)).target j := by
    intro i hi
    obtain ⟨hlt, hlive, howe | ⟨-, hwaits, -, hrun | ⟨j, hj, hjl, hjr⟩⟩⟩ := Finset.mem_filter.mp hi
    · refine Finset.mem_union_right _ (Finset.mem_image.mpr ⟨i, Finset.mem_filter.mpr ⟨hlt, hlive, .inl howe⟩, ?_⟩)
      rw [howe]
      rfl
    · exact Finset.mem_union_left _ (Finset.mem_filter.mpr ⟨hlt, hrun, hwaits⟩)
    · refine Finset.mem_union_right _ (Finset.mem_image.mpr ⟨j, Finset.mem_filter.mpr ⟨?_, hjl, .inr ?_⟩, ?_⟩)
      · exact Finset.mem_range.mpr hj
      · rw [hjr]
        rfl
      · rw [hjr]
        rfl
  calc (t.carriers w).card
      ≤ (t.awake w ∪ (t.pending w).image fun j => (t.role (w.loc j)).target j).card := Finset.card_le_card hsub
    _ ≤ (t.awake w).card + ((t.pending w).image fun j => (t.role (w.loc j)).target j).card := Finset.card_union_le _ _
    _ ≤ (t.awake w).card + (t.pending w).card := Nat.add_le_add_left Finset.card_image_le _

theorem covered_of_avail_zero (h : t.avail w'.obj = 0) : t.Covered w' := fun _ => by omega

section Step

variable {self : ℕ} {o' : O} {l' : L} {eff : Effect}

theorem apply_runnable {ts : Tasks} {i : ℕ} (h : ts.run i = .runnable) (hi : i ≠ self ∨ eff ≠ .block) :
    (eff.apply self ts).run i = .runnable := by
  cases eff with
  | stay => exact h
  | block =>
    have hne : i ≠ self := hi.resolve_right fun hb => hb rfl
    rw [Effect.apply, Tasks.setRun_run, if_neg hne]
    exact h
  | wake id =>
    rw [Effect.apply, Tasks.wake_run]
    split_ifs
    · rfl
    · exact h

theorem apply_blocked {ts : Tasks} {i : ℕ} (h : (eff.apply self ts).run i = .blocked) (hi : i ≠ self) :
    ts.run i = .blocked := by
  cases eff with
  | stay => exact h
  | block =>
    rw [Effect.apply, Tasks.setRun_run, if_neg hi] at h
    exact h
  | wake id =>
    rw [Effect.apply, Tasks.wake_run] at h
    split_ifs at h
    exact h

variable (hrun : w.tasks.run self = .runnable) (hls : LotStep w.tasks.live self (t.queue w.obj) (t.avail w.obj)
  (t.role (w.loc self)) eff (t.queue o') (t.avail o') (t.role l'))
include hrun hls

theorem stirs_other {i : ℕ} (hi : i ≠ self) (hlive : w.tasks.live i = true) (h : t.Stirs w i) :
    t.Stirs (w.after self o' l' eff) i := by
  rcases h with h | ⟨j, hj, hjl, hjr⟩
  · exact .inl (apply_runnable h (.inl hi))
  · by_cases hjs : j = self
    · subst hjs
      rw [hjr] at hls
      generalize hr : t.role l' = r' at hls
      generalize hq : t.queue o' = q', ha : t.avail o' = a' at hls
      cases hls
      left
      show (w.tasks.wake i).run i = .runnable
      rw [Tasks.wake_run]
      split_ifs with hb
      · rfl
      · cases hri : w.tasks.run i with
        | gone => simp [Tasks.live, hri] at hlive
        | runnable => rfl
        | blocked => simp [hri] at hb
    · refine .inr ⟨j, by simpa using hj, ?_, ?_⟩
      · rw [Effect.apply_live hrun]
        exact hjl
      · simp only [Function.update_of_ne hjs]
        exact hjr

theorem carries_other (hseat : t.view.Seated w) {i : ℕ} (hi : i ≠ self) (h : t.Carries w i) :
    t.Carries (w.after self o' l' eff) i := by
  obtain ⟨hlive, h⟩ := h
  refine ⟨by rw [Effect.apply_live hrun]; exact hlive, ?_⟩
  simp only [Function.update_of_ne hi]
  rcases h with h | ⟨h0, hw, hq, hs⟩
  · exact .inl h
  · refine .inr ⟨h0, hw, fun hin => ?_, stirs_other hrun hls hi hlive hs⟩
    rcases (QueueView.step_mem hseat.wellFormed hls.queueStep).2 i hin with ⟨hin, -⟩ | ⟨he, -⟩
    · exact hq hin
    · exact hi he

omit hrun in
theorem sleeper_other (hseat : t.view.Seated w) {x : ℕ} (hx : x ≠ self)
    (h : t.Sleeper (w.after self o' l' eff) x) : t.Sleeper w x := by
  obtain ⟨hin, hb⟩ := h
  rcases (QueueView.step_mem hseat.wellFormed hls.queueStep).2 x hin with ⟨hin, -⟩ | ⟨he, -⟩
  · exact ⟨hin, apply_blocked hb hx⟩
  · exact absurd he hx

omit hls in
theorem not_sleeper_self (heff : eff ≠ .block) :
    ¬t.Sleeper (w.after self o' l' eff) self := by
  rintro ⟨-, hb⟩
  have : (eff.apply self w.tasks).run self = .blocked := hb
  rw [apply_runnable hrun (.inr heff)] at this
  cases this

theorem carries_self (hseat : t.view.Seated w) (heff : eff ≠ .block) (howe : t.role (w.loc self) ≠ .owe)
    (hwaits : (t.role l').waits = true) (hup : t.role l' ≠ .park .woken) (h : t.Carries w self) :
    t.Carries (w.after self o' l' eff) self := by
  obtain ⟨hlive, h⟩ := h
  obtain ⟨h0, -, hq, -⟩ := h.resolve_left howe
  refine ⟨by rw [Effect.apply_live hrun]; exact hlive, .inr ⟨h0, ?_, fun hin => ?_, ?_⟩⟩
  · simpa only [Function.update_self] using hwaits
  · rcases (QueueView.step_mem hseat.wellFormed hls.queueStep).2 self hin with ⟨hin, -⟩ | ⟨-, hb⟩
    · exact hq hin
    · exact hup (of_decide_eq_true hb)
  · exact .inl (apply_runnable hrun (.inr heff))

theorem carriers_erase_subset (hseat : t.view.Seated w) : (t.carriers w).erase self ⊆
    t.carriers (w.after self o' l' eff) := by
  intro i hi
  rw [Finset.mem_erase, carriers, Finset.mem_filter, Finset.mem_range] at hi
  rw [carriers, Finset.mem_filter, Finset.mem_range, Effect.apply_nextId]
  exact ⟨hi.2.1, carries_other hrun hls hseat hi.1 hi.2.2⟩

theorem card_carriers_le (hseat : t.view.Seated w) : (t.carriers w).card ≤
    (t.carriers (w.after self o' l' eff)).card + 1 := by
  have hlose := Finset.pred_card_le_card_erase (s := t.carriers w) (a := self)
  have hle := Finset.card_le_card (carriers_erase_subset hrun hls hseat)
  omega

omit hls in
theorem insert_subset (hf : M.Fresh w) {A : Finset ℕ} {i : ℕ}
    (hA : A ⊆ t.carriers (w.after self o' l' eff))
    (hi : t.Carries (w.after self o' l' eff) i) :
    insert i A ⊆ t.carriers (w.after self o' l' eff) := by
  have hlive : w.tasks.live i = true := by rw [← Effect.apply_live hrun eff i]; exact hi.1
  refine Finset.insert_subset ?_ hA
  rw [carriers, Finset.mem_filter, Finset.mem_range, Effect.apply_nextId]
  exact ⟨Code.live_lt hf hlive, hi⟩

section Rules

variable (hf : M.Fresh w) (hseat : t.view.Seated w) (h : t.Covered w)
  (hself : ¬t.Sleeper (w.after self o' l' eff) self)
include hf hseat h hself

omit hrun hf h in
theorem sleepers_stay (x : ℕ) (hx : t.Sleeper (w.after self o' l' eff) x) :
    t.Sleeper w x := by
  by_cases hxs : x = self
  · exact absurd (hxs ▸ hx) hself
  · exact sleeper_other hls hseat hxs hx

omit hf in
theorem Covered.lose (hav : t.avail o' + 1 ≤ t.avail w.obj) :
    t.Covered (w.after self o' l' eff) := by
  refine h.of_card (sleepers_stay hls hseat hself) ?_
  have hcard := card_carriers_le hrun hls hseat
  show t.avail o' + _ ≤ _
  omega

theorem Covered.keep (hav : t.avail o' ≤ t.avail w.obj)
    (hk : t.Carries w self → t.Carries (w.after self o' l' eff) self) :
    t.Covered (w.after self o' l' eff) := by
  refine h.of_card (sleepers_stay hls hseat hself) (Nat.add_le_add hav (Finset.card_le_card ?_))
  have hsub := carriers_erase_subset hrun hls hseat
  by_cases hc : t.Carries w self
  · have hins := insert_subset hrun hf hsub (hk hc)
    exact (Finset.insert_erase_subset self (t.carriers w)).trans hins
  · have hnot : self ∉ t.carriers w := fun hin => hc (Finset.mem_filter.mp hin).2
    rwa [Finset.erase_eq_of_notMem hnot] at hsub

theorem Covered.gain (hav : t.avail o' ≤ t.avail w.obj + 1) (hno : ¬t.Carries w self)
    (hyes : t.Carries (w.after self o' l' eff) self) :
    t.Covered (w.after self o' l' eff) := by
  refine h.of_card (sleepers_stay hls hseat hself) ?_
  have hnot : self ∉ t.carriers w := fun hin => hno (Finset.mem_filter.mp hin).2
  have hsub := carriers_erase_subset hrun hls hseat
  rw [Finset.erase_eq_of_notMem hnot] at hsub
  have hcard := Finset.card_le_card (insert_subset hrun hf hsub hyes)
  rw [Finset.card_insert_of_notMem hnot] at hcard
  show t.avail o' + _ ≤ _
  omega

theorem Covered.pass {i : ℕ} (hav : t.avail o' ≤ t.avail w.obj) (hno : ¬t.Carries w i)
    (hyes : t.Carries (w.after self o' l' eff) i) :
    t.Covered (w.after self o' l' eff) := by
  refine h.of_card (sleepers_stay hls hseat hself) (Nat.add_le_add hav ?_)
  have hnot : i ∉ (t.carriers w).erase self := fun hin => hno (Finset.mem_filter.mp (Finset.mem_erase.mp hin).2).2
  have hcard := Finset.card_le_card (insert_subset hrun hf (carriers_erase_subset hrun hls hseat) hyes)
  rw [Finset.card_insert_of_notMem hnot] at hcard
  have hlose := Finset.pred_card_le_card_erase (s := t.carriers w) (a := self)
  omega

end Rules

omit hrun hls in
theorem not_carries {i : ℕ} (howe : t.role (w.loc i) ≠ .owe)
    (hrest : (t.role (w.loc i)).waits = true → i = 0 ∨ i ∈ t.queue w.obj) : ¬t.Carries w i := by
  rintro ⟨-, h | ⟨h0, hwaits, hq, -⟩⟩
  · exact howe h
  · exact (hrest hwaits).elim h0 hq

/-- Whoever is taken off the queue has the wakeup of the task that took it off. -/
theorem Covered.pick {q' : IpcWait} {id : ℕ} (hf : M.Fresh w) (hseat : t.view.Seated w) (h : t.Covered w)
    (heff : eff = .stay) (hr : t.role (w.loc self) = .owe)
    (htake : ipcWaitTakeLive w.tasks.live (t.queue w.obj) = some (q', id))
    (hq' : t.queue o' = q') (ha' : t.avail o' = t.avail w.obj) (hr' : t.role l' = if id ≠ 0 then .wake id else .out) :
    t.Covered (w.after self o' l' eff) := by
  have hself : ¬t.Sleeper (w.after self o' l' eff) self := not_sleeper_self hrun (by simp [heff])
  have hlive : w.tasks.live self = true := Tasks.live_iff.mpr (by simp [hrun])
  obtain ⟨-, ⟨h0, hin, hlive', hmem⟩ | ⟨-, hempty, -⟩⟩ := ipcWaitTakeLive_cases hseat.wellFormed htake
  · have hpark : t.role (w.loc id) = .park .woken := of_decide_eq_true (hseat.asleep id hin)
    have hne : id ≠ self := by
      rintro rfl
      rw [hr] at hpark
      cases hpark
    refine h.pass hrun hls hf hseat hself ha'.le (i := id) (not_carries (by simp [hpark]) fun _ => .inr hin) ?_
    refine ⟨by rw [Effect.apply_live hrun]; exact hlive', .inr ⟨h0, ?_, ?_, .inr ⟨self, ?_, ?_, ?_⟩⟩⟩
    · simp [Function.update_of_ne hne, hpark, Role.waits]
    · show id ∉ t.queue o'
      rw [hq', hmem]
      exact fun hx => hx.2 rfl
    · simpa using Code.live_lt hf hlive
    · rw [Effect.apply_live hrun]
      exact hlive
    · simpa only [Function.update_self, if_pos h0] using hr'
  · rintro ⟨x, ⟨i, hi, -⟩, -⟩
    have hi' : i < (t.queue o').count := hi
    rw [hq', hempty] at hi'
    omega

theorem Covered.step (hf : M.Fresh w) (hseat : t.view.Seated w) (h : t.Covered w) :
    t.Covered (w.after self o' l' eff) := by
  have hcase := hls
  generalize hr : t.role (w.loc self) = r, hr' : t.role l' = r', hq' : t.queue o' = q', ha' : t.avail o' = a'
    at hcase
  cases hcase with
  | other hle hout =>
    have hoff : self ∉ t.queue w.obj := hseat.notMem (by simp [view, hr])
    have hself : ¬t.Sleeper (w.after self o' l' eff) self := fun hs => hoff (hq' ▸ hs.1)
    refine h.keep hrun hls hf hseat hself (ha' ▸ hle) fun hc => ?_
    exact absurd hc (not_carries (by simp [hr]) (by simp [hr, Role.waits]))
  | retry =>
    refine h.keep hrun hls hf hseat (not_sleeper_self hrun (by simp)) ha'.le ?_
    exact carries_self hrun hls hseat (by simp) (by simp [hr]) (by simp [hr', Role.waits]) (by simp [hr'])
  | get hlt => exact h.lose hrun hls hseat (not_sleeper_self hrun (by simp)) (by omega)
  | fail h0 => exact covered_of_avail_zero (ha'.trans h0)
  | ready hpos =>
    refine h.keep hrun hls hf hseat (not_sleeper_self hrun (by simp)) ha'.le ?_
    exact carries_self hrun hls hseat (by simp) (by simp [hr]) (by simp [hr', Role.waits]) (by simp [hr'])
  | refuse hno =>
    rcases hno with h0 | h0
    · refine h.keep hrun hls hf hseat (not_sleeper_self hrun (by simp)) ha'.le fun hc => ?_
      exact absurd hc (not_carries (by simp [hr]) fun _ => .inl h0)
    · exact covered_of_avail_zero (ha'.trans h0)
  | join _ h0 _ => exact covered_of_avail_zero (ha'.trans h0)
  | leave =>
    refine h.keep hrun hls hf hseat (not_sleeper_self hrun (by simp)) ha'.le ?_
    exact carries_self hrun hls hseat (by simp) (by simp [hr]) (by simp [hr', Role.waits]) (by simp [hr'])
  | give hle =>
    refine h.gain hrun hls hf hseat (not_sleeper_self hrun (by simp)) (ha' ▸ hle) ?_ ?_
    · exact not_carries (by simp [hr]) (by simp [hr, Role.waits])
    · refine ⟨?_, .inl ?_⟩
      · rw [Effect.apply_live hrun]
        exact Tasks.live_iff.mpr (by simp [hrun])
      · simpa only [Function.update_self] using hr'
  | pick htake => exact h.pick hrun hls hf hseat rfl hr htake hq' ha' hr'
  | rouse =>
    refine h.keep hrun hls hf hseat (not_sleeper_self hrun (by simp)) ha'.le fun hc => ?_
    exact absurd hc (not_carries (by simp [hr]) (by simp [hr, Role.waits]))

end Step

/-- A killed task takes a wakeup with it: its own, or that of the task it was to wake. -/
def Bears (t : Lot O L) (w : World O L) (id : ℕ) : Prop :=
  id ≠ 0 ∧ w.tasks.live id = true ∧ (t.Carries w id ∨ (t.role (w.loc id)).wakes = true)

instance (t : Lot O L) (w : World O L) (id : ℕ) : Decidable (t.Bears w id) := inferInstanceAs (Decidable (_ ∧ _ ∧ _))

theorem stirs_kill {id i : ℕ} (hi : i ≠ id) (hb : ¬t.Bears w id ∨ t.role (w.loc id) ≠ .wake i)
    (h : t.Stirs w i) : t.Stirs { w with tasks := w.tasks.kill id } i := by
  rcases h with h | ⟨j, hj, hjl, hjr⟩
  · left
    show (w.tasks.kill id).run i = .runnable
    unfold Tasks.kill
    split_ifs
    · exact h
    · rw [Tasks.setRun_run, if_neg hi]
      exact h
  · refine .inr ⟨j, by simpa using hj, ?_, hjr⟩
    rw [Tasks.kill_live]
    split_ifs with hjid
    · obtain ⟨rfl, h0⟩ := hjid
      rcases hb with hb | hb
      · exact absurd ⟨h0, hjl, .inr (by simp [hjr, Role.wakes])⟩ hb
      · exact absurd hjr hb
    · exact hjl

theorem carries_kill {id i : ℕ} (hi : i ≠ id) (hb : ¬t.Bears w id ∨ t.role (w.loc id) ≠ .wake i)
    (h : t.Carries w i) : t.Carries { w with tasks := w.tasks.kill id } i := by
  refine ⟨?_, h.2.imp_right fun ⟨h0, hw, hq, hs⟩ => ⟨h0, hw, hq, stirs_kill hi hb hs⟩⟩
  rw [Tasks.kill_live, if_neg fun e => hi e.1]
  exact h.1

theorem sleeper_kill {id x : ℕ} (h : t.Sleeper { w with tasks := w.tasks.kill id } x) :
    t.Sleeper w x ∧ (id ≠ 0 → x ≠ id) := by
  obtain ⟨hin, hb⟩ := h
  have hb' : (w.tasks.kill id).run x = .blocked := hb
  unfold Tasks.kill at hb'
  split_ifs at hb' with h0
  · exact ⟨⟨hin, hb'⟩, fun h => absurd h0 h⟩
  · rw [Tasks.setRun_run] at hb'
    split_ifs at hb' with hx
    exact ⟨⟨hin, hb'⟩, fun _ => hx⟩

theorem erase_kill_subset (t : Lot O L) (w : World O L) (id : ℕ) :
    ∃ i, (t.carriers w).erase i ⊆ t.carriers { w with tasks := w.tasks.kill id } := by
  have hkeep : ∀ i, i ≠ id → t.role (w.loc id) ≠ .wake i → i ∈ t.carriers w →
      i ∈ t.carriers { w with tasks := w.tasks.kill id } := by
    intro i hi hw hin
    rw [carriers, Finset.mem_filter, Finset.mem_range] at hin ⊢
    exact ⟨by simpa using hin.1, carries_kill hi (.inr hw) hin.2⟩
  by_cases hw : ∃ x, t.role (w.loc id) = .wake x
  · obtain ⟨x, hx⟩ := hw
    refine ⟨x, fun i hi => ?_⟩
    obtain ⟨hix, hin⟩ := Finset.mem_erase.mp hi
    refine hkeep i ?_ (fun he => ?_) hin
    · rintro rfl
      exact not_carries (by simp [hx]) (by simp [hx, Role.waits]) (Finset.mem_filter.mp hin).2
    · rw [hx] at he
      cases he
      exact hix rfl
  · refine ⟨id, fun i hi => ?_⟩
    obtain ⟨hii, hin⟩ := Finset.mem_erase.mp hi
    exact hkeep i hii (fun he => hw ⟨i, he⟩) hin

/-- A kill hits nobody that a wakeup rests on, or nobody else sleeps, or there are more
wakeups than things to be had. -/
def Spares (t : Lot O L) (w : World O L) : Event C → Prop
  | .kill id => t.Bears w id →
      (∀ x < w.tasks.nextId, x ≠ id → ¬t.Sleeper w x) ∨ t.avail w.obj < (t.carriers w).card
  | _ => True

instance (t : Lot O L) (w : World O L) : (e : Event C) → Decidable (t.Spares w e)
  | .kill _ => inferInstanceAs (Decidable (_ → _ ∨ _))
  | .call _ _ | .step _ | .undo _ | .create => .isTrue trivial

theorem Covered.kill {id : ℕ} (hf : M.Fresh w) (h : t.Covered w) (hok : t.Spares w (.kill id : Event C)) :
    t.Covered { w with tasks := w.tasks.kill id } := by
  by_cases hb : t.Bears w id
  · rcases hok hb with hnone | hmore
    · rintro ⟨x, hx⟩
      obtain ⟨hs, hne⟩ := sleeper_kill hx
      have hlive : w.tasks.live x = true := Tasks.live_iff.mpr (by simp [hs.2])
      exact absurd hs (hnone x (Code.live_lt hf hlive) (hne hb.1))
    · intro _
      obtain ⟨i, hsub⟩ := erase_kill_subset t w id
      have hcard := Finset.card_le_card hsub
      have hlose := Finset.pred_card_le_card_erase (s := t.carriers w) (a := i)
      show t.avail w.obj ≤ _
      omega
  · refine h.of_card (fun x hx => (sleeper_kill hx).1) (Nat.add_le_add_left (Finset.card_le_card fun i hi => ?_) _)
    rw [carriers, Finset.mem_filter, Finset.mem_range] at hi ⊢
    refine ⟨by simpa using hi.1, ?_⟩
    by_cases hid : i = id
    · subst hid
      have h0 : i = 0 := by
        by_contra h0
        exact hb ⟨h0, hi.2.1, .inl hi.2⟩
      subst h0
      exact hi.2
    · exact carries_kill hid (.inl hb) hi.2

theorem Covered.extend (h : t.Covered w) (hobj : w'.obj = w.obj) (hnext : w.tasks.nextId ≤ w'.tasks.nextId)
    (hrole : ∀ i, w.tasks.live i = true → t.role (w.loc i) ≠ .out → t.role (w'.loc i) = t.role (w.loc i))
    (hlive : ∀ i, w.tasks.live i = true → w'.tasks.live i = true)
    (hup : ∀ i, w.tasks.run i = .runnable → w'.tasks.run i = .runnable)
    (hdown : ∀ i, w'.tasks.run i = .blocked → w.tasks.run i = .blocked) : t.Covered w' := by
  have hstirs : ∀ i, t.Stirs w i → t.Stirs w' i := by
    rintro i (hi | ⟨j, hj, hjl, hjr⟩)
    · exact .inl (hup i hi)
    · refine .inr ⟨j, by omega, hlive j hjl, ?_⟩
      rw [hrole j hjl (by simp [hjr]), hjr]
  have hcarries : ∀ i, t.Carries w i → t.Carries w' i := by
    rintro i ⟨hi, hr | ⟨h0, hw, hq, hs⟩⟩
    · refine ⟨hlive i hi, .inl ?_⟩
      rw [hrole i hi (by simp [hr]), hr]
    · refine ⟨hlive i hi, .inr ⟨h0, ?_, hobj ▸ hq, hstirs i hs⟩⟩
      rw [hrole i hi (by intro hr; simp [hr, Role.waits] at hw)]
      exact hw
  refine h.of_card (fun x hx => ⟨hobj ▸ hx.1, hdown x hx.2⟩) ?_
  rw [hobj]
  refine Nat.add_le_add_left (Finset.card_le_card fun i hi => ?_) _
  rw [carriers, Finset.mem_filter, Finset.mem_range] at hi ⊢
  exact ⟨by omega, hcarries i hi.2⟩

theorem Covered.next (ht : t.Lawful M good) (hf : M.Fresh w) (hgood : ∀ id, good w.obj (w.loc id))
    (hseat : t.view.Seated w) {e : Event C} (h : t.Covered w) (hok : t.Spares w e) (hn : M.next w e = some w') :
    t.Covered w' := by
  rcases Code.next_cases hn with ⟨id, c, l, -, -, hs, rfl⟩ | ⟨self, o, l, eff, -, hrun, hs, rfl⟩ | ⟨id, -, rfl⟩ |
    ⟨id, rfl, rfl⟩ | ⟨-, rfl⟩
  · refine h.extend rfl le_rfl (fun i _ hi => ?_) (fun _ hi => hi) (fun _ hi => hi) fun _ hi => hi
    have hne : i ≠ id := fun e => hi (e ▸ (ht.start hs).1)
    simp only [Function.update_of_ne hne]
  · exact h.step hrun (ht.step (hgood self) hs) hf hseat
  · refine h.extend rfl (by simp) (fun _ _ _ => rfl) (fun i hi => by simpa using hi) (fun i hi => ?_) fun i hi => ?_
    · rw [Tasks.wake_run, hi]
      split_ifs <;> rfl
    · rw [Tasks.wake_run] at hi
      split_ifs at hi
      exact hi
  · exact h.kill hf hok
  · have hnew : ∀ i, w.tasks.live i = true → i ≠ w.tasks.nextId := fun i hi => (Code.live_lt hf hi).ne
    refine h.extend rfl (by simp) (fun i hi _ => ?_) (fun i hi => ?_) (fun i hi => ?_) fun i hi => ?_
    · simp only [Function.update_of_ne (hnew i hi)]
    · rw [Tasks.create_live, if_neg (hnew i hi)]
      exact hi
    · have hne := hnew i (Tasks.live_iff.mpr (by simp [hi]))
      simpa [Tasks.create, hne] using hi
    · have hi' : w.tasks.create.run i = .blocked := hi
      simp only [Tasks.create, Tasks.setRun_run] at hi'
      split_ifs at hi'
      exact hi'

theorem covered {init : O → Prop} {ok : World O L → Event C → Prop} (ht : t.Lawful M good)
    (hinit : ∀ o, init o → t.queue o = emptyWait)
    (hgood : ∀ w, (M.system init).ReachableIf ok w → ∀ id, good w.obj (w.loc id))
    (hok : ∀ w e, ok w e → t.Spares w e) (h : (M.system init).ReachableIf ok w) : t.Covered w := by
  refine h.invariantFrom (J := fun w => M.Fresh w ∧ (∀ id, good w.obj (w.loc id)) ∧ t.view.Seated w)
    (fun w hr => ⟨Code.fresh hr, hgood w hr, QueueView.seated ht.view hinit hgood hr⟩) ?_
    fun _ _ _ hJ hc he hn => hc.next ht hJ.1 hJ.2.1 hJ.2.2 (hok _ _ he) hn
  rintro w ⟨o, ho, rfl⟩ ⟨x, hx, -⟩
  have hx' : x ∈ t.queue o := hx
  rw [hinit o ho] at hx'
  exact absurd hx' (QueueView.notMem_empty x)

end Lot

end Novium.Ipc
