import Novium.Ipc.Machine

/-! Who is on a wait queue, whatever the object it belongs to: the entries are distinct
ids, each of a task behind the `SchedBlock` of an `IpcPark` on that queue. -/

namespace Novium.Ipc

open Novium.Lib

variable {O L C : Type}

/-- A queue in the object, and the place of the code that is behind its `SchedBlock`. -/
structure QueueView (O L : Type) where
  queue : O → IpcWait
  asleep : L → Bool

/-- The queue before and after a step, with whether the caller was and is asleep on it. -/
inductive QueueStep (live : ℕ → Bool) (self : ℕ) (q : IpcWait) : Bool → IpcWait → Bool → Prop where
  | same {b : Bool} : QueueStep live self q false q b
  | join {q' : IpcWait} : self ≠ 0 → ipcWaitAdd q self = some q' → QueueStep live self q false q' true
  | leave {b : Bool} : QueueStep live self q true (ipcWaitRemove q self) b
  | pick {q' : IpcWait} {id : ℕ} {b : Bool} : ipcWaitTakeLive live q = some (q', id) →
      QueueStep live self q false q' b
  | clear {b : Bool} : QueueStep live self q false emptyWait b

theorem queueStep_park (live : ℕ → Bool) (self : ℕ) (ready : Bool) (q : IpcWait) (p : ParkPc) :
    QueueStep live self q (decide (p = .woken)) (ipcPark self ready q p).1
      (decide ((ipcPark self ready q p).2.1 = .inl .woken)) := by
  cases p with
  | woken => exact .leave
  | check =>
    simp only [ipcPark]
    split_ifs with h0
    · exact .same
    · exact .same
    · cases hadd : ipcWaitAdd q self with
      | none => exact .same
      | some q' => exact .join h0 hadd

theorem queueStep_wake {live : ℕ → Bool} (self : ℕ) {q q' : IpcWait} {p : WakePc} {r : Option WakePc} {eff : Effect}
    (h : ipcWakeOne live q p = some (q', r, eff)) (b : Bool) : QueueStep live self q false q' b := by
  cases p with
  | take =>
    obtain ⟨⟨q₁, id⟩, htake, he⟩ := Option.map_eq_some_iff.mp h
    cases he
    exact .pick htake
  | wake id =>
    cases h
    exact .same

namespace QueueView

/-- The code touches the queue only in these ways; `good` is what is known of the object
and of a task when it makes a step. -/
structure Lawful (v : QueueView O L) (M : Code O L C) (good : O → L → Prop) : Prop where
  rest : v.asleep M.rest = false
  start : ∀ {c l l'}, M.start c l = some l' → v.asleep l = false
  step : ∀ {live self o l o' l' eff}, good o l → M.step live self o l = some (o', l', eff) →
    QueueStep live self (v.queue o) (v.asleep l) (v.queue o') (v.asleep l')

/-- The entries are distinct ids of tasks that are behind `SchedBlock`. -/
structure Seated (v : QueueView O L) (w : World O L) : Prop where
  wellFormed : WellFormed (v.queue w.obj)
  asleep : ∀ x ∈ v.queue w.obj, v.asleep (w.loc x) = true

variable {v : QueueView O L} {M : Code O L C} {good : O → L → Prop} {w w' : World O L}

theorem notMem_empty (x : ℕ) : x ∉ emptyWait := by
  rintro ⟨i, hi, -⟩
  exact Nat.not_lt_zero i hi

theorem Seated.notMem (h : v.Seated w) {x : ℕ} (hx : v.asleep (w.loc x) = false) : x ∉ v.queue w.obj := by
  intro hin
  rw [h.asleep x hin] at hx
  cases hx

theorem step_mem {live : ℕ → Bool} {self : ℕ} {q q' : IpcWait} {b b' : Bool} (h : WellFormed q)
    (hs : QueueStep live self q b q' b') :
    WellFormed q' ∧ ∀ x ∈ q', (x ∈ q ∧ (b = true → x ≠ self)) ∨ (x = self ∧ b' = true) := by
  cases hs with
  | same => exact ⟨h, fun x hx => .inl ⟨hx, fun hb => by cases hb⟩⟩
  | join h0 hadd =>
    obtain ⟨hwf, hmem⟩ := ipcWaitAdd_spec h h0 hadd
    refine ⟨hwf, fun x hx => ?_⟩
    rcases (hmem x).mp hx with hx | hx
    · exact .inl ⟨hx, fun hb => by cases hb⟩
    · exact .inr ⟨hx, rfl⟩
  | leave =>
    obtain ⟨hwf, hmem⟩ := ipcWaitRemove_spec h self
    exact ⟨hwf, fun x hx => .inl ⟨((hmem x).mp hx).1, fun _ => ((hmem x).mp hx).2⟩⟩
  | pick htake =>
    obtain ⟨hwf, hcase⟩ := ipcWaitTakeLive_cases h htake
    refine ⟨hwf, fun x hx => .inl ⟨?_, fun hb => by cases hb⟩⟩
    rcases hcase with ⟨-, -, -, hmem⟩ | ⟨-, hc, -⟩
    · exact ((hmem x).mp hx).1
    · obtain ⟨i, hi, -⟩ := hx
      omega
  | clear => exact ⟨wellFormed_empty, fun x hx => absurd hx (notMem_empty x)⟩

theorem Seated.next (hv : v.Lawful M good) (hf : M.Fresh w) (hgood : ∀ id, good w.obj (w.loc id)) {e : Event C}
    (h : v.Seated w) (hn : M.next w e = some w') : v.Seated w' := by
  rcases Code.next_cases hn with ⟨id, c, l, -, -, hs, rfl⟩ | ⟨self, o, l, eff, -, -, hs, rfl⟩ | ⟨_, -, rfl⟩ |
    ⟨_, -, rfl⟩ | ⟨-, rfl⟩
  · refine ⟨h.wellFormed, fun x hx => ?_⟩
    have hne : x ≠ id := fun e => h.notMem (hv.start hs) (e ▸ hx)
    simp only [Function.update_of_ne hne]
    exact h.asleep x hx
  · obtain ⟨hwf, hmem⟩ := step_mem h.wellFormed (hv.step (hgood self) hs)
    refine ⟨hwf, fun x hx => ?_⟩
    rcases hmem x hx with ⟨hin, hself⟩ | ⟨rfl, hb⟩
    · have hne : x ≠ self := fun e => hself (e ▸ h.asleep x hin) e
      simp only [Function.update_of_ne hne]
      exact h.asleep x hin
    · simpa only [Function.update_self] using hb
  · exact ⟨h.wellFormed, h.asleep⟩
  · exact ⟨h.wellFormed, h.asleep⟩
  · refine ⟨h.wellFormed, fun x hx => ?_⟩
    have hnew : v.asleep (w.loc w.tasks.nextId) = false := by
      rw [(hf _ (Nat.le_refl _)).1]
      exact hv.rest
    have hne : x ≠ w.tasks.nextId := fun e => h.notMem hnew (e ▸ hx)
    simp only [Function.update_of_ne hne]
    exact h.asleep x hx

theorem seated {init : O → Prop} {ok : World O L → Event C → Prop} (hv : v.Lawful M good)
    (hinit : ∀ o, init o → v.queue o = emptyWait)
    (hgood : ∀ w, (M.system init).ReachableIf ok w → ∀ id, good w.obj (w.loc id))
    (h : (M.system init).ReachableIf ok w) : v.Seated w := by
  refine h.invariantFrom (J := fun w => M.Fresh w ∧ ∀ id, good w.obj (w.loc id))
    (fun w hr => ⟨Code.fresh hr, hgood w hr⟩) ?_ fun _ _ _ hJ hs _ hn => hs.next hv hJ.1 hJ.2 hn
  rintro w ⟨o, ho, rfl⟩
  refine ⟨?_, fun x hx => ?_⟩
  · show WellFormed (v.queue o)
    rw [hinit o ho]
    exact wellFormed_empty
  · have hx' : x ∈ v.queue o := hx
    rw [hinit o ho] at hx'
    exact absurd hx' (notMem_empty x)

end QueueView

end Novium.Ipc
