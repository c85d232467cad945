import Novium.Sched.Census

/-! Task ids identify tasks. The scheduler is run beside the list of the ids it has
given out, each with the descriptor that received it; as long as the counter has
not wrapped, a live descriptor carries the newest id given to it, and no two
entries of the list carry the same id. -/

namespace Novium.Sched

open Novium.Lib

structure Ledger where
  sched : State
  /-- The id and the descriptor of every successful `SchedCreate`, newest first. -/
  created : List (ℕ × TaskRef)

namespace Ledger

/-- `SchedInit` gives the id 0 to `Tasks[0]`. -/
def issued (w : Ledger) : List (ℕ × TaskRef) := w.created ++ [(0, idleRef)]

def record (w : Ledger) (e : Event) (s' : State) : Ledger :=
  ⟨s', ((e.creates w.sched).map fun t => (s'.id t, t)).toList ++ w.created⟩

def system : System Ledger Event where
  init w := Sched.system.init w.sched ∧ w.created = []
  next w e := (Sched.system.next w.sched e).map (w.record e)

end Ledger

/-- `SchedLock` is not among the calls of the run. -/
def NeverLocks (_ : Ledger) (e : Event) : Prop := e.locks = false

instance (w : Ledger) (e : Event) : Decidable (NeverLocks w e) := inferInstanceAs (Decidable (_ = _))

/-- The newest entry for each live descriptor is the id it carries. -/
structure Ledger.Known (w : Ledger) : Prop where
  next : w.sched.nextTaskId = w.issued.length
  below : ∀ p ∈ w.issued, p.1 < w.sched.nextTaskId
  nodup : (w.issued.map Prod.fst).Nodup
  newest : ∀ t, w.sched.state t ≠ .dead → w.issued.find? (·.2 = t) = some (w.sched.id t, t)

namespace Ledger

variable {D : Set TaskRef} {w : Ledger}

theorem Known.keep {e : Event} {s' : State} (h : w.Known) (hc : e.creates w.sched = none)
    (hn : s'.nextTaskId = w.sched.nextTaskId)
    (hl : ∀ t, s'.state t ≠ .dead → w.sched.state t ≠ .dead ∧ s'.id t = w.sched.id t) : (w.record e s').Known := by
  have hi : (w.record e s').issued = w.issued := by simp [record, issued, hc]
  refine ⟨?_, ?_, ?_, fun t ht => ?_⟩
  · rw [hi]; exact hn.trans h.next
  · rw [hi]; intro p hp; exact hn ▸ h.below p hp
  · rw [hi]; exact h.nodup
  · rw [hi]
    obtain ⟨hw, hid⟩ := hl t ht
    exact hid ▸ h.newest t hw

theorem Known.born {e : Event} {s' : State} {t : TaskRef} (h : w.Known) (hlen : w.issued.length + 1 < 2 ^ 32)
    (hb : Born w.sched t s') (hc : e.creates w.sched = some t) : (w.record e s').Known := by
  have hid : s'.id t = w.sched.nextTaskId := by rw [hb.id, if_pos rfl]
  have hi : (w.record e s').issued = (w.sched.nextTaskId, t) :: w.issued := by simp [record, issued, hc, hid]
  have hnext : s'.nextTaskId = w.sched.nextTaskId + 1 := by
    rw [hb.nextTaskId, u32_of_lt (by rw [h.next]; exact hlen)]
  refine ⟨?_, ?_, ?_, fun u hu => ?_⟩
  · rw [hi, List.length_cons, ← h.next]; exact hnext
  · rw [hi]
    intro p hp
    show p.1 < s'.nextTaskId
    rcases List.mem_cons.mp hp with rfl | hp
    · omega
    · have := h.below p hp; omega
  · rw [hi, List.map_cons, List.nodup_cons]
    refine ⟨fun hin => ?_, h.nodup⟩
    obtain ⟨p, hp, hpe⟩ := List.mem_map.mp hin
    have := h.below p hp
    omega
  · rw [hi, List.find?_cons]
    have hlive : s'.state u ≠ .dead := hu
    show _ = some (s'.id u, u)
    by_cases htu : t = u
    · subst htu
      simp [hid]
    · have hne : u ≠ t := fun e => htu e.symm
      have hold : w.sched.state u ≠ .dead := fun hd => hlive ((hb.state u).mpr ⟨hne, hd⟩)
      rw [hb.id, if_neg hne, ← h.newest u hold]
      simp [htu]

theorem Known.step {e : Event} {s' : State} (h : w.Known) (hlen : (w.record e s').created.length < 2 ^ 32 - 1)
    (he : Effect w.sched e s') : (w.record e s').Known := by
  cases he with
  | same hs hc => exact h.keep hc hs.nextTaskId fun t ht => ⟨fun hd => ht ((hs.dead t).mpr hd), by rw [hs.id]⟩
  | relock n hs _ hc => subst hs; exact h.keep hc rfl fun t ht => ⟨ht, rfl⟩
  | born t hb hc =>
    have hl : (w.record e s').created.length = w.issued.length := by simp [record, issued, hc]
    exact h.born (by omega) hb hc
  | buried t hb _ hc =>
    refine h.keep hc hb.nextTaskId fun u hu => ?_
    have hne : u ≠ t := fun hut => hu ((hb.dead u).mpr (.inl hut))
    exact ⟨fun hd => hu ((hb.dead u).mpr (.inr hd)), by rw [hb.id, if_neg hne]⟩

theorem known_init (boot : State) : (Ledger.mk (schedInit boot) []).Known := by
  refine ⟨rfl, fun p hp => ?_, by simp [issued], fun t ht => ?_⟩
  · have hp0 : p = (0, 0) := by simpa [issued] using hp
    rw [hp0]
    exact Nat.zero_lt_one
  · have h0 : t = 0 := by
      by_contra h0
      exact ht ((schedInit_state boot t).trans (if_neg h0))
    subst h0
    simp [issued, (init_inv boot).idleId]

theorem next_unlocked {e : Event} {s s' : State} (h : Inv D s) (hl : s.schedulerLocked = 0)
    (hok : e.locks = false) (hn : Sched.system.next s e = some s') : Inv D s' ∧ s'.schedulerLocked = 0 := by
  refine ⟨next_inv h (fun _ => hl) hn, ?_⟩
  cases next_effect h hn with
  | same hs _ => rw [hs.schedulerLocked, hl]
  | relock n hs hle _ =>
    subst hs
    exact Nat.le_zero.mp (hl ▸ hle hok)
  | born t hb _ => rw [hb.schedulerLocked, hl]
  | buried t hb _ _ => rw [hb.schedulerLocked, hl]

theorem reachable_unlocked (h : system.ReachableIf NeverLocks w) :
    Inv ∅ w.sched ∧ w.sched.schedulerLocked = 0 := by
  refine h.invariant (I := fun w => Inv ∅ w.sched ∧ w.sched.schedulerLocked = 0) ?_ ?_
  · rintro w ⟨⟨boot, -, hw⟩, -⟩
    rw [hw]
    exact ⟨init_inv boot, rfl⟩
  · intro w e w' ⟨hi, hl⟩ hok hn
    obtain ⟨s', hs, rfl⟩ := Option.map_eq_some_iff.mp hn
    exact next_unlocked hi hl hok hs

theorem reachable_known (h : system.ReachableIf NeverLocks w) : w.created.length < 2 ^ 32 - 1 → w.Known := by
  refine h.invariantFrom (I := fun w => w.created.length < 2 ^ 32 - 1 → w.Known)
    (fun _ => reachable_unlocked) ?_ ?_
  · rintro w ⟨⟨boot, -, hw⟩, hc⟩ -
    obtain ⟨s, c⟩ := w
    cases hw
    cases hc
    exact known_init boot
  · intro w e w' ⟨hi, _⟩ ih _ hn hlen
    obtain ⟨s', hs, rfl⟩ := Option.map_eq_some_iff.mp hn
    have hle : w.created.length ≤ (w.record e s').created.length := by simp [record]
    exact (ih (by omega)).step hlen (next_effect hi hs)

theorem system_init : system.init ⟨schedInit bootState, []⟩ := ⟨Sched.system_init, rfl⟩

theorem Known.mem (h : w.Known) {t : TaskRef} (ht : w.sched.state t ≠ .dead) : (w.sched.id t, t) ∈ w.issued :=
  List.mem_of_find?_eq_some (h.newest t ht)

theorem Known.unique (h : w.Known) {i : ℕ} {t u : TaskRef} (ht : (i, t) ∈ w.issued) (hu : (i, u) ∈ w.issued) :
    t = u :=
  congrArg Prod.snd (List.inj_on_of_nodup_map h.nodup ht hu rfl)

end Ledger

/-- Fewer than `2 ^ 32 - 1` creations: no two live descriptors share an id, the id 0
is that of `Tasks[0]` alone, no id is given out twice, and an id is found only in
the descriptor it was given to, while that id is the newest given to it. -/
theorem ids_identify {w : Ledger} (h : Ledger.system.ReachableIf NeverLocks w)
    (hn : w.created.length < 2 ^ 32 - 1) :
    (∀ t u, w.sched.state t ≠ .dead → w.sched.state u ≠ .dead → w.sched.id t = w.sched.id u → t = u) ∧
    (∀ t, w.sched.state t ≠ .dead → (w.sched.id t = 0 ↔ t = 0)) ∧
    (w.issued.map Prod.fst).Nodup ∧
    ∀ i t, (i, t) ∈ w.issued → schedFind i w.sched = none ∨
      (schedFind i w.sched = some t ∧ w.issued.find? (·.2 = t) = some (i, t)) := by
  obtain ⟨hi, -⟩ := Ledger.reachable_unlocked h
  have hk := Ledger.reachable_known h hn
  refine ⟨fun t u ht hu heq => ?_, fun t ht => ⟨fun h0 => ?_, ?_⟩, hk.nodup, fun i t hit => ?_⟩
  · exact hk.unique (heq ▸ hk.mem ht) (hk.mem hu)
  · have hzero : (0, 0) ∈ w.issued := by simp [Ledger.issued]
    exact hk.unique (h0 ▸ hk.mem ht) hzero
  · rintro rfl
    exact hi.idleId
  · cases hfind : schedFind i w.sched with
    | none => exact .inl rfl
    | some u =>
      obtain ⟨hlive, hid⟩ := schedFind_some hfind
      obtain rfl : u = t := hk.unique (hid ▸ hk.mem hlive) hit
      exact .inr ⟨rfl, hid ▸ hk.newest u hlive⟩

/-- The first task is killed and its descriptor recycled: its id finds nothing, the
new one finds the descriptor. -/
theorem ids_identify_recycled :
    ∃ w, Ledger.system.ReachableIf NeverLocks w ∧ (1, 1) ∈ w.issued ∧ (3, 1) ∈ w.issued ∧
      schedFind 1 w.sched = none ∧ schedFind 3 w.sched = some 1 := by
  obtain ⟨w, -, hw, hp⟩ := System.exists_reachableIf NeverLocks Ledger.system_init
    ([createTask, createTask, .kill 1, .yield, createTask].map .call)
    (fun w => w.created = [(3, 1), (2, 2), (1, 1)] ∧ (schedFind 3 w.sched).isSome) (by decide +kernel)
  obtain ⟨hc, h3⟩ := of_decide_eq_true hp
  obtain ⟨-, -, -, hfind⟩ := ids_identify hw (by rw [hc]; decide)
  have m1 : (1, 1) ∈ w.issued := by simp [Ledger.issued, hc]
  have m3 : (3, 1) ∈ w.issued := by simp [Ledger.issued, hc]
  refine ⟨w, hw, m1, m3, (hfind 1 1 m1).resolve_right ?_, ((hfind 3 1 m3).resolve_left ?_).1⟩
  · rintro ⟨-, hnew⟩
    rw [Ledger.issued, hc] at hnew
    revert hnew
    decide
  · intro hnone
    rw [hnone] at h3
    cases h3

end Novium.Sched
