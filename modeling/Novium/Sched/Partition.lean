import Novium.Sched.Queue
import Mathlib.Data.Set.Insert

/-! The queue partition. While a call moves a descriptor from one queue to
another the partition fails for that descriptor alone, so the working notion is
`QueuesOff X`: the descriptors in `X` are on no queue, all others are where their
state says. Taking a descriptor off a queue puts it into `X`, adding it to the
queue of its state takes it out again. -/

namespace Novium.Sched

open Novium.Lib

def queueState : Queue → TaskState
  | .ready => .ready
  | .blocked => .blocked
  | .dead => .dead

theorem queueState_injective {q q' : Queue} (h : queueState q = queueState q') : q = q' := by
  cases q <;> cases q' <;> simp_all [queueState]

/-- The queues hold the sequences `L`. Of the dead descriptors only those in `D`
must be on the dead queue: one that was never used is dead and on no queue. -/
structure QueuesOff (D X : Set TaskRef) (s : State) (L : Queue → List TaskRef) : Prop where
  chains : Chains s L
  off : ∀ t ∈ X, ∀ q, t ∉ L q
  mem : ∀ t ∉ X, ∀ q, t ∈ L q → s.state t = queueState q
  queued : ∀ t ∉ X, ∀ q, (q = .dead → t ∈ D) → s.state t = queueState q → t ∈ L q

/-- All descriptors are in their place. -/
abbrev Queues (D : Set TaskRef) (s : State) (L : Queue → List TaskRef) : Prop := QueuesOff D ∅ s L

namespace QueuesOff

variable {D X : Set TaskRef} {s s' : State} {L : Queue → List TaskRef} {t : TaskRef} {q : Queue}

theorem not_mem_X (h : QueuesOff D X s L) (ht : t ∈ L q) : t ∉ X := fun hx => h.off t hx q ht

theorem disjoint (h : QueuesOff D X s L) {q q' : Queue} (hne : q' ≠ q) : (L q).Disjoint (L q') := by
  intro u hu hu'
  have hx := h.not_mem_X hu
  exact hne (queueState_injective ((h.mem u hx q' hu').symm.trans (h.mem u hx q hu)))

theorem not_mem (h : QueuesOff D X s L) (ht : t ∈ X ∨ s.state t ≠ queueState q) : t ∉ L q := by
  intro hin
  rcases ht with hx | hst
  · exact h.off t hx q hin
  · exact hst (h.mem t (h.not_mem_X hin) q hin)

theorem ready (h : QueuesOff D X s L) (hx : t ∉ X) (hst : s.state t = .ready) : t ∈ L .ready :=
  h.queued t hx .ready (by simp) hst

theorem blocked (h : QueuesOff D X s L) (hx : t ∉ X) (hst : s.state t = .blocked) : t ∈ L .blocked :=
  h.queued t hx .blocked (by simp) hst

theorem congr (h : QueuesOff D X s L) (hn : s'.next = s.next) (hh : s'.heads = s.heads)
    (hst : s'.state = s.state) : QueuesOff D X s' L where
  chains q := by rw [hn, State.head_congr hh]; exact h.chains q
  off := h.off
  mem := by rw [hst]; exact h.mem
  queued := by rw [hst]; exact h.queued

theorem remove_absent (h : QueuesOff D X s L) (ht : t ∈ X ∨ s.state t ≠ queueState q) :
    schedQueueRemove q t s = some s :=
  schedQueueRemove_absent h.chains (h.not_mem ht)

theorem detach (h : QueuesOff D X s L) (ht : s.state t = queueState q) :
    ∃ nx hd, schedQueueRemove q t s = some (s.setLinks nx hd) ∧
      QueuesOff D (insert t X) (s.setLinks nx hd) (Function.update L q ((L q).erase t)) := by
  obtain ⟨nx, hd, hrun, hl⟩ := schedQueueRemove_spec (q := q) (t := t) h.chains fun q' hne => h.disjoint hne
  have hsub : ∀ q' u, u ∈ Function.update L q ((L q).erase t) q' → u ∈ L q' := by
    intro q' u hu
    rcases eq_or_ne q' q with rfl | hne
    · rw [Function.update_self] at hu
      exact List.mem_of_mem_erase hu
    · rwa [Function.update_of_ne hne] at hu
  have hkeep : ∀ q' u, u ≠ t → u ∈ L q' → u ∈ Function.update L q ((L q).erase t) q' := by
    intro q' u hut hu
    rcases eq_or_ne q' q with rfl | hne
    · rw [Function.update_self]
      exact (List.mem_erase_of_ne hut).mpr hu
    · rwa [Function.update_of_ne hne]
  refine ⟨nx, hd, hrun, fun q' => ?_, fun u hu q' hin => ?_, fun u hu q' hin => ?_, fun u hu q' hD hst => ?_⟩
  · simpa using hl q'
  · rcases Set.mem_insert_iff.mp hu with rfl | hx
    · rcases eq_or_ne q' q with rfl | hne
      · rw [Function.update_self] at hin
        exact (h.chains q').nodup.not_mem_erase hin
      · rw [Function.update_of_ne hne] at hin
        have := h.mem u (h.not_mem_X hin) q' hin
        exact hne (queueState_injective (this.symm.trans ht))
    · exact h.off u hx q' (hsub q' u hin)
  · have hx : u ∉ X := fun hx => hu (Set.mem_insert_of_mem t hx)
    exact h.mem u hx q' (hsub q' u hin)
  · obtain ⟨hut, hx⟩ : u ≠ t ∧ u ∉ X := by simpa using hu
    exact hkeep q' u hut (h.queued u hx q' hD hst)

theorem modTask (h : QueuesOff D X s L) (ht : t ∈ X) (f : Task → Task) :
    QueuesOff D X (s.modTask t f) L := by
  have hne : ∀ u, u ≠ t → (s.modTask t f).tasks u = s.tasks u := fun u hu => by
    simp [State.modTask, Function.update_of_ne hu]
  have hst : ∀ u ∉ X, (s.modTask t f).state u = s.state u := fun u hu => by
    rw [State.state, State.state, hne u fun e => hu (e ▸ ht)]
  refine ⟨fun q => ?_, h.off, fun u hu => ?_, fun u hu => ?_⟩
  · have hh : (s.modTask t f).head q = s.head q := by cases q <;> rfl
    rw [hh]
    refine (h.chains q).congr fun a ha => ?_
    rw [State.next, State.next, hne a fun e => h.off t ht q (e ▸ ha)]
  · rw [hst u hu]; exact h.mem u hu
  · rw [hst u hu]; exact h.queued u hu

theorem attach (h : QueuesOff D X s L) (ht : t ∈ X) (hst : s.state t = queueState q) :
    ∃ nx hd, schedQueueAdd q t s = some (s.setLinks nx hd) ∧
      QueuesOff D (X \ {t}) (s.setLinks nx hd) (Function.update L q (L q ++ [t])) := by
  obtain ⟨nx, hd, hrun, hl⟩ := schedQueueAdd_spec (q := q) h.chains (h.off t ht) fun q' hne => h.disjoint hne
  have hmem : ∀ q' u, u ∈ Function.update L q (L q ++ [t]) q' ↔ u ∈ L q' ∨ (q' = q ∧ u = t) := by
    intro q' u
    rcases eq_or_ne q' q with rfl | hne
    · simp
    · simp [hne]
  refine ⟨nx, hd, hrun, fun q' => ?_, fun u hu q' hin => ?_, fun u hu q' hin => ?_, fun u hu q' hD hs => ?_⟩
  · simpa using hl q'
  · rcases (hmem q' u).mp hin with hin | ⟨-, rfl⟩
    · exact h.off u hu.1 q' hin
    · exact hu.2 rfl
  · rcases (hmem q' u).mp hin with hin | ⟨rfl, rfl⟩
    · exact h.mem u (h.not_mem_X hin) q' hin
    · exact hst
  · rw [hmem]
    by_cases hut : u = t
    · subst hut
      exact Or.inr ⟨queueState_injective (hs.symm.trans hst), rfl⟩
    · exact Or.inl (h.queued u (fun hx => hu ⟨hx, hut⟩) q' hD hs)

theorem settle (h : QueuesOff D X s L) (hst : s.state t = .running) : QueuesOff D (X \ {t}) s L where
  chains := h.chains
  off u hu := h.off u hu.1
  mem u _ q hin := h.mem u (h.not_mem_X hin) q hin
  queued u hu q hD hs := by
    refine h.queued u (fun hx => hu ⟨hx, fun e => ?_⟩) q hD hs
    rw [Set.mem_singleton_iff.mp e, hst] at hs
    cases q <;> cases hs

theorem lift (h : QueuesOff D X s L) (hst : s.state t = .running) : QueuesOff D (insert t X) s L where
  chains := h.chains
  off u hu q hin := by
    rcases Set.mem_insert_iff.mp hu with rfl | hx
    · have := h.mem u (h.not_mem_X hin) q hin
      cases q <;> simp [hst, queueState] at this
    · exact h.off u hx q hin
  mem u hu := h.mem u fun hx => hu (Set.mem_insert_of_mem t hx)
  queued u hu := h.queued u fun hx => hu (Set.mem_insert_of_mem t hx)

end QueuesOff

/-- The partition of the scheduler: the three queues are finite, acyclic and
disjoint and match the states, the current task is the one running task and is on
no queue, and the idle task is always ready or running under id 0. -/
structure Partition (s : State) : Prop where
  queues : ∃ L : Queue → List TaskRef, Chains s L ∧ (L .ready ++ L .blocked ++ L .dead).Nodup ∧
    (∀ t, t ∈ L .ready ↔ s.state t = .ready) ∧ (∀ t, t ∈ L .blocked ↔ s.state t = .blocked) ∧
    (∀ t ∈ L .dead, s.state t = .dead) ∧ ∀ c, s.currentTask = some c → ∀ q, c ∉ L q
  current : ∃ c, s.currentTask = some c ∧ ∀ t, s.state t = .running ↔ t = c
  idle : (s.state 0 = .ready ∨ s.state 0 = .running) ∧ s.id 0 = 0

theorem Queues.nodup {D : Set TaskRef} {s : State} {L : Queue → List TaskRef} (h : Queues D s L) :
    (L .ready ++ L .blocked ++ L .dead).Nodup := by
  refine List.Nodup.append (List.Nodup.append (h.chains _).nodup (h.chains _).nodup ?_) (h.chains _).nodup ?_
  · exact h.disjoint (by decide)
  · rw [List.disjoint_append_left]
    exact ⟨h.disjoint (by decide), h.disjoint (by decide)⟩

theorem Partition.exists_queues {s : State} (h : Partition s) {D : Set TaskRef}
    (hD : ∀ t ∈ D, s.state t ≠ .dead) : ∃ L, Queues D s L := by
  obtain ⟨L, hc, -, hr, hb, hd, -⟩ := h.queues
  refine ⟨L, hc, by simp, fun t _ q hin => ?_, fun t _ q ht hst => ?_⟩
  · cases q with
    | ready => exact (hr t).mp hin
    | blocked => exact (hb t).mp hin
    | dead => exact hd t hin
  · cases q with
    | ready => exact (hr t).mpr hst
    | blocked => exact (hb t).mpr hst
    | dead => exact absurd hst (hD t (ht rfl))

/-- The partition from the parts that the calls preserve one by one. -/
theorem Partition.of {D : Set TaskRef} {s : State} {L : Queue → List TaskRef} {c : TaskRef} (hq : Queues D s L)
    (hc : s.currentTask = some c) (hrun : ∀ t, s.state t = .running ↔ t = c)
    (hidle : s.state 0 = .ready ∨ s.state 0 = .running) (hid : s.id 0 = 0) : Partition s where
  queues := by
    refine ⟨L, hq.chains, hq.nodup, fun t => ⟨fun hin => hq.mem t (by simp) _ hin, hq.ready (by simp)⟩,
      fun t => ⟨fun hin => hq.mem t (by simp) _ hin, hq.blocked (by simp)⟩,
      fun t hin => hq.mem t (by simp) _ hin, fun c' hc' q => hq.not_mem (Or.inr ?_)⟩
    obtain rfl : c = c' := Option.some.inj (hc.symm.trans hc')
    rw [(hrun c).mpr rfl]
    cases q <;> simp [queueState]
  current := ⟨c, hc, hrun⟩
  idle := ⟨hidle, hid⟩

end Novium.Sched
