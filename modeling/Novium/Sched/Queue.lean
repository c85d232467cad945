import Novium.Sched.Ops
import Novium.Lib.Linked
import Mathlib.Data.Fintype.Card

/-! `SchedQueueAdd` and `SchedQueueRemove` refine append and erase on the sequences
that the three queue heads denote. Both change links only, which every statement
says by giving the result as a `setLinks` of the old state. -/

namespace Novium.Sched

open Novium.Lib

namespace State

variable (s : State) (nx : TaskRef → Option TaskRef) (hd : Queue → Option TaskRef)

@[simp] theorem setLinks_next : (s.setLinks nx hd).next = nx := rfl

@[simp] theorem setLinks_head : (s.setLinks nx hd).head = hd := by
  funext q; cases q <;> rfl

@[simp] theorem setLinks_state : (s.setLinks nx hd).state = s.state := rfl
@[simp] theorem setLinks_id : (s.setLinks nx hd).id = s.id := rfl
@[simp] theorem setLinks_currentTask : (s.setLinks nx hd).currentTask = s.currentTask := rfl
@[simp] theorem setLinks_schedulerLocked : (s.setLinks nx hd).schedulerLocked = s.schedulerLocked := rfl

@[simp] theorem setLinks_setLinks (nx' : TaskRef → Option TaskRef) (hd' : Queue → Option TaskRef) :
    (s.setLinks nx hd).setLinks nx' hd' = s.setLinks nx' hd' := rfl

@[simp] theorem setLinks_self : s.setLinks s.next s.head = s := rfl

theorem setNext_eq_setLinks (t : TaskRef) (n : Option TaskRef) :
    s.setNext t n = s.setLinks (Function.update s.next t n) s.head := by
  unfold setNext modTask setLinks
  congr 1
  funext u
  rcases eq_or_ne u t with rfl | hu
  · simp
  · simp [Function.update_of_ne hu, next]

theorem setHead_eq_setLinks (q : Queue) (h : Option TaskRef) :
    s.setHead q h = s.setLinks s.next (Function.update s.head q h) := by
  cases q <;> rfl

end State

/-- The sequences denoted by the three heads. -/
def Chains (s : State) (L : Queue → List TaskRef) : Prop := ∀ q, Linked s.next (s.head q) (L q)

/-- `t` is met on the walk from the head of `q`. -/
def State.OnQueue (s : State) (q : Queue) (t : TaskRef) : Prop := ∃ l, Along s.next (s.head q) l (some t)

theorem Chains.onQueue_iff {s : State} {L : Queue → List TaskRef} (hc : Chains s L) (q : Queue) (t : TaskRef) :
    s.OnQueue q t ↔ t ∈ L q :=
  (hc q).along_iff

/-- One chain replaced: the others lie off the links that have changed. -/
theorem Chains.replace {s : State} {L : Queue → List TaskRef} {q : Queue} {nx : TaskRef → Option TaskRef}
    {hd : Queue → Option TaskRef} {l : List TaskRef} (hc : Chains s L) (hl : Linked nx (hd q) l)
    (hnx : ∀ q', q' ≠ q → ∀ u ∈ L q', nx u = s.next u) (hhd : ∀ q', q' ≠ q → hd q' = s.head q') (q' : Queue) :
    Linked nx (hd q') (Function.update L q l q') := by
  rcases eq_or_ne q' q with rfl | hne
  · rwa [Function.update_self]
  · rw [Function.update_of_ne hne, hhd q' hne]
    exact (hc q').congr (hnx q' hne)

theorem linked_length_le {nx : TaskRef → Option TaskRef} {h : Option TaskRef} {l : List TaskRef}
    (hl : Linked nx h l) : l.length ≤ schedMaxTasks := by
  simpa [schedMaxTasks] using hl.nodup.length_le_card

theorem queueTail_eq {nx : TaskRef → Option TaskRef} {h : TaskRef} {l : List TaskRef} {z : TaskRef} {n : ℕ}
    (hl : Linked nx (some h) (l ++ [z])) (hn : l.length < n) : queueTail nx n h = some z := by
  induction l generalizing h n with
  | nil =>
    obtain ⟨hz, hend⟩ := hl
    cases hz
    obtain ⟨m, rfl⟩ : ∃ m, n = m + 1 := ⟨n - 1, by simp at hn; omega⟩
    simp [queueTail, linked_nil.mp hend]
  | cons a l ih =>
    obtain ⟨ha, hr⟩ := hl
    cases ha
    obtain ⟨m, rfl⟩ : ∃ m, n = m + 1 := ⟨n - 1, by omega⟩
    cases hnx : nx a with
    | none => rw [hnx] at hr; simp [linked_none] at hr
    | some b =>
      rw [hnx] at hr
      simp only [queueTail, hnx]
      exact ih hr (by simpa using hn)

theorem exists_head {nx : TaskRef → Option TaskRef} {h : Option TaskRef} {l : List TaskRef} {a : TaskRef}
    (hl : Linked nx h l) (ha : a ∈ l) : ∃ t, h = some t := by
  cases l with
  | nil => simp at ha
  | cons b l => exact ⟨b, hl.1⟩

theorem schedQueueAdd_append {s : State} {q : Queue} {t : TaskRef} {l : List TaskRef}
    (hl : Linked s.next (s.head q) l) (ht : t ∉ l) :
    ∃ nx hd, schedQueueAdd q t s = some (s.setLinks nx hd) ∧ Linked nx (hd q) (l ++ [t]) ∧
      (∀ u ∉ l, u ≠ t → nx u = s.next u) ∧ ∀ q', q' ≠ q → hd q' = s.head q' := by
  have hwalk : Linked (Function.update s.next t none) (s.head q) l := hl.update ht none
  unfold schedQueueAdd
  simp only [State.setNext_eq_setLinks, State.setHead_eq_setLinks, State.setLinks_head,
    State.setLinks_next, State.setLinks_setLinks]
  rcases List.eq_nil_or_concat l with rfl | ⟨l, z, rfl⟩
  · have hq : s.head q = none := hl
    refine ⟨_, _, by simp only [hq]; rfl, by simp, fun u _ hu => by simp [hu], fun q' hne => ?_⟩
    rw [Function.update_of_ne hne]
  · rw [List.concat_eq_append] at *
    obtain ⟨h, hh⟩ := exists_head hwalk (a := z) (by simp)
    have hlen := linked_length_le hwalk
    have hnd := hwalk.nodup
    rw [hh] at hwalk
    have htail := queueTail_eq (n := schedMaxTasks) hwalk (by simp at hlen; omega)
    have hzt : z ≠ t := fun e => ht (by simp [e])
    refine ⟨_, _, by simp only [hh, htail]; rfl, ?_, fun u hu hut => ?_, fun q' _ => rfl⟩
    · rw [List.append_assoc, hh]
      refine hwalk.snoc (by simp) (by simp [hzt.symm]) fun a ha => ?_
      have : a ≠ z := fun e => by
        subst e
        exact List.disjoint_of_nodup_append hnd ha (by simp)
      simp [Function.update_of_ne this]
    · have : u ≠ z := fun e => hu (by simp [e])
      simp [this, hut]

theorem schedQueueAdd_spec {s : State} {L : Queue → List TaskRef} {q : Queue} {t : TaskRef}
    (hc : Chains s L) (ht : ∀ q', t ∉ L q') (hdisj : ∀ q', q' ≠ q → (L q).Disjoint (L q')) :
    ∃ nx hd, schedQueueAdd q t s = some (s.setLinks nx hd) ∧
      ∀ q', Linked nx (hd q') (Function.update L q (L q ++ [t]) q') := by
  obtain ⟨nx, hd, hrun, hl, hnx, hhd⟩ := schedQueueAdd_append (hc q) (ht q)
  refine ⟨nx, hd, hrun, hc.replace hl (fun q' hne u hu => ?_) hhd⟩
  exact hnx u (fun hin => hdisj q' hne hin hu) fun e => ht q' (e ▸ hu)

/-- A descriptor added to a queue that already holds it becomes its own successor. -/
theorem schedQueueAdd_twice {s : State} {q : Queue} {t : TaskRef} {l m : List TaskRef}
    (hl : Linked s.next (s.head q) (l ++ t :: m)) :
    ∃ nx, schedQueueAdd q t s = some (s.setLinks nx s.head) ∧ nx t = some t := by
  have hnd := hl.nodup
  have hwalk : Linked (Function.update s.next t none) (s.head q) (l ++ [t]) := by
    refine hl.truncate (by simp) fun a ha => ?_
    have : a ≠ t := fun e => List.disjoint_of_nodup_append hnd ha (by simp [e])
    simp [this]
  obtain ⟨h, hh⟩ := exists_head hl (a := t) (by simp)
  have hlen := linked_length_le hwalk
  rw [hh] at hwalk
  have htail := queueTail_eq (n := schedMaxTasks) hwalk (by simp at hlen; omega)
  refine ⟨Function.update (Function.update s.next t none) t (some t), ?_, by simp⟩
  unfold schedQueueAdd
  simp only [State.setNext_eq_setLinks, State.setLinks_head, State.setLinks_next, State.setLinks_setLinks,
    hh, htail, Option.map_some]

theorem queueRemoveLoop_absent {s : State} {q : Queue} {t : TaskRef} {l : List TaskRef}
    {prev cur : Option TaskRef} {n : ℕ} (hl : Linked s.next cur l) (ht : t ∉ l) (hn : l.length < n) :
    queueRemoveLoop q t s n prev cur = some s := by
  induction l generalizing prev cur n with
  | nil =>
    obtain ⟨m, rfl⟩ : ∃ m, n = m + 1 := ⟨n - 1, by simp at hn; omega⟩
    rw [linked_nil.mp hl, queueRemoveLoop]
  | cons a l ih =>
    obtain ⟨rfl, hr⟩ := hl
    obtain ⟨m, rfl⟩ : ∃ m, n = m + 1 := ⟨n - 1, by omega⟩
    have ha : a ≠ t := fun e => ht (by simp [e])
    rw [queueRemoveLoop, if_neg ha]
    exact ih hr (fun h => ht (by simp [h])) (by simpa using hn)

theorem queueRemoveLoop_found {s : State} (q : Queue) {t : TaskRef} {l m : List TaskRef}
    (prev : Option TaskRef) {cur : Option TaskRef} {n : ℕ} (hl : Linked s.next cur (l ++ t :: m)) (hn : l.length < n) :
    queueRemoveLoop q t s n prev cur = some (queueUnlink q (l.getLast?.or prev) t s) := by
  induction l generalizing prev cur n with
  | nil =>
    obtain ⟨rfl, -⟩ := hl
    obtain ⟨k, rfl⟩ : ∃ k, n = k + 1 := ⟨n - 1, by simp at hn; omega⟩
    simp [queueRemoveLoop]
  | cons a l ih =>
    have hnd := hl.nodup
    obtain ⟨rfl, hr⟩ := hl
    obtain ⟨k, rfl⟩ : ∃ k, n = k + 1 := ⟨n - 1, by omega⟩
    have ha : a ≠ t := fun e => by simp [e] at hnd
    rw [queueRemoveLoop, if_neg ha, ih (some a) hr (by simpa using hn)]
    cases l with
    | nil => simp
    | cons b l => simp [List.getLast?_cons]

theorem schedQueueRemove_absent {s : State} {L : Queue → List TaskRef} {q : Queue} {t : TaskRef}
    (hc : Chains s L) (ht : t ∉ L q) : schedQueueRemove q t s = some s :=
  queueRemoveLoop_absent (hc q) ht (Nat.lt_succ_of_le (linked_length_le (hc q)))

theorem schedQueueRemove_erase {s : State} {q : Queue} {t : TaskRef} {l : List TaskRef}
    (hl : Linked s.next (s.head q) l) (ht : t ∈ l) :
    ∃ nx hd, schedQueueRemove q t s = some (s.setLinks nx hd) ∧ Linked nx (hd q) (l.erase t) ∧
      (∀ u ∉ l, nx u = s.next u) ∧ ∀ q', q' ≠ q → hd q' = s.head q' := by
  obtain ⟨l, m, rfl⟩ := List.append_of_mem ht
  have hlen := linked_length_le hl
  have hnd := hl.nodup
  have hnt : t ∉ l := fun h => List.disjoint_of_nodup_append hnd h (by simp)
  have hmt : t ∉ m := fun h => by
    have := (List.nodup_append.mp hnd).2.1
    simp [h] at this
  have hfound := queueRemoveLoop_found (n := schedMaxTasks + 1) q none hl (by simp at hlen; omega)
  unfold schedQueueRemove
  rw [hfound, List.erase_append_right _ hnt, List.erase_cons_head]
  rcases List.eq_nil_or_concat l with rfl | ⟨l', p, rfl⟩
  · -- the head itself is taken off
    refine ⟨_, _, by
      simp only [queueUnlink, List.getLast?_nil, Option.none_or, State.setHead_eq_setLinks,
        State.setNext_eq_setLinks, State.setLinks_next, State.setLinks_head, State.setLinks_setLinks]; rfl,
      ?_, fun u hu => ?_, fun q' hne => Function.update_of_ne hne _ _⟩
    · simp only [Function.update_self, List.nil_append]
      exact hl.2.update hmt none
    · rw [Function.update_of_ne fun e => hu (by simp [e])]
  · -- `p` is bridged over `t`
    rw [List.concat_eq_append] at *
    have hpt : p ≠ t := fun e => hnt (by simp [e])
    have hpl : p ∉ l' ++ m := fun h => by
      have h2 : (p :: t :: m).Nodup := (List.nodup_append.mp (by simpa using hnd)).2.1
      rcases List.mem_append.mp h with h | h
      · exact List.disjoint_of_nodup_append (by simpa using hnd : (l' ++ (p :: t :: m)).Nodup) h (by simp)
      · simp [h] at h2
    refine ⟨_, _, by
      simp only [queueUnlink, List.getLast?_append, List.getLast?_singleton, Option.some_or,
        State.setNext_eq_setLinks, State.setLinks_next, State.setLinks_head, State.setLinks_setLinks]; rfl,
      ?_, fun u hu => ?_, fun q' _ => rfl⟩
    · rw [List.append_assoc]
      have hl' : Linked s.next (s.head q) (l' ++ p :: t :: m) := by simpa using hl
      refine hl'.bridge (by simp [hpt]) fun a ha => ?_
      have hap : a ≠ p := fun e => hpl (e ▸ ha)
      have hat : a ≠ t := fun e => by
        rcases List.mem_append.mp ha with h | h
        · exact hnt (by simp [← e, h])
        · exact hmt (e ▸ h)
      simp [Function.update_of_ne hap, Function.update_of_ne hat]
    · have hup : u ≠ p := fun e => hu (by simp [e])
      have hut : u ≠ t := fun e => hu (by simp [e])
      rw [Function.update_of_ne hut, Function.update_of_ne hup]

theorem schedQueueRemove_spec {s : State} {L : Queue → List TaskRef} {q : Queue} {t : TaskRef}
    (hc : Chains s L) (hdisj : ∀ q', q' ≠ q → (L q).Disjoint (L q')) :
    ∃ nx hd, schedQueueRemove q t s = some (s.setLinks nx hd) ∧
      ∀ q', Linked nx (hd q') (Function.update L q ((L q).erase t) q') := by
  by_cases ht : t ∈ L q
  · obtain ⟨nx, hd, hrun, hl, hnx, hhd⟩ := schedQueueRemove_erase (hc q) ht
    refine ⟨nx, hd, hrun, hc.replace hl (fun q' hne u hu => ?_) hhd⟩
    exact hnx u fun hin => hdisj q' hne hin hu
  · refine ⟨s.next, s.head, by simpa using schedQueueRemove_absent hc ht, fun q' => ?_⟩
    rw [List.erase_of_not_mem ht, Function.update_eq_self]
    exact hc q'

/-- With three disjoint chains, removal erases and addition appends. Neither changes a link off
its queue, and the removal of a task that is not there changes nothing. -/
theorem schedQueue_refines (s : State) (L : Queue → List TaskRef) (hc : Chains s L)
    (hdisj : ∀ q q', q' ≠ q → (L q).Disjoint (L q')) (q : Queue) (t : TaskRef) :
    (∃ s', schedQueueRemove q t s = some s' ∧ Chains s' (Function.update L q ((L q).erase t)) ∧
      (∀ u ∉ L q, s'.next u = s.next u) ∧ (t ∉ L q → s' = s)) ∧
    ((∀ q', t ∉ L q') → ∃ s', schedQueueAdd q t s = some s' ∧
      Chains s' (Function.update L q (L q ++ [t])) ∧ ∀ u ∉ L q, u ≠ t → s'.next u = s.next u) := by
  constructor
  · by_cases ht : t ∈ L q
    · obtain ⟨nx, hd, hrun, hl, hnx, hhd⟩ := schedQueueRemove_erase (hc q) ht
      refine ⟨_, hrun, fun q' => ?_, hnx, fun h => absurd ht h⟩
      simp only [State.setLinks_next, State.setLinks_head]
      exact hc.replace hl (fun p hne u hu => hnx u fun hin => hdisj q p hne hin hu) hhd q'
    · refine ⟨s, schedQueueRemove_absent hc ht, ?_, fun _ _ => rfl, fun _ => rfl⟩
      rw [List.erase_of_not_mem ht, Function.update_eq_self]
      exact hc
  · intro ht
    obtain ⟨nx, hd, hrun, hl, hnx, hhd⟩ := schedQueueAdd_append (hc q) (ht q)
    refine ⟨_, hrun, fun q' => ?_, hnx⟩
    simp only [State.setLinks_next, State.setLinks_head]
    refine hc.replace hl (fun p hne u hu => ?_) hhd q'
    exact hnx u (fun hin => hdisj q p hne hin hu) fun e => ht p (e ▸ hu)

/-- Descriptor 4 is taken from the middle of the ready queue, is not on the other two, and goes to the dead queue. -/
theorem schedQueue_refines_bury :
    let s := bootState.setLinks (fun t => if t = 3 then some 4 else if t = 4 then some 5 else none)
      fun q => match q with | .ready => some 3 | .blocked => some 6 | .dead => none
    schedQueueRemove .blocked 4 s = some s ∧
      ∃ s' s'', schedQueueRemove .ready 4 s = some s' ∧ Linked s'.next s'.readyQueue [3, 5] ∧
        schedQueueAdd .dead 4 s' = some s'' ∧ Linked s''.next s''.deadQueue [4] := by
  intro s
  let L : Queue → List TaskRef := fun q => match q with | .ready => [3, 4, 5] | .blocked => [6] | .dead => []
  have hc : Chains s L := fun q => by
    cases q with
    | ready => exact ⟨rfl, rfl, rfl, rfl⟩
    | blocked => exact ⟨rfl, rfl⟩
    | dead => rfl
  have hdisj : ∀ q q', q' ≠ q → (L q).Disjoint (L q') := by
    intro q q' hne
    cases q <;> cases q' <;> simp_all [L]
  obtain ⟨s₁, hrun₁, -, -, hsame⟩ := (schedQueue_refines s L hc hdisj .blocked 4).1
  rw [hsame (by decide)] at hrun₁
  obtain ⟨s', hrun, hc', -, -⟩ := (schedQueue_refines s L hc hdisj .ready 4).1
  have hdisj' : ∀ q q', q' ≠ q →
      (Function.update L .ready ((L .ready).erase 4) q).Disjoint (Function.update L .ready ((L .ready).erase 4) q') := by
    intro q q' hne
    cases q <;> cases q' <;> simp_all [L]
  obtain ⟨s'', hadd, hc'', -⟩ := (schedQueue_refines s' _ hc' hdisj' .dead 4).2 fun q => by cases q <;> decide
  exact ⟨hrun₁, s', s'', hrun, hc' .ready, hadd, hc'' .dead⟩

end Novium.Sched
