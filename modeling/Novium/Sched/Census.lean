import Novium.Sched.Runs
import Mathlib.Data.Fintype.Card

/-! Who is in the descriptor table. A step leaves the table's tasks alone, gives one
dead descriptor the next id, or buries one task. From this follow that ids
identify tasks and that `TaskCountValue` counts the live descriptors. -/

namespace Novium.Sched

open Novium.Lib

variable {D : Set TaskRef}

theorem schedCreate_born {name : Option (ℕ → UInt8)} {eip esp : ℕ} {s s' : State} {r : Option TaskRef}
    (hrun : schedCreate name eip esp s = some (s', r)) :
    (s' = s ∧ r = none) ∨ ∃ t, r = some t ∧ Born s t s' := by
  rcases schedCreate_outcome hrun with hsame | ⟨label, t, s₁, s₂, rfl, hdead, h1, h2, rfl⟩
  · exact .inl hsame
  · have hrem := (SameTasks.lockIrq s).trans (schedQueueRemove_same h1)
    have hadd := schedQueueAdd_same h2
    refine .inr ⟨t, rfl, hdead, fun u => ?_, fun u => ?_, ?_, ?_, ?_⟩
    · rw [(SameTasks.unlockIrq _ _).dead]
      show s₂.state u = .dead ↔ _
      rw [hadd.dead, describeTask_state, ← hrem.dead]
      split_ifs with hu <;> simp [hu]
    · rw [(SameTasks.unlockIrq _ _).id]
      show s₂.id u = _
      rw [hadd.id, ← hrem.id, ← hrem.nextTaskId]
      split_ifs with hu
      · rw [hu]; exact describeTask_id_self t label eip esp s₁
      · exact describeTask_id t label eip esp s₁ hu
    · rw [(SameTasks.unlockIrq _ _).nextTaskId, ← hrem.nextTaskId]
      exact hadd.nextTaskId
    · rw [(SameTasks.unlockIrq _ _).taskCountValue, ← hrem.taskCountValue]
      exact congrArg (fun n => u32 (n + 1)) hadd.taskCountValue
    · rw [(SameTasks.unlockIrq _ _).schedulerLocked, ← hrem.schedulerLocked]
      exact hadd.schedulerLocked

theorem schedExit_buried {s s' : State} (h : Inv D s) (hrun : schedExit s = some s') :
    SameTasks s s' ∨ ∃ t, s.id t ≠ 0 ∧ Buried s t s' := by
  obtain ⟨c, hc, -⟩ := h.current
  by_cases h0 : s.id c = 0
  · simp only [schedExit, hc, if_pos h0, Option.some.injEq] at hrun
    exact .inl (hrun ▸ .refl s)
  · obtain ⟨s₁, h1, hcore, -, -, -, hb⟩ := schedExit_enter h hc h0
    rw [h1] at hrun
    exact .inr ⟨c, h0, hb.trans (schedYieldIn_same hcore hrun)⟩

theorem schedKill_buried {id : ℕ} {s s' : State} (h : Inv D s) (hrun : schedKill id s = some s') :
    SameTasks s s' ∨ ∃ t, s.id t ≠ 0 ∧ Buried s t s' := by
  rcases schedKill_outcome hrun with rfl | hexit | ⟨t, s₁, hlive, h0, hbury, rfl⟩
  · exact .inl (.refl s')
  · exact schedExit_buried h hexit
  · exact .inr ⟨t, h0, ((bury_buried (s := schedLockIrq s) hlive hbury).after (.lockIrq s)).trans (.unlockIrq _ _)⟩

/-- The descriptor that an event creates a task in. -/
def Event.creates (s : State) : Event → Option TaskRef
  | .call (.create name eip esp) => (schedCreate name eip esp s).bind Prod.snd
  | _ => none

def Event.locks : Event → Bool
  | .call .lock => true
  | _ => false

/-- The nesting lock apart, an event does one of three things to the table. -/
inductive Effect (s : State) (e : Event) (s' : State) : Prop where
  | same : SameTasks s s' → e.creates s = none → Effect s e s'
  | relock (n : ℕ) : s' = { s with schedulerLocked := n } → (e.locks = false → n ≤ s.schedulerLocked) →
      e.creates s = none → Effect s e s'
  | born (t : TaskRef) : Born s t s' → e.creates s = some t → Effect s e s'
  | buried (t : TaskRef) : Buried s t s' → s.id t ≠ 0 → e.creates s = none → Effect s e s'

theorem effect_of_leaving {s s' : State} {e : Event} (hn : e.creates s = none)
    (h : SameTasks s s' ∨ ∃ t, s.id t ≠ 0 ∧ Buried s t s') : Effect s e s' := by
  rcases h with h | ⟨t, h0, h⟩
  · exact .same h hn
  · exact .buried t h h0 hn

theorem call_effect {s s' : State} {c : Call} (h : Inv D s) (hrun : c.run s = some s') : Effect s (.call c) s' := by
  cases c with
  | create name eip esp =>
    obtain ⟨⟨s₁, r⟩, h1, rfl⟩ := Option.map_eq_some_iff.mp hrun
    have hc : Event.creates s (.call (.create name eip esp)) = r := by simp [Event.creates, h1]
    rcases schedCreate_born h1 with ⟨rfl, rfl⟩ | ⟨t, rfl, hb⟩
    · exact .same (.refl _) hc
    · exact .born t hb hc
  | yield => exact .same (schedYieldIn_same h.toCore hrun) rfl
  | tick regs => cases hrun; exact .same (schedTick_same regs s) rfl
  | preempt => exact .same (schedPreempt_same h hrun) rfl
  | block => exact .same (schedBlock_same h hrun) rfl
  | blockTask id => exact .same (schedBlockTaskIn_same h hrun) rfl
  | unblock item => exact .same (schedUnblock_same hrun) rfl
  | wakeTask id => exact .same (schedWakeTask_same hrun) rfl
  | sleepUntil wakeTick => exact .same (schedSleepUntil_same h hrun) rfl
  | wakeExpired nowTick =>
    obtain ⟨s₁, w, h1, -, hsame⟩ := schedWakeExpired_inv h nowTick
    rw [Call.run, h1] at hrun
    cases hrun
    exact .same hsame rfl
  | kill id => exact effect_of_leaving rfl (schedKill_buried h hrun)
  | exit => exact effect_of_leaving rfl (schedExit_buried h hrun)
  | setPolicy policy => cases hrun; exact .same (schedSetPolicy_same policy s) rfl
  | setPriority item priority => cases hrun; exact .same (schedSetPriority_same item priority s) rfl
  | lock => cases hrun; exact .relock _ rfl (fun h => by cases h) rfl
  | unlock =>
    cases hrun
    unfold schedUnlock
    split_ifs
    · exact .relock (s.schedulerLocked - 1) rfl (fun _ => Nat.sub_le _ _) rfl
    · exact .same (.refl s) rfl

theorem next_effect {s s' : State} {e : Event} (h : Inv D s) (hrun : system.next s e = some s') : Effect s e s' := by
  cases e with
  | call c => exact call_effect h hrun
  | finish =>
    obtain ⟨c, hc, -⟩ := h.current
    simp only [system, finish, hc] at hrun
    split at hrun
    · cases hrun
    · rename_i f fs _
      have hf : SameTasks s (s.setFrames c fs) := .of_eq rfl rfl rfl rfl
      exact .same (hf.trans (finishFrame_same h.idle_live hrun)) rfl

def liveTasks (s : State) : Finset TaskRef := Finset.univ.filter fun t => s.state t ≠ .dead

theorem mem_liveTasks {s : State} {t : TaskRef} : t ∈ liveTasks s ↔ s.state t ≠ .dead := by
  simp [liveTasks]

theorem card_liveTasks_le (s : State) : (liveTasks s).card ≤ 32 := by
  simpa using Finset.card_le_univ (liveTasks s)

theorem SameTasks.liveTasks {s s' : State} (h : SameTasks s s') : liveTasks s' = liveTasks s := by
  ext t
  rw [mem_liveTasks, mem_liveTasks, Ne, h.dead]

theorem Born.liveTasks {s s' : State} {t : TaskRef} (h : Born s t s') :
    liveTasks s' = insert t (liveTasks s) := by
  ext u
  rw [Finset.mem_insert, mem_liveTasks, mem_liveTasks, Ne, h.state]
  tauto

theorem Buried.liveTasks {s s' : State} {t : TaskRef} (h : Buried s t s') :
    liveTasks s' = (liveTasks s).erase t := by
  ext u
  rw [Finset.mem_erase, mem_liveTasks, mem_liveTasks, Ne, h.dead]
  tauto

def Counted (s : State) : Prop := s.taskCountValue = (liveTasks s).card

theorem Counted.step {s s' : State} {e : Event} (h : Counted s) (he : Effect s e s') : Counted s' := by
  unfold Counted at *
  cases he with
  | same hs _ => rw [hs.taskCountValue, hs.liveTasks, h]
  | relock n hs _ _ => rw [hs]; exact h
  | born t hb _ =>
    have hnew : t ∉ liveTasks s := by simp [mem_liveTasks, hb.dead]
    have hcard : (liveTasks s').card = (liveTasks s).card + 1 := by
      rw [hb.liveTasks, Finset.card_insert_of_notMem hnew]
    have hle := card_liveTasks_le s'
    rw [hb.taskCountValue, h, hcard, u32_of_lt (by omega)]
  | buried t hb _ _ => rw [hb.taskCountValue, hb.liveTasks, Finset.card_erase_of_mem (mem_liveTasks.mpr hb.live), h]

theorem reachable_counted {s : State} (h : system.ReachableIf LeavesUnlocked s) : Counted s := by
  refine System.ReachableIf.invariantFrom (fun _ => reachable_inv) ?_ ?_ h
  · rintro s ⟨boot, -, rfl⟩
    have hlive : liveTasks (schedInit boot) = {0} := by
      ext t
      rw [mem_liveTasks, schedInit_state, Finset.mem_singleton]
      split_ifs with h0 <;> simp [h0]
    rw [Counted, hlive]
    rfl
  · intro s e s' hi hc _ hn
    exact hc.step (next_effect hi hn)

/-- The counter of the tasks in a state. -/
def SchedStats.of (stats : SchedStats) : TaskState → ℕ
  | .running => stats.runningTasks
  | .ready => stats.readyTasks
  | .blocked => stats.blockedTasks
  | .dead => stats.deadTasks

theorem SchedStats.of_count (stats : SchedStats) (st st' : TaskState) :
    (stats.count st).of st' = if st = st' then u32 (stats.of st' + 1) else stats.of st' := by
  cases st <;> cases st' <;> rfl

theorem SchedStats.totalTasks_count (stats : SchedStats) (st : TaskState) :
    (stats.count st).totalTasks = stats.totalTasks := by
  cases st <;> rfl

theorem totalTasks_foldl (f : TaskRef → TaskState) (l : List TaskRef) (stats : SchedStats) :
    (l.foldl (fun stats t => stats.count (f t)) stats).totalTasks = stats.totalTasks := by
  induction l generalizing stats with
  | nil => rfl
  | cons t l ih => rw [List.foldl_cons, ih, SchedStats.totalTasks_count]

theorem of_foldl (f : TaskRef → TaskState) (st : TaskState) (l : List TaskRef) (stats : SchedStats)
    (h : stats.of st + l.length < 2 ^ 32) :
    (l.foldl (fun stats t => stats.count (f t)) stats).of st = stats.of st + l.countP (f · = st) := by
  induction l generalizing stats with
  | nil => simp
  | cons t l ih =>
    have hlen : stats.of st + (l.length + 1) < 2 ^ 32 := by simpa using h
    have hof := stats.of_count (f t) st
    rw [List.foldl_cons, List.countP_cons]
    by_cases hst : f t = st
    · rw [if_pos hst, u32_of_lt (by omega)] at hof
      rw [ih _ (by omega), hof]
      simp only [hst, decide_true, if_true]
      omega
    · rw [if_neg hst] at hof
      rw [ih _ (by omega), hof]
      simp only [hst, decide_false, Bool.false_eq_true, if_false]
      omega

theorem schedGetStats_of (s : State) (st : TaskState) :
    (schedGetStats s).of st = (List.finRange 32).countP (s.state · = st) := by
  have h0 : (⟨s.taskCountValue, 0, 0, 0, 0, s.schedulerTicks, s.contextSwitches⟩ : SchedStats).of st = 0 := by
    cases st <;> rfl
  rw [schedGetStats, of_foldl _ _ _ _ (by rw [h0]; simp), h0, Nat.zero_add]

theorem countP_live (f : TaskRef → TaskState) (l : List TaskRef) :
    l.countP (f · ≠ .dead) =
      l.countP (f · = .running) + l.countP (f · = .ready) + l.countP (f · = .blocked) := by
  induction l with
  | nil => rfl
  | cons t l ih =>
    simp only [List.countP_cons, ih]
    cases f t <;> simp <;> omega

theorem card_liveTasks (s : State) : (liveTasks s).card = (List.finRange 32).countP (s.state · ≠ .dead) := by
  rw [List.countP_eq_length_filter]
  rfl

theorem all_live_of_full {s : State} (h : 32 ≤ (liveTasks s).card) (t : TaskRef) : s.state t ≠ .dead := by
  have huniv : liveTasks s = Finset.univ := by
    apply Finset.eq_univ_of_card
    have hle := card_liveTasks_le s
    rw [Fintype.card_fin]
    omega
  exact mem_liveTasks.mp (huniv ▸ Finset.mem_univ t)

/-- The counter is tested first and the table second; either test alone says that
no descriptor is free. -/
theorem all_live_of_refused {s s' : State} {name : ℕ → UInt8} {eip esp : ℕ} (hc : Counted s)
    (hrun : schedCreate (some name) eip esp s = some (s', none)) (t : TaskRef) : s.state t ≠ .dead := by
  unfold schedCreate at hrun
  simp only at hrun
  split_ifs at hrun with hfull
  · exact all_live_of_full (hc ▸ hfull) t
  · cases hfind : (List.finRange 32).find? fun t => (schedLockIrq s).state t = .dead with
    | none =>
      have hlive : (schedLockIrq s).state t ≠ .dead := by
        simpa using List.find?_eq_none.mp hfind t (List.mem_finRange t)
      exact hlive
    | some u =>
      rw [hfind] at hrun
      obtain ⟨s₁, -, hrun⟩ := Option.bind_eq_some_iff.mp hrun
      obtain ⟨s₂, -, hrun⟩ := Option.bind_eq_some_iff.mp hrun
      cases hrun

/-- The counter, the statistics and the table agree from `SchedInit` on, and a task
is refused exactly when all 32 descriptors are live, without any effect. -/
theorem task_accounting {s : State} (h : system.ReachableIf LeavesUnlocked s) :
    s.taskCountValue = (liveTasks s).card ∧ 1 ≤ s.taskCountValue ∧ s.taskCountValue ≤ 32 ∧
    (schedGetStats s).totalTasks = s.taskCountValue ∧
    (schedGetStats s).runningTasks + (schedGetStats s).readyTasks + (schedGetStats s).blockedTasks =
      (schedGetStats s).totalTasks ∧
    (schedGetStats s).deadTasks = 32 - (schedGetStats s).totalTasks ∧
    ∀ (name : ℕ → UInt8) (eip esp : ℕ), ∃ s' r, schedCreate (some name) eip esp s = some (s', r) ∧
      (r = none ↔ ∀ t, s.state t ≠ .dead) ∧ (r = none → s' = s) := by
  have hi := reachable_inv h
  have hc := reachable_counted h
  have hcard : s.taskCountValue = (liveTasks s).card := hc
  have htotal : (schedGetStats s).totalTasks = s.taskCountValue := totalTasks_foldl _ _ _
  have hlive := countP_live s.state (List.finRange 32)
  have hall := List.length_eq_countP_add_countP (fun t => decide (s.state t ≠ .dead)) (l := List.finRange 32)
  have hdead : (schedGetStats s).deadTasks = (List.finRange 32).countP (s.state · = .dead) :=
    schedGetStats_of s .dead
  have hpos : 0 < (liveTasks s).card := Finset.card_pos.mpr ⟨0, mem_liveTasks.mpr hi.idle_live⟩
  refine ⟨hc, by omega, by rw [hcard]; exact card_liveTasks_le s, htotal, ?_, ?_, fun name eip esp => ?_⟩
  · rw [htotal, hcard, card_liveTasks, hlive]
    rw [← schedGetStats_of s .running, ← schedGetStats_of s .ready, ← schedGetStats_of s .blocked]
    rfl
  · rw [← card_liveTasks, List.length_finRange] at hall
    simp only [ne_eq, decide_not, Bool.not_not, Bool.decide_eq_true] at hall
    rw [htotal, hdead]
    omega
  · obtain ⟨s', r, hrun, -⟩ := schedCreate_inv hi (some name) eip esp
    refine ⟨s', r, hrun, ⟨fun hr => ?_, fun hl => ?_⟩, fun hr => ?_⟩
    · rw [hr] at hrun
      exact all_live_of_refused hc hrun
    · rcases schedCreate_born hrun with ⟨-, hr⟩ | ⟨t, -, hb⟩
      · exact hr
      · exact absurd hb.dead (hl t)
    · rcases schedCreate_born hrun with ⟨hs, -⟩ | ⟨t, ht, -⟩
      · exact hs
      · rw [hr] at ht; cases ht

/-- A table filled, with one descriptor recycled on the way, refuses the next task. -/
theorem task_accounting_full_table :
    ∃ s, system.ReachableIf LeavesUnlocked s ∧ s.id 5 = 32 ∧ (schedGetStats s).totalTasks = 32 ∧
      (schedGetStats s).deadTasks = 0 ∧ schedCreate (some fun _ => 0) 0 0 s = some (s, none) := by
  obtain ⟨s, -, hs, hp⟩ := System.exists_reachableIf LeavesUnlocked system_init
    ((List.replicate 31 createTask ++ [.kill 5, createTask]).map .call)
    (fun s => s.id 5 = 32 ∧ s.taskCountValue = 32) (by decide +kernel)
  obtain ⟨h5, h32⟩ := of_decide_eq_true hp
  obtain ⟨hcard, -, -, htotal, -, hdead, hcreate⟩ := task_accounting hs
  have hlive := all_live_of_full (hcard ▸ h32.ge)
  obtain ⟨s', r, hrun, hr, hsame⟩ := hcreate (fun _ => 0) 0 0
  obtain rfl := hr.mpr hlive
  refine ⟨s, hs, h5, htotal.trans h32, by rw [hdead, htotal, h32], ?_⟩
  rw [hrun, hsame rfl]

end Novium.Sched
