import Novium.Ipc.SemWake

/-! A post hands its permit to nobody: the waiter that `IpcWakeOne` picks finds it only
if no other task tries first. -/

namespace Novium.Ipc

open Novium.Lib

variable {initial limit : ℕ} {w w₀ w' : SemWorld} {e : SemEvent} {picked j : ℕ} {es : List SemEvent}

/-- A task other than `picked` tries to take a permit. -/
def triesFirst (picked : ℕ) (w : SemWorld) : SemEvent → Bool
  | .step id => id ≠ picked && w.tasks.run id = .runnable && (w.loc id = .waitTry || w.loc id = .tryWait)
  | _ => false

/-- A `SemPost` succeeds, or `picked` is killed. -/
def closesWindow (picked : ℕ) (w : SemWorld) : SemEvent → Bool
  | .step id => w.tasks.run id = .runnable && w.loc id = .post &&
      !(w.obj.sem.limit ≠ 0 && w.obj.sem.count ≥ w.obj.sem.limit)
  | .kill id => id = picked
  | _ => false

/-- The `SemWait` of `picked` has not returned, and nothing closes the window. -/
def InWindow (picked : ℕ) (w : SemWorld) (e : SemEvent) : Prop :=
  (w.loc picked).role.waits = true ∧ closesWindow picked w e = false

/-- Whoever else tries finds no permit. -/
def FindsNone (picked : ℕ) (w : SemWorld) (e : SemEvent) : Prop :=
  triesFirst picked w e = true → w.obj.sem.count = 0

def NobodyTries (picked : ℕ) (w : SemWorld) (e : SemEvent) : Prop := triesFirst picked w e = false

/-- The `SemPost` of task `j` was made when `Count` was 0 and takes `picked` off the queue. -/
structure Picks (initial limit : ℕ) (w : SemWorld) (j picked : ℕ) (w₀ : SemWorld) : Prop where
  posted : w.loc j = .wake 0 .take
  next : (semSystem initial limit).next w (.step j) = some w₀
  picked : w₀.loc j = .wake 0 (.wake picked)

/-- In the window `Count` changes only by an attempt that takes a permit: that of another
task, or that of `picked`, which then returns. -/
theorem window_count (hwin : InWindow picked w e) (hn : semCode.next w e = some w') :
    w'.obj.sem.count = w.obj.sem.count ∨ (w.obj.sem.count ≠ 0 ∧
      (triesFirst picked w e = true ∨ (w'.loc picked).role.waits = false)) := by
  rcases Code.next_cases hn with ⟨_, _, _, -, -, -, rfl⟩ | ⟨id, o, l, eff, rfl, hrun, hs, rfl⟩ | ⟨_, -, rfl⟩ |
    ⟨_, -, rfl⟩ | ⟨-, rfl⟩
  · exact .inl rfl
  · have hc : SemChange w.tasks.live id w.obj (w.loc id) o l eff := semStep_change hs
    generalize hpc : w.loc id = pc at hc
    cases hc with
    | take hat hpos =>
      refine .inr ⟨hpos, ?_⟩
      by_cases hid : id = picked
      · subst hid
        right
        simp [SemPc.role, Role.waits]
      · left
        rcases hat with rfl | rfl <;> simp [triesFirst, hid, hrun, hpc]
    | waitFails => exact .inl rfl
    | tryFails => exact .inl rfl
    | park => exact .inl rfl
    | post hroom =>
      have := hwin.2
      simp only [closesWindow, hrun, hpc] at this
      simp at this
      tauto
    | full => exact .inl rfl
    | wake => exact .inl rfl
  · exact .inl rfl
  · exact .inl rfl
  · exact .inl rfl

variable {S : System SemWorld SemEvent}

theorem findsNone_of_zero (hS : S.next = semCode.next) (h0 : w₀.obj.sem.count = 0)
    (hwin : S.Every (InWindow picked) w₀ es) : S.Every (FindsNone picked) w₀ es := by
  induction es generalizing w₀ with
  | nil => trivial
  | cons e es ih =>
    refine ⟨fun _ => h0, fun w' hn => ih ?_ (hwin.2 w' hn)⟩
    rcases window_count hwin.1 (hS ▸ hn) with hc | ⟨hpos, -⟩
    · exact hc.trans h0
    · exact absurd h0 hpos

theorem nobodyTries_of_findsNone (hS : S.next = semCode.next) (h0 : w₀.obj.sem.count ≠ 0)
    (hwin : S.Every (InWindow picked) w₀ es) (hnone : S.Every (FindsNone picked) w₀ es) :
    S.Every (NobodyTries picked) w₀ es := by
  induction es generalizing w₀ with
  | nil => trivial
  | cons e es ih =>
    have hquiet : triesFirst picked w₀ e = false := Bool.eq_false_iff.mpr fun ht => h0 (hnone.1 ht)
    refine ⟨hquiet, fun w' hn => ?_⟩
    cases es with
    | nil => trivial
    | cons e' es =>
      refine ih ?_ (hwin.2 w' hn) (hnone.2 w' hn)
      rcases window_count hwin.1 (hS ▸ hn) with hc | ⟨-, ht | hret⟩
      · rw [hc]; exact h0
      · rw [hquiet] at ht
        cases ht
      · rw [(hwin.2 w' hn).1.1] at hret
        cases hret

theorem Picks.asleep {ok : SemWorld → SemEvent → Prop} (h : (semSystem initial limit).ReachableIf ok w)
    (hp : Picks initial limit w j picked w₀) :
    picked ≠ j ∧ w₀.loc picked = .park .woken ∧ w₀.tasks.live picked = true ∧ w₀.tasks.run j = .runnable := by
  obtain ⟨hpost, hn, hpick⟩ := hp
  have hseat := sem_seated h
  obtain ⟨o, l, eff, hrun, hs, rfl⟩ := Code.step_cases (show semCode.next w (.step j) = some w₀ from hn)
  have hs' : semStep w.tasks.live j w.obj (.wake 0 .take) = some (o, l, eff) := hpost ▸ hs
  obtain ⟨⟨q, r, eff'⟩, hone, hs'⟩ := Option.bind_eq_some_iff.mp hs'
  cases hs'
  obtain ⟨⟨_, x⟩, htake, hone⟩ := Option.map_eq_some_iff.mp hone
  cases hone
  simp only [Function.update_self] at hpick
  obtain ⟨-, ⟨h0, hin, hlive, -⟩ | ⟨h0, -⟩⟩ := ipcWaitTakeLive_cases hseat.wellFormed htake
  · rw [if_pos h0] at hpick
    cases hpick
    have hasleep : (w.loc picked).role = .park .woken := of_decide_eq_true (hseat.asleep picked hin)
    have hne : picked ≠ j := by
      rintro rfl
      rw [hpost] at hasleep
      cases hasleep
    have hloc : w.loc picked = .park .woken := by
      have hwaits : (w.loc picked).role.waits = true := by rw [hasleep]; rfl
      rcases role_waits hwaits with hx | ⟨p, hx⟩
      · rw [hx] at hasleep; cases hasleep
      · rw [hx] at hasleep; cases hasleep; exact hx
    exact ⟨hne, by simpa only [Function.update_of_ne hne] using hloc, hlive, hrun⟩
  · rw [h0] at hpick
    cases hpick

/-- The task that posted wakes `picked` and then tries itself. -/
def postAndTry (j : ℕ) : List SemEvent := [.step j, tryWaitCall j, .step j]

theorem postAndTry_run (hne : picked ≠ j) (hloc : w₀.loc picked = .park .woken) (hrun : w₀.tasks.run j = .runnable)
    (hj : w₀.loc j = .wake 0 (.wake picked)) (h0 : w₀.obj.sem.count ≠ 0) :
    (semSystem initial limit).Every (InWindow picked) w₀ (postAndTry j) ∧
      ¬(semSystem initial limit).Every (FindsNone picked) w₀ (postAndTry j) := by
  have hrun₁ : (w₀.tasks.wake picked).run j = .runnable := by
    rw [Tasks.wake_run, if_neg fun h => hne h.1.symm]
    exact hrun
  have h1 : (semSystem initial limit).next w₀ (.step j) =
      some ⟨w₀.obj, w₀.tasks.wake picked, Function.update w₀.loc j (.out (some .ok))⟩ := by
    simp [semSystem, Code.system, Code.next, semCode, semStep, ipcWakeOne, hrun, hj, SemObj.setWait, Effect.apply]
  have h2 : (semSystem initial limit).next
      ⟨w₀.obj, w₀.tasks.wake picked, Function.update w₀.loc j (.out (some .ok))⟩ (tryWaitCall j) =
      some ⟨w₀.obj, w₀.tasks.wake picked, Function.update w₀.loc j .tryWait⟩ := by
    simp [semSystem, Code.system, Code.next, tryWaitCall, semCode, semStart, hrun₁]
  have hwaits : ∀ pc, (Function.update w₀.loc j pc picked).role.waits = true := by
    intro pc
    rw [Function.update_of_ne hne, hloc]
    rfl
  refine ⟨⟨⟨by rw [hloc]; rfl, by simp [closesWindow, hj]⟩, fun w₁ hw₁ => ?_⟩, fun hall => ?_⟩
  · rw [Option.mem_def, h1] at hw₁
    cases hw₁
    refine ⟨⟨hwaits _, rfl⟩, fun w₂ hw₂ => ?_⟩
    rw [Option.mem_def, h2] at hw₂
    cases hw₂
    exact ⟨⟨hwaits _, by simp [closesWindow]⟩, fun _ _ => trivial⟩
  · have htry := ((hall.2 _ h1).2 _ h2).1
    exact h0 (htry (by simp [triesFirst, hne.symm, hrun₁]))

/-- What the comment of `sync.h` says holds of a post if and only if its permit is gone
again when the waiter is picked. In a single run the others find no permit exactly if
this is so or none of them tries. -/
theorem handOff_exact (h : (semSystem initial limit).Reachable w) (hp : Picks initial limit w j picked w₀) :
    ((∀ es, (semSystem initial limit).Every (InWindow picked) w₀ es →
        (semSystem initial limit).Every (FindsNone picked) w₀ es) ↔ w₀.obj.sem.count = 0) ∧
    ∀ es, (semSystem initial limit).Every (InWindow picked) w₀ es →
      ((semSystem initial limit).Every (FindsNone picked) w₀ es ↔
        w₀.obj.sem.count = 0 ∨ (semSystem initial limit).Every (NobodyTries picked) w₀ es) := by
  obtain ⟨hne, hloc, -, hrun⟩ := hp.asleep h
  refine ⟨⟨fun hall => ?_, fun h0 es hwin => findsNone_of_zero rfl h0 hwin⟩, fun es hwin => ⟨fun hnone => ?_, ?_⟩⟩
  · by_contra h0
    obtain ⟨hwin, hnot⟩ := postAndTry_run hne hloc hrun hp.picked h0
    exact hnot (hall _ hwin)
  · by_cases h0 : w₀.obj.sem.count = 0
    · exact .inl h0
    · exact .inr (nobodyTries_of_findsNone rfl h0 hwin hnone)
  · rintro (h0 | hquiet)
    · exact findsNone_of_zero rfl h0 hwin
    · refine System.Every.mono (fun w e hq ht => ?_) hquiet
      rw [NobodyTries, ht] at hq
      cases hq

def onePicked : List SemEvent := List.replicate 3 .create ++ parkIn 2 ++ [postCall 1, .step 1]

theorem onePicked_picks : ∃ w w₀, (semSystem 0 0).Reachable w ∧ Picks 0 0 w 1 2 w₀ ∧ w₀.obj.sem.count = 1 ∧
    w₀.tasks.run 3 = .runnable ∧ w₀.loc 3 = .out none := by
  obtain ⟨w, -, hw, hp⟩ := System.exists_reachableIf (S := semSystem 0 0) (fun _ _ => True) (sem_boot 0 0) onePicked
    (fun w => w.loc 1 = .wake 0 .take ∧ ((semSystem 0 0).next w (.step 1)).any fun w₀ =>
      w₀.loc 1 = .wake 0 (.wake 2) ∧ w₀.obj.sem.count = 1 ∧ w₀.tasks.run 3 = .runnable ∧ w₀.loc 3 = .out none)
    (by decide +kernel)
  obtain ⟨hpost, hnext⟩ := of_decide_eq_true hp
  obtain ⟨w₀, hn, hw₀⟩ := (Option.any_eq_true _ _).mp hnext
  obtain ⟨hpick, hrest⟩ := of_decide_eq_true hw₀
  exact ⟨w, w₀, hw, ⟨hpost, hn, hpick⟩, hrest⟩

/-- A post with nobody else trying, and with somebody. -/
theorem handOff_exact_one_picked :
    ∃ w w₀, (semSystem 0 0).Reachable w ∧ Picks 0 0 w 1 2 w₀ ∧
      (semSystem 0 0).Every (FindsNone 2) w₀ [.step 1] ∧
      ¬∀ es, (semSystem 0 0).Every (InWindow 2) w₀ es → (semSystem 0 0).Every (FindsNone 2) w₀ es := by
  obtain ⟨w, w₀, hw, hp, hc, -⟩ := onePicked_picks
  obtain ⟨-, hloc, -⟩ := hp.asleep hw
  obtain ⟨hall, hone⟩ := handOff_exact hw hp
  refine ⟨w, w₀, hw, hp, ?_, fun hf => by have := hall.mp hf; omega⟩
  refine (hone [.step 1] ⟨⟨by rw [hloc]; rfl, by simp [closesWindow, hp.picked]⟩, fun _ _ => trivial⟩).mpr (.inr ?_)
  exact ⟨by simp [NobodyTries, triesFirst, hp.picked], fun _ _ => trivial⟩

/-- Before task 1 has even woken task 2, task 3 takes the permit. -/
theorem permit_stolen :
    ∃ w w₀, (semSystem 0 0).Reachable w ∧ Picks 0 0 w 1 2 w₀ ∧
      (semSystem 0 0).Every (InWindow 2) w₀ [tryWaitCall 3, .step 3] ∧
      ¬(semSystem 0 0).Every (FindsNone 2) w₀ [tryWaitCall 3, .step 3] := by
  obtain ⟨w, w₀, hw, hp, hc, hrun, hout⟩ := onePicked_picks
  obtain ⟨-, hloc, -⟩ := hp.asleep hw
  have hnext : (semSystem 0 0).next w₀ (tryWaitCall 3) =
      some { w₀ with loc := Function.update w₀.loc 3 .tryWait } := by
    simp [semSystem, Code.system, Code.next, tryWaitCall, semCode, semStart, hrun, hout]
  refine ⟨w, w₀, hw, hp, ⟨⟨by rw [hloc]; rfl, rfl⟩, fun w₁ hw₁ => ?_⟩, fun hall => ?_⟩
  · rw [Option.mem_def, hnext] at hw₁
    cases hw₁
    exact ⟨⟨by simp [hloc, SemPc.role, Role.waits], by simp [closesWindow]⟩, fun _ _ => trivial⟩
  · have htry := (hall.2 _ hnext).1 (by simp [triesFirst, hrun])
    have hone : w₀.obj.sem.count = 0 := htry
    omega

end Novium.Ipc
