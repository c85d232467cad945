import Novium.Ipc.Sem

/-! Permits are conserved: `Count` is what `SemInit` put there and posts added, less what
waits took, until a post meets the largest `Count` of a semaphore without a limit. -/

namespace Novium.Ipc

open Novium.Lib

variable {initial limit : ℕ} {w w' : SemWorld} {e : SemEvent}

/-- The law, with the clamped `Initial` of `SemInit`. -/
def PermitsConserved (initial limit : ℕ) (o : SemObj) : Prop :=
  (o.sem.count : ℤ) = ((semInit initial limit).count : ℤ) + o.posted - o.taken

/-- A post on a semaphore without a limit whose `Count` cannot grow. -/
def wraps (w : SemWorld) : SemEvent → Bool
  | .step id => w.loc id = .post && w.obj.sem.limit = 0 && w.obj.sem.count = 2 ^ 32 - 1
  | _ => false

def NoWrap (w : SemWorld) (e : SemEvent) : Prop := wraps w e = false

instance (w : SemWorld) (e : SemEvent) : Decidable (NoWrap w e) := inferInstanceAs (Decidable (_ = _))

structure SemInv (initial limit : ℕ) (o : SemObj) : Prop where
  law : PermitsConserved initial limit o
  limited : o.sem.limit = limit
  ceiling : limit ≠ 0 → o.sem.count ≤ limit
  word : o.sem.count < 2 ^ 32

theorem semInit_inv (hi : initial < 2 ^ 32) (hl : limit < 2 ^ 32) : SemInv initial limit ⟨semInit initial limit, 0, 0⟩ := by
  refine ⟨by simp [PermitsConserved], rfl, fun h0 => ?_, ?_⟩
  · show (if limit ≠ 0 ∧ initial > limit then limit else initial) ≤ limit
    split_ifs <;> omega
  · show (if limit ≠ 0 ∧ initial > limit then limit else initial) < 2 ^ 32
    split_ifs <;> omega

section

variable {live : ℕ → Bool} {self : ℕ} {o o' : SemObj} {pc pc' : SemPc} {eff : Effect}

theorem SemChange.inv (h : SemInv initial limit o) (hc : SemChange live self o pc o' pc' eff)
    (hno : ¬(pc = .post ∧ o.sem.limit = 0 ∧ o.sem.count = 2 ^ 32 - 1)) (hl : limit < 2 ^ 32) :
    SemInv initial limit o' := by
  obtain ⟨hlaw, hlim, hceil, hword⟩ := h
  unfold PermitsConserved at hlaw
  cases hc with
  | take _ hpos =>
    have hsub : sub32 o.sem.count 1 = o.sem.count - 1 := sub32_of_le (by omega) hword
    rw [hsub]
    refine ⟨?_, hlim, fun h0 => ?_, ?_⟩
    · simp only [PermitsConserved, recount_count, recount_posted, recount_taken]
      push_cast
      omega
    · have := hceil h0
      rw [recount_count]
      omega
    · rw [recount_count]
      omega
  | waitFails => exact ⟨hlaw, hlim, hceil, hword⟩
  | tryFails => exact ⟨hlaw, hlim, hceil, hword⟩
  | park => exact ⟨hlaw, hlim, hceil, hword⟩
  | post hroom =>
    -- below a limit, and by the condition without one, the sum fits into a word
    have hlt : o.sem.count + 1 < 2 ^ 32 := by
      by_cases h0 : o.sem.limit = 0
      · have : o.sem.count ≠ 2 ^ 32 - 1 := fun hc => hno ⟨rfl, h0, hc⟩
        omega
      · have : ¬o.sem.count ≥ o.sem.limit := fun hge => hroom ⟨h0, hge⟩
        omega
    rw [u32_of_lt hlt]
    refine ⟨?_, hlim, fun h0 => ?_, hlt⟩
    · simp only [PermitsConserved, recount_count, recount_posted, recount_taken]
      push_cast
      omega
    · have : ¬o.sem.count ≥ o.sem.limit := fun hge => hroom ⟨by omega, hge⟩
      rw [recount_count]
      omega
  | full => exact ⟨hlaw, hlim, hceil, hword⟩
  | wake => exact ⟨hlaw, hlim, hceil, hword⟩

theorem SemChange.wrapped (h : SemInv initial limit o) (hc : SemChange live self o pc o' pc' eff)
    (hpc : pc = .post) (h0 : o.sem.limit = 0) (hmax : o.sem.count = 2 ^ 32 - 1) :
    ¬PermitsConserved initial limit o' := by
  have hlaw := h.law
  unfold PermitsConserved at hlaw ⊢
  subst hpc
  cases hc with
  | take hat => rcases hat with hat | hat <;> cases hat
  | post =>
    have hzero : u32 (o.sem.count + 1) = 0 := by
      rw [hmax]
      rfl
    simp only [hzero, recount_count, recount_posted, recount_taken]
    push_cast
    omega
  | full hfull => exact absurd h0 hfull.1

end

theorem semInv_next (h : SemInv initial limit w.obj) (hl : limit < 2 ^ 32) (hok : NoWrap w e)
    (hn : semCode.next w e = some w') : SemInv initial limit w'.obj := by
  rcases Code.next_cases hn with ⟨_, _, _, -, -, -, rfl⟩ | ⟨id, o, l, eff, rfl, -, hs, rfl⟩ | ⟨_, -, rfl⟩ |
    ⟨_, -, rfl⟩ | ⟨-, rfl⟩
  · exact h
  · refine (semStep_change hs).inv h (fun ⟨hpc, h0, hmax⟩ => ?_) hl
    simp [NoWrap, wraps, hpc, h0, hmax] at hok
  · exact h
  · exact h
  · exact h

theorem sem_inv (hi : initial < 2 ^ 32) (hl : limit < 2 ^ 32)
    (h : (semSystem initial limit).ReachableIf NoWrap w) : SemInv initial limit w.obj := by
  refine h.invariant (I := fun w => SemInv initial limit w.obj) ?_ fun _ _ _ hs hok hn => semInv_next hs hl hok hn
  rintro w ⟨-, rfl, rfl⟩
  exact semInit_inv hi hl

theorem not_conserved_of_wraps (h : SemInv initial limit w.obj) (hw : wraps w e = true)
    (hn : semCode.next w e = some w') : ¬PermitsConserved initial limit w'.obj := by
  cases e with
  | step id =>
    simp only [wraps, Bool.and_eq_true, decide_eq_true_eq] at hw
    obtain ⟨⟨hpc, h0⟩, hmax⟩ := hw
    obtain ⟨o, l, eff, -, hs, rfl⟩ := Code.step_cases hn
    exact (semStep_change hs).wrapped h hpc h0 hmax
  | call => cases hw
  | undo => cases hw
  | kill => cases hw
  | create => cases hw

theorem full_post_idle {id : ℕ} (hn : semCode.next w (.step id) = some w') (hpc : w.loc id = .post)
    (hfull : w'.loc id = .out (some .errFull)) : w'.obj = w.obj ∧ w'.tasks = w.tasks := by
  obtain ⟨o, l, eff, -, hs, rfl⟩ := Code.step_cases hn
  simp only [Function.update_self] at hfull
  subst hfull
  have hs' : semStep w.tasks.live id w.obj .post = some (o, .out (some .errFull), eff) := hpc ▸ hs
  cases semStep_change hs' with
  | full => exact ⟨rfl, rfl⟩

/-- For any two words given to `SemInit`: as long as no post meets the largest `Count`
without a limit, permits are conserved, the limit is kept and a refused post does
nothing. The next post that does meet it breaks the law, and nothing else does. -/
theorem permits_conserved (hi : initial < 2 ^ 32) (hl : limit < 2 ^ 32)
    (h : (semSystem initial limit).ReachableIf NoWrap w) :
    PermitsConserved initial limit w.obj ∧ (limit ≠ 0 → w.obj.sem.count ≤ limit) ∧
    (∀ id w', (semSystem initial limit).next w (.step id) = some w' → w.loc id = .post →
      w'.loc id = .out (some .errFull) → w'.obj = w.obj ∧ w'.tasks = w.tasks) ∧
    ∀ e w', (semSystem initial limit).next w e = some w' →
      (PermitsConserved initial limit w'.obj ↔ NoWrap w e) := by
  have hinv := sem_inv hi hl h
  refine ⟨hinv.law, hinv.ceiling, fun id w' => full_post_idle, fun e w' hn => ⟨fun hlaw => ?_, fun hok => ?_⟩⟩
  · by_contra hw
    exact not_conserved_of_wraps hinv (by simpa [NoWrap] using hw) hn hlaw
  · exact (semInv_next hinv hl hok hn).law

theorem sem_boot (initial limit : ℕ) :
    (semSystem initial limit).init (semCode.boot ⟨semInit initial limit, 0, 0⟩) := ⟨_, rfl, rfl⟩

def waitCall (id : ℕ) : SemEvent := .call id ⟨.wait, false⟩
def tryWaitCall (id : ℕ) : SemEvent := .call id ⟨.tryWait, false⟩
def postCall (id : ℕ) : SemEvent := .call id ⟨.post, false⟩

/-- A binary semaphore: one post, one that is refused, and one wait. -/
theorem permits_conserved_binary :
    ∃ w, (semSystem 0 1).ReachableIf NoWrap w ∧ w.obj.posted = 1 ∧ w.obj.taken = 1 ∧
      PermitsConserved 0 1 w.obj := by
  obtain ⟨w, -, hw, hp⟩ := System.exists_reachableIf (S := semSystem 0 1) NoWrap (sem_boot 0 1)
    ([postCall 0] ++ List.replicate 2 (.step 0) ++ [postCall 0, .step 0, waitCall 0, .step 0])
    (fun w => w.obj.posted = 1 ∧ w.obj.taken = 1) (by decide +kernel)
  obtain ⟨hpost, htake⟩ := of_decide_eq_true hp
  exact ⟨w, hw, hpost, htake, (permits_conserved (by decide) (by decide) hw).1⟩

/-- The largest `Count` without a limit: a post reports `IpcOk` and leaves 0. -/
theorem permits_lost :
    ∃ w, (semSystem (2 ^ 32 - 1) 0).Reachable w ∧ w.loc 0 = .out (some .ok) ∧ w.obj.sem.count = 0 ∧
      ¬PermitsConserved (2 ^ 32 - 1) 0 w.obj := by
  obtain ⟨w, -, hw, hp⟩ := System.exists_reachableIf (S := semSystem (2 ^ 32 - 1) 0) (fun _ _ => True)
    (sem_boot (2 ^ 32 - 1) 0) [postCall 0, .step 0, .step 0]
    (fun w => w.loc 0 = .out (some .ok) ∧ w.obj.sem.count = 0 ∧ w.obj.posted = 1 ∧ w.obj.taken = 0)
    (by decide +kernel)
  obtain ⟨hpc, hc, hpost, htake⟩ := of_decide_eq_true hp
  refine ⟨w, hw, hpc, hc, ?_⟩
  unfold PermitsConserved
  rw [hc, hpost, htake]
  decide

end Novium.Ipc
