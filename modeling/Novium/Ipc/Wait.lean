import Novium.Lib.Word
import Mathlib.Data.List.Find
import Mathlib.Data.List.Nodup
import Mathlib.Data.List.Perm.Basic
import Mathlib.Logic.Function.Basic
import Mathlib.Tactic.Common

/-! The wait queue of `ipc/ipc.c`: an array of task ids in no particular order, from
which an entry is removed by moving the last one into its slot. `live` is what
`SchedFind` says about an id. A result of `none` is a loop that never ends. What each
operation does is said of the list of the entries, and of the slots behind them. -/

namespace Novium.Ipc

open Novium.Lib

def ipcMaxWaiters : ℕ := 16

inductive IpcStatus where
  | ok | errInvalid | errFull | errEmpty | errBusy | errOwner | errNoTask
  deriving DecidableEq, Repr

structure IpcWait where
  ids : ℕ → ℕ
  count : ℕ

/-- `x` is one of the entries in use. -/
instance : Membership ℕ IpcWait := ⟨fun w x => ∃ i < w.count, w.ids i = x⟩

def emptyWait : IpcWait := ⟨fun _ => 0, 0⟩

def IpcWait.append (w : IpcWait) (id : ℕ) : IpcWait :=
  ⟨Function.update w.ids w.count id, w.count + 1⟩

/-- The last entry moved into slot `i`. -/
def IpcWait.swapOut (w : IpcWait) (i : ℕ) : IpcWait :=
  ⟨Function.update (Function.update w.ids i (w.ids (w.count - 1))) (w.count - 1) 0, w.count - 1⟩

/-- `none` is the result false. -/
def ipcWaitAdd (w : IpcWait) (id : ℕ) : Option IpcWait :=
  if w.count ≥ ipcMaxWaiters then none
  else match (List.range w.count).find? fun i => w.ids i = id with
    | some _ => some w
    | none => some (w.append id)

def ipcWaitRemove (w : IpcWait) (id : ℕ) : IpcWait :=
  match (List.range w.count).find? fun i => w.ids i = id with
  | none => w
  | some i => w.swapOut i

def ipcWaitIsLive (live : ℕ → Bool) (id : ℕ) : Bool := id ≠ 0 && live id

/-- The second loop of `IpcWaitTakeLive`. The decrement behind a removal undoes the
increment of the loop, through the wrap at 0. -/
def purgeLoop (live : ℕ → Bool) : ℕ → ℕ → IpcWait → Option IpcWait
  | 0, _, _ => none
  | n + 1, index, w =>
    if index < w.count then
      if w.ids index ≠ 0 ∧ !ipcWaitIsLive live (w.ids index) then
        purgeLoop live n (u32 (sub32 index 1 + 1)) (ipcWaitRemove w (w.ids index))
      else purgeLoop live n (u32 (index + 1)) w
    else some w

/-- The queue and the id returned. -/
def ipcWaitTakeLive (live : ℕ → Bool) (w : IpcWait) : Option (IpcWait × ℕ) :=
  match (List.range w.count).find? fun i => w.ids i ≠ 0 && ipcWaitIsLive live (w.ids i) with
  | some i => some (ipcWaitRemove w (w.ids i), w.ids i)
  | none => (purgeLoop live (w.count + 1) 0 w).map fun w' => (w', 0)

theorem find_range {n i : ℕ} {p : ℕ → Bool} (h : (List.range n).find? p = some i) : i < n ∧ p i = true :=
  ⟨List.mem_range.mp (List.mem_of_find?_eq_some h), List.find?_some h⟩

theorem find_range_none {n : ℕ} {p : ℕ → Bool} (h : (List.range n).find? p = none) {i : ℕ} (hi : i < n) :
    p i = false := by
  have := List.find?_eq_none.mp h i (List.mem_range.mpr hi)
  simpa using this

@[simp] theorem append_count (w : IpcWait) (id : ℕ) : (w.append id).count = w.count + 1 := rfl

theorem append_ids (w : IpcWait) (id i : ℕ) : (w.append id).ids i = if i = w.count then id else w.ids i := by
  simp [IpcWait.append, Function.update_apply]

@[simp] theorem swapOut_count (w : IpcWait) (k : ℕ) : (w.swapOut k).count = w.count - 1 := rfl

theorem swapOut_ids (w : IpcWait) (k i : ℕ) :
    (w.swapOut k).ids i = if i = w.count - 1 then 0 else if i = k then w.ids (w.count - 1) else w.ids i := by
  simp [IpcWait.swapOut, Function.update_apply]

/-- The entries in use, in array order. -/
def entryList (w : IpcWait) : List ℕ := (List.range w.count).map w.ids

/-- Nothing is asked of the slots behind the entries. -/
structure Entered (w : IpcWait) : Prop where
  bound : w.count ≤ ipcMaxWaiters
  nonzero : 0 ∉ entryList w
  distinct : (entryList w).Nodup

theorem mem_entryList {w : IpcWait} {x : ℕ} : x ∈ entryList w ↔ ∃ i < w.count, w.ids i = x := by
  simp [entryList]

@[simp] theorem entryList_length (w : IpcWait) : (entryList w).length = w.count := by simp [entryList]

theorem entryList_empty {w : IpcWait} (h : w.count = 0) : entryList w = [] := by simp [entryList, h]

/-- The slots behind the entries: those of removed entries are 0, the others are as they were. -/
def Vacated (w w' : IpcWait) : Prop :=
  (∀ i, w'.count ≤ i → i < w.count → w'.ids i = 0) ∧ ∀ i, w.count ≤ i → w'.ids i = w.ids i

theorem Vacated.refl (w : IpcWait) : Vacated w w := ⟨fun i h1 h2 => by omega, fun _ _ => rfl⟩

theorem Vacated.trans {w w₁ w₂ : IpcWait} (h₁ : Vacated w w₁) (h₂ : Vacated w₁ w₂)
    (hle : w₁.count ≤ w.count) : Vacated w w₂ := by
  constructor
  · intro i hi hlt
    by_cases hmid : i < w₁.count
    · exact h₂.1 i hi hmid
    · rw [h₂.2 i (by omega)]
      exact h₁.1 i (by omega) hlt
  · intro i hi
    rw [h₂.2 i (by omega)]
    exact h₁.2 i hi

theorem entryList_append (w : IpcWait) (id : ℕ) : entryList (w.append id) = entryList w ++ [id] := by
  unfold entryList
  rw [append_count, List.range_succ, List.map_append]
  congr 1
  · apply List.map_congr_left
    intro i hi
    rw [append_ids, if_neg (Nat.ne_of_lt (List.mem_range.mp hi))]
  · simp [append_ids]

theorem entryList_swapOut {w : IpcWait} {i : ℕ} (hi : i < w.count) :
    (entryList w).Perm (w.ids i :: entryList (w.swapOut i)) := by
  obtain ⟨m, hm⟩ : ∃ m, w.count = m + 1 := ⟨w.count - 1, by omega⟩
  have hkeep : ∀ j < m, j ≠ i → (w.swapOut i).ids j = w.ids j := by
    intro j hj hne
    rw [swapOut_ids, if_neg (by omega), if_neg hne]
  have hold : entryList w = (List.range m).map w.ids ++ [w.ids m] := by
    simp [entryList, hm, List.range_succ]
  have hnew : entryList (w.swapOut i) = (List.range m).map (w.swapOut i).ids := by
    simp [entryList, hm]
  rw [hold, hnew]
  rcases Nat.eq_or_lt_of_le (show i ≤ m by omega) with rfl | hlt
  · -- the entry removed is the last one
    have hsame : (List.range i).map (w.swapOut i).ids = (List.range i).map w.ids := by
      apply List.map_congr_left
      intro j hj
      exact hkeep j (List.mem_range.mp hj) (Nat.ne_of_lt (List.mem_range.mp hj))
    rw [hsame]
    exact List.perm_append_singleton _ _
  · have hsplit := List.perm_cons_erase (List.mem_range.mpr hlt)
    have hmoved : (w.swapOut i).ids i = w.ids m := by
      rw [swapOut_ids, if_neg (by omega), if_pos rfl, hm]
      rfl
    have hrest : ((List.range m).erase i).map (w.swapOut i).ids = ((List.range m).erase i).map w.ids := by
      apply List.map_congr_left
      intro j hj
      rw [List.nodup_range.mem_erase_iff] at hj
      exact hkeep j (List.mem_range.mp hj.2) hj.1
    calc (List.range m).map w.ids ++ [w.ids m]
        |>.Perm ((w.ids i :: ((List.range m).erase i).map w.ids) ++ [w.ids m]) :=
          (hsplit.map w.ids).append_right _
      _ |>.Perm (w.ids i :: w.ids m :: ((List.range m).erase i).map w.ids) :=
          (List.perm_append_singleton _ _).cons _
      _ |>.Perm (w.ids i :: (List.range m).map (w.swapOut i).ids) := by
          rw [← hmoved, ← hrest]
          exact ((hsplit.map (w.swapOut i).ids).symm).cons _

theorem swapOut_vacated {w : IpcWait} {i : ℕ} (hi : i < w.count) : Vacated w (w.swapOut i) := by
  constructor
  · intro j hj hlt
    rw [swapOut_count] at hj
    rw [swapOut_ids, if_pos (by omega)]
  · intro j hj
    rw [swapOut_ids, if_neg (by omega), if_neg (by omega)]

theorem ipcWaitRemove_mem {w : IpcWait} {id : ℕ} (h : id ∈ entryList w) :
    (entryList w).Perm (id :: entryList (ipcWaitRemove w id)) ∧ Vacated w (ipcWaitRemove w id) ∧
      (ipcWaitRemove w id).count + 1 = w.count := by
  unfold ipcWaitRemove
  split
  · rename_i hfind
    obtain ⟨i, hi, hid⟩ := mem_entryList.mp h
    exact absurd hid (by simpa using find_range_none hfind hi)
  · rename_i i hfind
    obtain ⟨hi, hp⟩ := find_range hfind
    have hid : w.ids i = id := of_decide_eq_true hp
    have hperm := entryList_swapOut hi
    rw [hid] at hperm
    refine ⟨hperm, swapOut_vacated hi, ?_⟩
    rw [swapOut_count]
    omega

theorem ipcWaitRemove_absent {w : IpcWait} {id : ℕ} (h : id ∉ entryList w) : ipcWaitRemove w id = w := by
  unfold ipcWaitRemove
  split
  · rfl
  · rename_i i hfind
    obtain ⟨hi, hp⟩ := find_range hfind
    exact absurd (mem_entryList.mpr ⟨i, hi, of_decide_eq_true hp⟩) h

theorem ipcWaitRemove_erase (w : IpcWait) (id : ℕ) :
    (entryList (ipcWaitRemove w id)).Perm ((entryList w).erase id) := by
  by_cases h : id ∈ entryList w
  · exact (List.cons_perm_iff_perm_erase.mp (ipcWaitRemove_mem h).1.symm).2
  · rw [ipcWaitRemove_absent h, List.erase_of_not_mem h]

theorem ipcWaitRemove_count_le (w : IpcWait) (id : ℕ) : (ipcWaitRemove w id).count ≤ w.count := by
  unfold ipcWaitRemove
  split
  · exact Nat.le_refl w.count
  · exact Nat.sub_le w.count 1

theorem Entered.remove {w : IpcWait} (h : Entered w) (id : ℕ) : Entered (ipcWaitRemove w id) where
  bound := Nat.le_trans (ipcWaitRemove_count_le w id) h.bound
  nonzero hmem := h.nonzero (List.mem_of_mem_erase ((ipcWaitRemove_erase w id).mem_iff.mp hmem))
  distinct := (ipcWaitRemove_erase w id).nodup_iff.mpr (h.distinct.erase id)

theorem ipcWaitAdd_outcome {w w' : IpcWait} {id : ℕ} (hadd : ipcWaitAdd w id = some w') :
    w.count < ipcMaxWaiters ∧ ((id ∈ entryList w ∧ w' = w) ∨ (id ∉ entryList w ∧ w' = w.append id)) := by
  unfold ipcWaitAdd at hadd
  split_ifs at hadd with hfull
  refine ⟨by omega, ?_⟩
  split at hadd
  · rename_i i hfind
    obtain ⟨hi, hp⟩ := find_range hfind
    cases hadd
    exact Or.inl ⟨mem_entryList.mpr ⟨i, hi, of_decide_eq_true hp⟩, rfl⟩
  · rename_i hfind
    cases hadd
    refine Or.inr ⟨?_, rfl⟩
    intro h
    obtain ⟨i, hi, hid⟩ := mem_entryList.mp h
    exact absurd hid (by simpa using find_range_none hfind hi)

theorem ipcWaitAdd_nodup {w w' : IpcWait} {id : ℕ} (h : Entered w) (hadd : ipcWaitAdd w id = some w') :
    (entryList w').Nodup ∧ w'.count ≤ ipcMaxWaiters := by
  obtain ⟨hroom, ⟨-, rfl⟩ | ⟨hnew, rfl⟩⟩ := ipcWaitAdd_outcome hadd
  · exact ⟨h.distinct, h.bound⟩
  · refine ⟨?_, by rw [append_count]; omega⟩
    rw [entryList_append]
    exact List.nodup_append_comm.mp (List.nodup_cons.mpr ⟨hnew, h.distinct⟩)

/-- While no entry is live, every round is at index 0 and takes out the entry that is there. -/
theorem purgeLoop_all {live : ℕ → Bool} {w : IpcWait} {n : ℕ} (h : 0 ∉ entryList w)
    (hdead : ∀ x ∈ entryList w, live x = false) (hn : w.count < n) :
    ∃ w', purgeLoop live n 0 w = some w' ∧ w'.count = 0 ∧ Vacated w w' := by
  induction n generalizing w with
  | zero => omega
  | succ n ih =>
    rw [purgeLoop]
    by_cases hpos : 0 < w.count
    · have hmem : w.ids 0 ∈ entryList w := mem_entryList.mpr ⟨0, hpos, rfl⟩
      have hstale : w.ids 0 ≠ 0 ∧ (!ipcWaitIsLive live (w.ids 0)) = true := by
        refine ⟨fun e => h (e ▸ hmem), ?_⟩
        simp [ipcWaitIsLive, hdead _ hmem]
      obtain ⟨hperm, hvac, hcount⟩ := ipcWaitRemove_mem hmem
      have hsub : ∀ x ∈ entryList (ipcWaitRemove w (w.ids 0)), x ∈ entryList w :=
        fun x hx => hperm.mem_iff.mpr (List.mem_cons_of_mem _ hx)
      obtain ⟨w', hrun, hzero, hvac'⟩ :=
        ih (w := ipcWaitRemove w (w.ids 0)) (fun h0 => h (hsub 0 h0)) (fun x hx => hdead x (hsub x hx)) (by omega)
      -- the decrement at index 0 wraps, and the increment of the loop wraps it back
      have hwrap : u32 (sub32 0 1 + 1) = 0 := by decide
      rw [if_pos hpos, if_pos hstale, hwrap]
      exact ⟨w', hrun, hzero, hvac.trans hvac' (by omega)⟩
    · rw [if_neg hpos]
      exact ⟨w, rfl, by omega, Vacated.refl w⟩

theorem find_entryList (w : IpcWait) (p : ℕ → Bool) :
    (entryList w).find? p = ((List.range w.count).find? fun i => p (w.ids i)).map w.ids := by
  rw [entryList, List.find?_map]
  rfl

theorem ipcWaitRemove_vacated (w : IpcWait) (id : ℕ) : Vacated w (ipcWaitRemove w id) := by
  by_cases h : id ∈ entryList w
  · exact (ipcWaitRemove_mem h).2.1
  · rw [ipcWaitRemove_absent h]
    exact Vacated.refl w

theorem find_live {w : IpcWait} (h : Entered w) (live : ℕ → Bool) :
    (entryList w).find? live =
      ((List.range w.count).find? fun i => decide (w.ids i ≠ 0) && ipcWaitIsLive live (w.ids i)).map w.ids := by
  rw [← find_entryList w fun x => decide (x ≠ 0) && ipcWaitIsLive live x]
  apply List.find?_congr
  intro x hx
  have h0 : x ≠ 0 := fun e => h.nonzero (e ▸ hx)
  simp [ipcWaitIsLive, h0]

theorem ipcWaitTakeLive_first (live : ℕ → Bool) {w : IpcWait} (h : Entered w) :
    ∃ w' id, ipcWaitTakeLive live w = some (w', id) ∧ Entered w' ∧ Vacated w w' ∧
      (∀ x, (entryList w).find? live = some x → id = x ∧ (entryList w').Perm ((entryList w).erase x)) ∧
      ((∀ x ∈ entryList w, live x = false) → id = 0 ∧ entryList w' = []) := by
  have hfirst := find_live h live
  unfold ipcWaitTakeLive
  split
  · rename_i i hfind
    rw [hfind, Option.map_some] at hfirst
    refine ⟨_, _, rfl, h.remove _, ipcWaitRemove_vacated w _, ?_, ?_⟩
    · intro x hx
      rw [hfirst] at hx
      cases hx
      exact ⟨rfl, ipcWaitRemove_erase w _⟩
    · intro hdead
      have hsome := List.find?_some hfirst
      rw [hdead _ (List.mem_of_find?_eq_some hfirst)] at hsome
      cases hsome
  · rename_i hfind
    rw [hfind, Option.map_none] at hfirst
    have hdead : ∀ x ∈ entryList w, live x = false := by
      intro x hx
      simpa using List.find?_eq_none.mp hfirst x hx
    obtain ⟨w', hrun, hzero, hvac⟩ := purgeLoop_all h.nonzero hdead (Nat.lt_succ_self w.count)
    have hnil := entryList_empty hzero
    refine ⟨w', 0, by rw [hrun]; rfl, ?_, hvac, ?_, fun _ => ⟨rfl, hnil⟩⟩
    · exact ⟨by omega, by simp [hnil], by simp [hnil]⟩
    · intro x hx
      rw [hfirst] at hx
      cases hx

/-- `IpcWaitTakeLive` ends. It takes the first live entry in array order, or empties a queue
that has none; and the other two operations keep the entries distinct and in the array. -/
theorem ipcWaitTakeLive_exact (live : ℕ → Bool) (w : IpcWait) (h : Entered w) :
    (∃ w' id, ipcWaitTakeLive live w = some (w', id) ∧ Entered w' ∧ Vacated w w' ∧
      (∀ x, (entryList w).find? live = some x → id = x ∧ (entryList w').Perm ((entryList w).erase x)) ∧
      ((∀ x ∈ entryList w, live x = false) → id = 0 ∧ entryList w' = [])) ∧
    ∀ id,
      (Entered (ipcWaitRemove w id) ∧ Vacated w (ipcWaitRemove w id) ∧
        (entryList (ipcWaitRemove w id)).Perm ((entryList w).erase id)) ∧
      ∀ w', ipcWaitAdd w id = some w' → (entryList w').Nodup ∧ w'.count ≤ ipcMaxWaiters ∧
        entryList w' = if id ∈ entryList w then entryList w else entryList w ++ [id] := by
  refine ⟨ipcWaitTakeLive_first live h, fun id => ⟨?_, fun w' hadd => ?_⟩⟩
  · exact ⟨h.remove id, ipcWaitRemove_vacated w id, ipcWaitRemove_erase w id⟩
  · obtain ⟨hnodup, hbound⟩ := ipcWaitAdd_nodup h hadd
    refine ⟨hnodup, hbound, ?_⟩
    obtain ⟨-, ⟨hin, rfl⟩ | ⟨hnew, rfl⟩⟩ := ipcWaitAdd_outcome hadd
    · rw [if_pos hin]
    · rw [if_neg hnew, entryList_append]

/-- Task 7 is the only live one of three, and the fourth slot holds an old id. -/
theorem ipcWaitTakeLive_exact_middle :
    ∃ w', ipcWaitTakeLive (fun id => id = 7) ⟨fun i => [5, 7, 9, 3].getD i 0, 3⟩ = some (w', 7) ∧
      (entryList w').Perm [5, 9] ∧ w'.ids 2 = 0 ∧ w'.ids 3 = 3 := by
  have hw : Entered ⟨fun i => [5, 7, 9, 3].getD i 0, 3⟩ :=
    ⟨by decide, by decide, by decide⟩
  obtain ⟨⟨w', id, hrun, -, hvac, hfirst, -⟩, -⟩ := ipcWaitTakeLive_exact (fun id => id = 7) _ hw
  obtain ⟨rfl, hperm⟩ := hfirst 7 (by decide)
  have hlen : w'.count = 2 := by
    rw [← entryList_length w']
    exact hperm.length_eq
  exact ⟨w', hrun, hperm, hvac.1 2 (by omega) (by decide), hvac.2 3 (Nat.le_refl 3)⟩

/-- The entries in use are distinct ids other than 0, and the other slots are 0. -/
structure WellFormed (w : IpcWait) : Prop where
  bound : w.count ≤ ipcMaxWaiters
  nonzero : ∀ i < w.count, w.ids i ≠ 0
  clear : ∀ i, w.count ≤ i → w.ids i = 0
  distinct : ∀ i < w.count, ∀ j < w.count, w.ids i = w.ids j → i = j

theorem wellFormed_empty : WellFormed emptyWait :=
  ⟨by simp [emptyWait], by simp [emptyWait], fun _ _ => rfl, by simp [emptyWait]⟩

theorem WellFormed.entered {w : IpcWait} (h : WellFormed w) : Entered w where
  bound := h.bound
  nonzero hmem := by
    obtain ⟨i, hi, h0⟩ := mem_entryList.mp hmem
    exact h.nonzero i hi h0
  distinct := List.nodup_range.map_on fun _ hi _ hj =>
    h.distinct _ (List.mem_range.mp hi) _ (List.mem_range.mp hj)

theorem Entered.wellFormed {w : IpcWait} (h : Entered w) (hclear : ∀ i, w.count ≤ i → w.ids i = 0) : WellFormed w where
  bound := h.bound
  nonzero i hi h0 := h.nonzero (mem_entryList.mpr ⟨i, hi, h0⟩)
  clear := hclear
  distinct _ hi _ hj hij :=
    List.inj_on_of_nodup_map h.distinct (List.mem_range.mpr hi) (List.mem_range.mpr hj) hij

theorem WellFormed.vacated {w w' : IpcWait} (h : WellFormed w) (h' : Entered w') (hv : Vacated w w') : WellFormed w' := by
  refine h'.wellFormed fun i hi => ?_
  by_cases hlt : i < w.count
  · exact hv.1 i hi hlt
  · rw [hv.2 i (by omega)]
    exact h.clear i (by omega)

theorem ipcWaitAdd_spec {w w' : IpcWait} {id : ℕ} (h : WellFormed w) (hid : id ≠ 0)
    (hadd : ipcWaitAdd w id = some w') : WellFormed w' ∧ ∀ x, x ∈ w' ↔ x ∈ w ∨ x = id := by
  obtain ⟨hnodup, hbound⟩ := ipcWaitAdd_nodup h.entered hadd
  obtain ⟨-, ⟨hin, rfl⟩ | ⟨-, rfl⟩⟩ := ipcWaitAdd_outcome hadd
  · refine ⟨h, fun x => ⟨Or.inl, ?_⟩⟩
    rintro (hx | rfl)
    · exact hx
    · exact mem_entryList.mp hin
  · have hmem : ∀ x, x ∈ entryList (w.append id) ↔ x ∈ entryList w ∨ x = id := by simp [entryList_append]
    refine ⟨Entered.wellFormed ⟨hbound, fun h0 => ?_, hnodup⟩ fun i hi => ?_, fun x => ?_⟩
    · exact ((hmem 0).mp h0).elim h.entered.nonzero fun e => hid e.symm
    · rw [append_count] at hi
      rw [append_ids, if_neg (by omega)]
      exact h.clear i (by omega)
    · have hx := hmem x
      rwa [mem_entryList, mem_entryList] at hx

theorem ipcWaitAdd_room {w : IpcWait} (id : ℕ) (hroom : w.count < ipcMaxWaiters) :
    ∃ w', ipcWaitAdd w id = some w' := by
  rw [ipcWaitAdd, if_neg (by omega)]
  split
  · exact ⟨_, rfl⟩
  · exact ⟨_, rfl⟩

theorem ipcWaitRemove_spec {w : IpcWait} (h : WellFormed w) (id : ℕ) :
    WellFormed (ipcWaitRemove w id) ∧ ∀ x, x ∈ ipcWaitRemove w id ↔ x ∈ w ∧ x ≠ id := by
  refine ⟨h.vacated (h.entered.remove id) (ipcWaitRemove_vacated w id), fun x => ?_⟩
  have hx := (ipcWaitRemove_erase w id).mem_iff (a := x)
  rw [h.entered.distinct.mem_erase_iff, and_comm] at hx
  rwa [mem_entryList, mem_entryList] at hx

/-- `IpcWaitTakeLive` ends. It takes out a live entry if there is one, and otherwise
empties the queue. -/
theorem ipcWaitTakeLive_spec {w : IpcWait} (live : ℕ → Bool) (h : WellFormed w) :
    ∃ w' id, ipcWaitTakeLive live w = some (w', id) ∧ WellFormed w' ∧
      ((id ≠ 0 ∧ id ∈ w ∧ live id = true ∧ w'.count < w.count ∧ ∀ x, x ∈ w' ↔ x ∈ w ∧ x ≠ id) ∨
        (id = 0 ∧ w'.count = 0 ∧ ∀ x ∈ w, live x = false)) := by
  obtain ⟨w', id, hrun, hent, hvac, hfirst, hnone⟩ := ipcWaitTakeLive_first live h.entered
  refine ⟨w', id, hrun, h.vacated hent hvac, ?_⟩
  cases hfind : (entryList w).find? live with
  | some x =>
    obtain ⟨rfl, hperm⟩ := hfirst x hfind
    have hin := List.mem_of_find?_eq_some hfind
    have hlen := hperm.length_eq
    rw [List.length_erase_of_mem hin, entryList_length, entryList_length] at hlen
    have hpos := List.length_pos_of_mem hin
    rw [entryList_length] at hpos
    refine Or.inl ⟨fun h0 => h.entered.nonzero (h0 ▸ hin), mem_entryList.mp hin, List.find?_some hfind, by omega, fun x => ?_⟩
    have hx := hperm.mem_iff (a := x)
    rw [h.entered.distinct.mem_erase_iff, and_comm] at hx
    rwa [mem_entryList, mem_entryList] at hx
  | none =>
    have hdead : ∀ x ∈ entryList w, live x = false := by simpa using List.find?_eq_none.mp hfind
    obtain ⟨rfl, hnil⟩ := hnone hdead
    refine Or.inr ⟨rfl, ?_, fun x hx => hdead x (mem_entryList.mpr hx)⟩
    rw [← entryList_length w', hnil]
    rfl

theorem ipcWaitTakeLive_cases {live : ℕ → Bool} {w w' : IpcWait} {id : ℕ} (h : WellFormed w)
    (htake : ipcWaitTakeLive live w = some (w', id)) :
    WellFormed w' ∧ ((id ≠ 0 ∧ id ∈ w ∧ live id = true ∧ ∀ x, x ∈ w' ↔ x ∈ w ∧ x ≠ id) ∨
      (id = 0 ∧ w'.count = 0 ∧ ∀ x ∈ w, live x = false)) := by
  obtain ⟨w₁, id₁, hrun, hwf, hcase⟩ := ipcWaitTakeLive_spec live h
  rw [htake] at hrun
  cases hrun
  exact ⟨hwf, hcase.imp_left fun ⟨h0, hin, hlive, _, hmem⟩ => ⟨h0, hin, hlive, hmem⟩⟩

end Novium.Ipc
