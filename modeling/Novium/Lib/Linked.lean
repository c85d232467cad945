import Mathlib.Data.List.Nodup
import Mathlib.Logic.Function.Basic

/-! Singly linked lists threaded through a link function: what a head pointer
denotes, that the denoted sequence is unique and without repetition, and how it
changes when a node is appended or bridged over. -/

namespace Novium.Lib

variable {ι : Type*} {next next' : ι → Option ι} {h : Option ι}

/-- `l` is the sequence of nodes met by following `next` from `h` to the null link. -/
def Linked (next : ι → Option ι) : Option ι → List ι → Prop
  | h, [] => h = none
  | h, a :: l => h = some a ∧ Linked next (next a) l

/-- `next` leads from `h` past the nodes of `l` to `h'`, whether or not it ever ends. -/
def Along (next : ι → Option ι) : Option ι → List ι → Option ι → Prop
  | h, [], h' => h = h'
  | h, a :: l, h' => h = some a ∧ Along next (next a) l h'

@[simp] theorem linked_nil : Linked next h [] ↔ h = none := Iff.rfl

@[simp] theorem linked_cons {a : ι} {l : List ι} :
    Linked next h (a :: l) ↔ h = some a ∧ Linked next (next a) l := Iff.rfl

theorem linked_none {l : List ι} : Linked next none l ↔ l = [] := by
  cases l <;> simp

theorem Linked.unique {l l' : List ι} (hl : Linked next h l) (hl' : Linked next h l') : l = l' := by
  induction l generalizing h l' with
  | nil => rw [linked_nil] at hl; subst hl; exact (linked_none.mp hl').symm
  | cons a l ih =>
    obtain ⟨rfl, hr⟩ := hl
    cases l' with
    | nil => simp at hl'
    | cons b l' =>
      obtain ⟨hb, hr'⟩ := hl'
      cases hb
      rw [ih hr hr']

theorem Linked.head_eq {l : List ι} (hl : Linked next h l) : h = l.head? := by
  cases l with
  | nil => exact hl
  | cons a l => exact hl.1

theorem Linked.suffix {l m : List ι} {a : ι} (hl : Linked next h (l ++ a :: m)) :
    Linked next (some a) (a :: m) := by
  induction l generalizing h with
  | nil => exact ⟨rfl, hl.2⟩
  | cons b l ih => exact ih hl.2

/-- A walk that ends cannot meet a node twice: it would loop from there on. -/
theorem Linked.nodup {l : List ι} (hl : Linked next h l) : l.Nodup := by
  induction l generalizing h with
  | nil => exact List.nodup_nil
  | cons a l ih =>
    refine List.nodup_cons.mpr ⟨fun ha => ?_, ih hl.2⟩
    obtain ⟨l₁, l₂, rfl⟩ := List.append_of_mem ha
    have hloop : a :: l₂ = a :: (l₁ ++ a :: l₂) := Linked.unique (Linked.suffix hl.2) ⟨rfl, hl.2⟩
    have := congrArg List.length hloop
    simp at this
    omega

theorem Linked.not_self {l : List ι} {a : ι} (hl : Linked next h l) (ha : a ∈ l) : next a ≠ some a := by
  intro hself
  obtain ⟨l₁, l₂, rfl⟩ := List.append_of_mem ha
  have hs := hl.suffix
  have hloop : l₂ = a :: l₂ := Linked.unique hs.2 (hself ▸ hs)
  simpa using congrArg List.length hloop

theorem Linked.congr {l : List ι} (hl : Linked next h l) (heq : ∀ a ∈ l, next' a = next a) :
    Linked next' h l := by
  induction l generalizing h with
  | nil => exact hl
  | cons a l ih =>
    refine ⟨hl.1, ?_⟩
    rw [heq a (by simp)]
    exact ih hl.2 fun b hb => heq b (by simp [hb])

theorem Linked.update [DecidableEq ι] {l : List ι} {t : ι} (hl : Linked next h l) (ht : t ∉ l) (v : Option ι) :
    Linked (Function.update next t v) h l :=
  hl.congr fun a ha => Function.update_of_ne (fun e : a = t => ht (e ▸ ha)) _ _

/-- A walk whose links agree up to `t` meets `t`, whatever it does behind it. -/
theorem Linked.mem_of_agree {l m l' : List ι} {t : ι} (hl : Linked next h (l ++ t :: m))
    (heq : ∀ a ∈ l, next' a = next a) (hl' : Linked next' h l') : t ∈ l' := by
  induction l generalizing h l' with
  | nil =>
    obtain ⟨rfl, -⟩ := hl
    cases l' with
    | nil => cases linked_nil.mp hl'
    | cons b l' =>
      cases hl'.1
      simp
  | cons a l ih =>
    obtain ⟨rfl, hr⟩ := hl
    cases l' with
    | nil => cases linked_nil.mp hl'
    | cons b l' =>
      obtain ⟨hb, hr'⟩ := hl'
      cases hb
      rw [heq a (by simp)] at hr'
      exact List.mem_cons_of_mem a (ih hr (fun b hb => heq b (by simp [hb])) hr')

theorem Linked.truncate {l m : List ι} {t : ι} (hl : Linked next h (l ++ t :: m)) (ht : next' t = none)
    (heq : ∀ a ∈ l, next' a = next a) : Linked next' h (l ++ [t]) := by
  induction l generalizing h with
  | nil => exact ⟨hl.1, ht⟩
  | cons a l ih =>
    refine ⟨hl.1, ?_⟩
    rw [heq a (by simp)]
    exact ih hl.2 fun b hb => heq b (by simp [hb])

theorem Linked.snoc {l : List ι} {z t : ι} (hl : Linked next h (l ++ [z])) (hz : next' z = some t)
    (ht : next' t = none) (heq : ∀ a ∈ l, next' a = next a) : Linked next' h (l ++ [z, t]) := by
  induction l generalizing h with
  | nil => exact ⟨hl.1, hz, ht⟩
  | cons a l ih =>
    refine ⟨hl.1, ?_⟩
    rw [heq a (by simp)]
    exact ih hl.2 fun b hb => heq b (by simp [hb])

theorem Linked.bridge {l m : List ι} {p t : ι} (hl : Linked next h (l ++ p :: t :: m))
    (hp : next' p = next t) (heq : ∀ a ∈ l ++ m, next' a = next a) : Linked next' h (l ++ p :: m) := by
  induction l generalizing h with
  | nil =>
    obtain ⟨rfl, -, hm⟩ := hl
    refine ⟨rfl, ?_⟩
    rw [hp]
    exact hm.congr fun a ha => heq a (by simp [ha])
  | cons a l ih =>
    refine ⟨hl.1, ?_⟩
    rw [heq a (by simp)]
    exact ih hl.2 fun b hb => heq b (by simp_all)

theorem Along.snoc {l : List ι} {a : ι} (hl : Along next h l (some a)) : Along next h (l ++ [a]) (next a) := by
  induction l generalizing h with
  | nil => exact ⟨hl, rfl⟩
  | cons b l ih => exact ⟨hl.1, ih hl.2⟩

theorem Along.congr {l : List ι} {h' : Option ι} (hl : Along next h l h') (heq : ∀ a ∈ l, next' a = next a) :
    Along next' h l h' := by
  induction l generalizing h with
  | nil => exact hl
  | cons a l ih =>
    refine ⟨hl.1, ?_⟩
    rw [heq a (by simp)]
    exact ih hl.2 fun b hb => heq b (by simp [hb])

theorem Along.next_isSome {l : List ι} {a b : ι} (hl : Along next h l (some a)) (hb : b ∈ l) :
    (next b).isSome := by
  induction l generalizing h with
  | nil => simp at hb
  | cons c l ih =>
    rcases List.mem_cons.mp hb with rfl | hb
    · cases l with
      | nil => rw [show next b = some a from hl.2]; rfl
      | cons d l => rw [hl.2.1]; rfl
    · exact ih hl.2 hb

/-- What holds of the head and of the successor of each node of which it holds,
holds of every node met. -/
theorem Along.closed {P : ι → Prop} {l : List ι} {a : ι} (hl : Along next h l (some a))
    (hhead : ∀ b, h = some b → P b) (hnext : ∀ b c, P b → next b = some c → P c) : P a := by
  induction l generalizing h with
  | nil => exact hhead a hl
  | cons b l ih => exact ih hl.2 fun c hc => hnext b c (hhead b hl.1) hc

theorem Linked.along_iff {l : List ι} {a : ι} (hl : Linked next h l) :
    (∃ m, Along next h m (some a)) ↔ a ∈ l := by
  induction l generalizing h with
  | nil =>
    rw [linked_nil] at hl
    subst hl
    refine ⟨?_, by simp⟩
    rintro ⟨m, hm⟩
    cases m with
    | nil => cases hm
    | cons b m => cases hm.1
  | cons b l ih =>
    obtain ⟨rfl, hr⟩ := hl
    rw [List.mem_cons, ← ih hr]
    constructor
    · rintro ⟨m, hm⟩
      cases m with
      | nil => exact Or.inl (Option.some.inj hm).symm
      | cons c m =>
        cases hm.1
        exact Or.inr ⟨m, hm.2⟩
    · rintro (rfl | ⟨m, hm⟩)
      · exact ⟨[], rfl⟩
      · exact ⟨b :: m, rfl, hm⟩

end Novium.Lib
