import Mathlib.Logic.Function.Basic
import Mathlib.Tactic.Common
import Novium.Lib.Runs

/-! What an allocator is for: objects with a size and contents of their own, at addresses where no other object is. A
cell keeps what was written to it until it is written again or its object is freed, whatever else is allocated, freed
and written. -/

namespace Novium.Lib

variable {α : Type*}

structure Object (α : Type*) where
  size : ℕ
  contents : ℕ → α

def Object.write (x : Object α) (k : ℕ) (v : α) : Object α := { x with contents := Function.update x.contents k v }

def Object.Covers (x : Object α) (p a : ℕ) : Prop := p ≤ a ∧ a < p + x.size

abbrev Objects (α : Type*) := ℕ → Option (Object α)

inductive ObjectOp (α : Type*) where
  | alloc (size : ℕ)
  | free (p : ℕ)
  | write (a : ℕ) (v : α)
  | other

/-- No operation frees the object at `p` or writes the cell `k` of it. -/
def ObjectOp.Spares (p k : ℕ) (op : ObjectOp α) : Prop := op ≠ .free p ∧ ∀ v, op ≠ .write (p + k) v

namespace Objects

inductive Step (o : Objects α) : ObjectOp α → Objects α → Prop where
  | alloc {size p : ℕ} {x : Object α} (fresh : o p = none) (enough : size ≤ x.size)
      (apart : ∀ q y, o q = some y → p + x.size ≤ q ∨ q + y.size ≤ p) :
      Step o (.alloc size) (Function.update o p (some x))
  | fail {size : ℕ} : Step o (.alloc size) o
  | free {p : ℕ} {x : Object α} (object : o p = some x) : Step o (.free p) (Function.update o p none)
  | write {p a : ℕ} {v : α} {x : Object α} (object : o p = some x) (covers : x.Covers p a) :
      Step o (.write a v) (Function.update o p (some (x.write (a - p) v)))
  | stray {a : ℕ} {v : α} (outside : ∀ p x, o p = some x → ¬x.Covers p a) : Step o (.write a v) o
  | other : Step o .other o

inductive Run : Objects α → List (ObjectOp α) → Objects α → Prop where
  | nil (o : Objects α) : Run o [] o
  | cons {o o₁ o₂ : Objects α} {op : ObjectOp α} {ops : List (ObjectOp α)} :
      Step o op o₁ → Run o₁ ops o₂ → Run o (op :: ops) o₂

/-- No two objects have an address in common. -/
def Apart (o : Objects α) : Prop :=
  ∀ p x q y, o p = some x → o q = some y → p ≠ q → p + x.size ≤ q ∨ q + y.size ≤ p

variable {o o' : Objects α} {op : ObjectOp α} {ops : List (ObjectOp α)} {p k : ℕ} {x : Object α}

theorem Apart.congr (h : Apart o)
    (hs : ∀ p x, o' p = some x → ∃ y, o p = some y ∧ y.size = x.size) : Apart o' := by
  intro p x q y hp hq hne
  obtain ⟨x₀, hp₀, hx⟩ := hs p x hp
  obtain ⟨y₀, hq₀, hy⟩ := hs q y hq
  rw [← hx, ← hy]
  exact h p x₀ q y₀ hp₀ hq₀ hne

theorem Apart.step (h : Apart o) (hs : Step o op o') : Apart o' := by
  cases hs with
  | fail | stray | other => exact h
  | @alloc size p x fresh _ apart =>
    intro q y r z hq hr hne
    by_cases hqp : q = p
    · subst hqp
      rw [Function.update_self] at hq
      rw [Function.update_of_ne (Ne.symm hne)] at hr
      obtain rfl := Option.some.inj hq
      exact apart r z hr
    rw [Function.update_of_ne hqp] at hq
    by_cases hrp : r = p
    · subst hrp
      rw [Function.update_self] at hr
      obtain rfl := Option.some.inj hr
      exact (apart q y hq).symm
    · rw [Function.update_of_ne hrp] at hr
      exact h q y r z hq hr hne
  | @free p x object =>
    refine h.congr fun q y hq => ?_
    by_cases hqp : q = p
    · subst hqp
      rw [Function.update_self] at hq
      cases hq
    · rw [Function.update_of_ne hqp] at hq
      exact ⟨y, hq, rfl⟩
  | @write p a v x object covers =>
    refine h.congr fun q y hq => ?_
    by_cases hqp : q = p
    · subst hqp
      rw [Function.update_self] at hq
      obtain rfl := Option.some.inj hq
      exact ⟨x, object, rfl⟩
    · rw [Function.update_of_ne hqp] at hq
      exact ⟨y, hq, rfl⟩

theorem Step.keeps (h : Step o op o') (hp : o p = some x) (hop : op.Spares p k) :
    ∃ y, o' p = some y ∧ y.size = x.size ∧ y.contents k = x.contents k := by
  cases h with
  | fail | stray | other => exact ⟨x, hp, rfl, rfl⟩
  | @alloc size q z fresh _ _ =>
    have hne : p ≠ q := by
      rintro rfl
      rw [hp] at fresh
      cases fresh
    exact ⟨x, by rw [Function.update_of_ne hne, hp], rfl, rfl⟩
  | @free q z _ =>
    have hne : p ≠ q := fun e => hop.1 (by rw [e])
    exact ⟨x, by rw [Function.update_of_ne hne, hp], rfl, rfl⟩
  | @write q a v z object covers =>
    by_cases hqp : p = q
    · subst hqp
      rw [hp] at object
      obtain rfl := Option.some.inj object
      have hk : k ≠ a - p := by
        rintro rfl
        exact hop.2 v (by rw [Nat.add_sub_cancel' covers.1])
      exact ⟨_, Function.update_self .., rfl, Function.update_of_ne hk ..⟩
    · exact ⟨x, by rw [Function.update_of_ne hqp, hp], rfl, rfl⟩

theorem Run.keeps (h : Run o ops o') (hp : o p = some x) (hops : ∀ op ∈ ops, op.Spares p k) :
    ∃ y, o' p = some y ∧ y.size = x.size ∧ y.contents k = x.contents k := by
  induction h generalizing x with
  | nil => exact ⟨x, hp, rfl, rfl⟩
  | cons hstep _ ih =>
    obtain ⟨y, hy, hsize, hcell⟩ := hstep.keeps hp (hops _ (List.mem_cons_self ..))
    obtain ⟨z, hz, hsize', hcell'⟩ := ih hy fun op hop => hops op (List.mem_cons_of_mem _ hop)
    exact ⟨z, hz, hsize'.trans hsize, hcell'.trans hcell⟩

end Objects

/-- What does to the objects in each step what its operation says does so over its runs. -/
theorem System.runIf_objects {σ ε : Type*} {S : System σ ε} {ok : σ → ε → Prop} [∀ s e, Decidable (ok s e)]
    {abs : σ → Objects α} {op : ε → ObjectOp α} {I : σ → Prop}
    (hstep : ∀ s e s', I s → ok s e → S.next s e = some s' → I s' ∧ (abs s).Step (op e) (abs s')) {es : List ε} {s t : σ}
    (hs : I s) (h : S.runIf ok s es = some t) : I t ∧ (abs s).Run (es.map op) (abs t) := by
  induction es generalizing s with
  | nil =>
    obtain rfl := Option.some.inj h
    exact ⟨hs, .nil _⟩
  | cons e es ih =>
    rw [System.runIf] at h
    split_ifs at h with hok
    obtain ⟨s₁, hn, hrest⟩ := Option.bind_eq_some_iff.mp h
    obtain ⟨h₁, hst⟩ := hstep s e s₁ hs hok hn
    obtain ⟨ht, hrun⟩ := ih h₁ hrest
    exact ⟨ht, .cons hst hrun⟩

end Novium.Lib
