import Mathlib.Logic.Relation
import Mathlib.Tactic.Common

/-! Transition systems driven by events, their runs, and the two rules every
later module uses: an invariant of the steps is an invariant of the runs, and a
list of events that evaluates to a state witnesses that the state is reached. -/

namespace Novium.Lib

variable {σ ε : Type*}

/-- `next s e = none` is an event that `s` cannot take, or that never returns. -/
structure System (σ ε : Type*) where
  init : σ → Prop
  next : σ → ε → Option σ

namespace System

/-- The states of the runs in which every event satisfies `ok` where it is taken. -/
inductive ReachableIf (S : System σ ε) (ok : σ → ε → Prop) : σ → Prop where
  | init {s : σ} : S.init s → S.ReachableIf ok s
  | step {s s' : σ} {e : ε} : S.ReachableIf ok s → ok s e → S.next s e = some s' → S.ReachableIf ok s'

def Reachable (S : System σ ε) : σ → Prop := S.ReachableIf fun _ _ => True

/-- `s'` comes after `s` by events that satisfy `ok`. -/
inductive Leads (S : System σ ε) (ok : σ → ε → Prop) (s : σ) : σ → Prop where
  | refl : S.Leads ok s s
  | tail {t t' : σ} {e : ε} : S.Leads ok s t → ok t e → S.next t e = some t' → S.Leads ok s t'

theorem ReachableIf.invariant {S : System σ ε} {ok : σ → ε → Prop} {I : σ → Prop}
    (hinit : ∀ s, S.init s → I s)
    (hstep : ∀ s e s', I s → ok s e → S.next s e = some s' → I s')
    {s : σ} (h : S.ReachableIf ok s) : I s := by
  induction h with
  | init h0 => exact hinit _ h0
  | step _ hok hn ih => exact hstep _ _ _ ih hok hn

theorem ReachableIf.invariantFrom {S : System σ ε} {ok : σ → ε → Prop} {I J : σ → Prop}
    (hJ : ∀ s, S.ReachableIf ok s → J s) (hinit : ∀ s, S.init s → I s)
    (hstep : ∀ s e s', J s → I s → ok s e → S.next s e = some s' → I s')
    {s : σ} (h : S.ReachableIf ok s) : I s := by
  induction h with
  | init h0 => exact hinit _ h0
  | step hr hok hn ih => exact hstep _ _ _ (hJ _ hr) ih hok hn

theorem Reachable.invariant {S : System σ ε} {I : σ → Prop}
    (hinit : ∀ s, S.init s → I s)
    (hstep : ∀ s e s', I s → S.next s e = some s' → I s')
    {s : σ} (h : S.Reachable s) : I s :=
  ReachableIf.invariant hinit (fun s e s' hi _ hn => hstep s e s' hi hn) h

theorem Leads.invariant {S : System σ ε} {ok : σ → ε → Prop} {I : σ → Prop}
    (hstep : ∀ s e s', I s → ok s e → S.next s e = some s' → I s')
    {s t : σ} (h : S.Leads ok s t) (hs : I s) : I t := by
  induction h with
  | refl => exact hs
  | tail _ hok hn ih => exact hstep _ _ _ ih hok hn

theorem Leads.reachableIf {S : System σ ε} {ok : σ → ε → Prop} {s t : σ} (h : S.Leads ok s t)
    (hs : S.ReachableIf ok s) : S.ReachableIf ok t := by
  induction h with
  | refl => exact hs
  | tail _ hok hn ih => exact .step ih hok hn

theorem Leads.trans {S : System σ ε} {ok : σ → ε → Prop} {s t u : σ} (h : S.Leads ok s t)
    (h' : S.Leads ok t u) : S.Leads ok s u := by
  induction h' with
  | refl => exact h
  | tail _ hok hn ih => exact .tail ih hok hn

/-- Take the events of a list in order, as long as they meet `ok`. -/
def runIf (S : System σ ε) (ok : σ → ε → Prop) [∀ s e, Decidable (ok s e)] : σ → List ε → Option σ
  | s, [] => some s
  | s, e :: es => if ok s e then (S.next s e).bind fun s' => S.runIf ok s' es else none

theorem Leads.runIf {S : System σ ε} {ok : σ → ε → Prop} [∀ s e, Decidable (ok s e)] {s₀ : σ} :
    ∀ {es : List ε} {s s' : σ}, S.Leads ok s₀ s → S.runIf ok s es = some s' → S.Leads ok s₀ s'
  | [], s, s', hs, h => by
    rw [System.runIf, Option.some.injEq] at h
    exact h ▸ hs
  | e :: es, s, s', hs, h => by
    rw [System.runIf] at h
    split_ifs at h with hok
    obtain ⟨s₁, h1, h2⟩ := Option.bind_eq_some_iff.mp h
    exact Leads.runIf (.tail hs hok h1) h2

theorem ReachableIf.runIf {S : System σ ε} {ok : σ → ε → Prop} [∀ s e, Decidable (ok s e)] {es : List ε} {s s' : σ}
    (hs : S.ReachableIf ok s) (h : S.runIf ok s es = some s') : S.ReachableIf ok s' :=
  (Leads.runIf .refl h).reachableIf hs

theorem exists_reachableIf {S : System σ ε} (ok : σ → ε → Prop) [∀ s e, Decidable (ok s e)] {s : σ}
    (hs : S.init s) (es : List ε) (p : σ → Bool) (h : (S.runIf ok s es).map p = some true) :
    ∃ s', S.runIf ok s es = some s' ∧ S.ReachableIf ok s' ∧ p s' = true := by
  obtain ⟨s', hr, hp⟩ := Option.map_eq_some_iff.mp h
  exact ⟨s', hr, ReachableIf.runIf (.init hs) hr, hp⟩

/-- Each event of the list meets `P` in the state in which it is taken. -/
def Every (S : System σ ε) (P : σ → ε → Prop) : σ → List ε → Prop
  | _, [] => True
  | s, e :: es => P s e ∧ ∀ s' ∈ S.next s e, S.Every P s' es

theorem Every.mono {S : System σ ε} {P Q : σ → ε → Prop} (hpq : ∀ s e, P s e → Q s e) :
    ∀ {es : List ε} {s : σ}, S.Every P s es → S.Every Q s es
  | [], _, _ => trivial
  | e :: _, s, h => ⟨hpq s e h.1, fun s' hs' => Every.mono hpq (h.2 s' hs')⟩

end System

end Novium.Lib
