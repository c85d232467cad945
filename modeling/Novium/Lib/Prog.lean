import Mathlib.Logic.Function.Basic
import Mathlib.Tactic.Common

/-! Code that masks interrupts by hand. A call is a tree of single accesses to the interrupt
flag and to the memory `σ`, so that an interrupt or another thread can come in between any two. -/

namespace Novium.Lib

inductive Prog (σ α : Type) where
  | ret (a : α)
  /-- a loop that never ends -/
  | stuck
  | enabled (k : Bool → Prog σ α)
  | cli (k : Prog σ α)
  | sti (k : Prog σ α)
  | read (k : σ → Prog σ α)
  | write (f : σ → σ) (k : Prog σ α)
  /-- away to another thread, and back when somebody switches to this one -/
  | switch (k : Prog σ α)

namespace Prog

variable {σ τ α β : Type}

def bind : Prog σ α → (α → Prog σ β) → Prog σ β
  | .ret a, g => g a
  | .stuck, _ => .stuck
  | .enabled k, g => .enabled fun b => (k b).bind g
  | .cli k, g => .cli (k.bind g)
  | .sti k, g => .sti (k.bind g)
  | .read k, g => .read fun s => (k s).bind g
  | .write f k, g => .write f (k.bind g)
  | .switch k, g => .switch (k.bind g)

instance : Monad (Prog σ) where
  pure := .ret
  bind := .bind

def irqsEnabled : Prog σ Bool := .enabled .ret

def disableIrqs : Prog σ Unit := .cli (.ret ())

def enableIrqs : Prog σ Unit := .sti (.ret ())

def enableIf (was : Bool) : Prog σ Unit := if was then enableIrqs else .ret ()

def fetch (f : σ → β) : Prog σ β := .read fun s => .ret (f s)

def modify (f : σ → σ) : Prog σ Unit := .write f (.ret ())

def store : Option (σ × β) → Prog σ β
  | none => .stuck
  | some (s, b) => .write (fun _ => s) (.ret b)

def act (f : σ → Option (σ × β)) : Prog σ β := .read fun s => store (f s)

def attempt (f : σ → Option σ) : Prog σ Unit := act fun s => (f s).map (·, ())

def answer : Option β → Prog σ β
  | none => .stuck
  | some b => .ret b

def ask (f : σ → Option β) : Prog σ β := .read fun s => answer (f s)

def zoom (get : τ → σ) (set : σ → τ → τ) : Prog σ α → Prog τ α
  | .ret a => .ret a
  | .stuck => .stuck
  | .enabled k => .enabled fun b => (k b).zoom get set
  | .cli k => .cli (k.zoom get set)
  | .sti k => .sti (k.zoom get set)
  | .read k => .read fun t => (k (get t)).zoom get set
  | .write f k => .write (fun t => set (f (get t)) t) (k.zoom get set)
  | .switch k => .switch (k.zoom get set)

theorem zoom_bind (p : Prog σ α) (g : α → Prog σ β) (get : τ → σ) (set : σ → τ → τ) :
    (p >>= g).zoom get set = p.zoom get set >>= fun a => (g a).zoom get set := by
  change (p.bind g).zoom get set = (p.zoom get set).bind fun a => (g a).zoom get set
  induction p with
  | ret a => rfl
  | stuck => rfl
  | enabled k ih => exact congrArg Prog.enabled (funext ih)
  | cli k ih => exact congrArg Prog.cli ih
  | sti k ih => exact congrArg Prog.sti ih
  | read k ih => exact congrArg Prog.read (funext fun t => ih (get t))
  | write f k ih => exact congrArg (Prog.write _) ih
  | switch k ih => exact congrArg Prog.switch ih

/-- From the flag given, whatever the reads find and whoever runs in between: `W` holds of the flag at
every write, and `Q` of the flag and the result at the return. A switch gives the flag back. -/
def Along (W : Bool → Prop) (Q : Bool → α → Prop) : Prog σ α → Bool → Prop
  | .ret a, b => Q b a
  | .stuck, _ => True
  | .enabled k, b => (k b).Along W Q b
  | .cli k, _ => k.Along W Q false
  | .sti k, _ => k.Along W Q true
  | .read k, b => ∀ s, (k s).Along W Q b
  | .write _ k, b => W b ∧ k.Along W Q b
  | .switch k, b => k.Along W Q b

/-- The call returns with the flag that it was made with. -/
def Restores (W : Bool → Prop) (p : Prog σ α) : Prop := ∀ b, p.Along W (fun b' _ => b' = b) b

variable {W : Bool → Prop} {Q Q' : Bool → α → Prop} {b : Bool}

@[simp] theorem along_ret (a : α) : (ret a : Prog σ α).Along W Q b ↔ Q b a := Iff.rfl

@[simp] theorem along_pure (a : α) : (pure a : Prog σ α).Along W Q b ↔ Q b a := Iff.rfl

@[simp] theorem along_stuck : (stuck : Prog σ α).Along W Q b ↔ True := Iff.rfl

@[simp] theorem along_bind {R : Bool → β → Prop} (p : Prog σ α) (g : α → Prog σ β) :
    (p >>= g).Along W R b ↔ p.Along W (fun b a => (g a).Along W R b) b := by
  change (p.bind g).Along W R b ↔ _
  induction p generalizing b with
  | ret a => rfl
  | stuck => rfl
  | enabled k ih => exact ih b
  | cli k ih => exact ih
  | sti k ih => exact ih
  | read k ih => exact forall_congr' fun s => ih s
  | write f k ih => exact and_congr_right fun _ => ih
  | switch k ih => exact ih

theorem Along.mono {p : Prog σ α} (h : p.Along W Q b) (hq : ∀ b a, Q b a → Q' b a) : p.Along W Q' b := by
  induction p generalizing b with
  | ret a => exact hq b a h
  | stuck => trivial
  | enabled k ih => exact ih b h
  | cli k ih => exact ih h
  | sti k ih => exact ih h
  | read k ih => exact fun s => ih s (h s)
  | write f k ih => exact ⟨h.1, ih h.2⟩
  | switch k ih => exact ih h

theorem Along.zoom {p : Prog σ α} (h : p.Along W Q b) (get : τ → σ) (set : σ → τ → τ) :
    (p.zoom get set).Along W Q b := by
  induction p generalizing b with
  | ret a => exact h
  | stuck => trivial
  | enabled k ih => exact ih b h
  | cli k ih => exact ih h
  | sti k ih => exact ih h
  | read k ih => exact fun t => ih (get t) (h (get t))
  | write f k ih => exact ⟨h.1, ih h.2⟩
  | switch k ih => exact ih h

@[simp] theorem along_irqsEnabled {Q : Bool → Bool → Prop} :
    (irqsEnabled : Prog σ Bool).Along W Q b ↔ Q b b := Iff.rfl

@[simp] theorem along_disableIrqs {Q : Bool → Unit → Prop} :
    (disableIrqs : Prog σ Unit).Along W Q b ↔ Q false () := Iff.rfl

@[simp] theorem along_enableIrqs {Q : Bool → Unit → Prop} :
    (enableIrqs : Prog σ Unit).Along W Q b ↔ Q true () := Iff.rfl

@[simp] theorem along_enableIf {Q : Bool → Unit → Prop} (was : Bool) :
    (enableIf was : Prog σ Unit).Along W Q b ↔ Q (was || b) () := by
  cases was <;> rfl

@[simp] theorem along_fetch (f : σ → α) : (fetch f).Along W Q b ↔ ∀ s, Q b (f s) := Iff.rfl

@[simp] theorem along_modify {Q : Bool → Unit → Prop} (f : σ → σ) : (modify f).Along W Q b ↔ W b ∧ Q b () := Iff.rfl

@[simp] theorem along_act (f : σ → Option (σ × α)) :
    (act f).Along W Q b ↔ ∀ s s' a, f s = some (s', a) → W b ∧ Q b a := by
  refine forall_congr' fun s => ?_
  change (store (f s)).Along W Q b ↔ _
  cases f s with
  | none => simp [store]
  | some r =>
    obtain ⟨s', a⟩ := r
    refine ⟨fun h _ _ e => ?_, fun h => h s' a rfl⟩
    cases e
    exact h

@[simp] theorem along_attempt {Q : Bool → Unit → Prop} (f : σ → Option σ) :
    (attempt f).Along W Q b ↔ ∀ s s', f s = some s' → W b ∧ Q b () := by
  refine forall_congr' fun s => ?_
  change (store ((f s).map (·, ()))).Along W Q b ↔ _
  cases f s with
  | none => simp [store]
  | some s' => exact ⟨fun h _ _ => h, fun h => h s' rfl⟩

@[simp] theorem along_ask (f : σ → Option α) : (ask f).Along W Q b ↔ ∀ s a, f s = some a → Q b a := by
  refine forall_congr' fun s => ?_
  change (answer (f s)).Along W Q b ↔ _
  cases f s with
  | none => simp [answer]
  | some a => simp [answer]

theorem Restores.along {p : Prog σ α} (h : Restores W p) (hq : ∀ a, Q b a) : p.Along W Q b := by
  apply (h b).mono
  rintro _ a rfl
  exact hq a

theorem restores_pure (a : α) : Restores W (pure a : Prog σ α) := fun _ => rfl

theorem Restores.bind {p : Prog σ α} {g : α → Prog σ β} (hp : Restores W p) (hg : ∀ a, Restores W (g a)) :
    Restores W (p >>= g) := by
  intro b
  rw [along_bind]
  exact hp.along fun a => hg a b

theorem Restores.map {p : Prog σ α} (hp : Restores W p) (g : α → β) : Restores W (g <$> p) :=
  hp.bind fun a => restores_pure (g a)

theorem restores_fetch (f : σ → α) : Restores W (fetch f) := fun _ _ => rfl

theorem Restores.zoom {p : Prog σ α} (h : Restores W p) (get : τ → σ) (set : σ → τ → τ) :
    Restores W (p.zoom get set) := fun b => (h b).zoom get set

/-- Begun with the flag clear, the program never sets it. Whether it may switch is said by `leaves`; behind the switch
nothing is asked of it. -/
def Dark (leaves : Bool) : Prog σ α → Prop
  | .ret _ => True
  | .stuck => True
  | .enabled k => (k false).Dark leaves
  | .cli k => k.Dark leaves
  | .sti _ => False
  | .read k => ∀ s, (k s).Dark leaves
  | .write _ k => k.Dark leaves
  | .switch _ => leaves = true

section

variable {leaves : Bool}

theorem Dark.bind {p : Prog σ α} {g : α → Prog σ β} (hp : p.Dark leaves) (hg : ∀ a, (g a).Dark leaves) :
    (p >>= g).Dark leaves := by
  change (p.bind g).Dark leaves
  induction p with
  | ret a => exact hg a
  | stuck => trivial
  | enabled k ih => exact ih false hp
  | cli k ih => exact ih hp
  | sti k ih => exact hp
  | read k ih => exact fun s => ih s (hp s)
  | write f k ih => exact ih hp
  | switch k ih => exact hp

theorem Dark.zoom {p : Prog σ α} (hp : p.Dark leaves) (get : τ → σ) (set : σ → τ → τ) :
    (p.zoom get set).Dark leaves := by
  induction p with
  | ret a => trivial
  | stuck => trivial
  | enabled k ih => exact ih false hp
  | cli k ih => exact ih hp
  | sti k ih => exact hp
  | read k ih => exact fun t => ih (get t) (hp (get t))
  | write f k ih => exact ih hp
  | switch k ih => exact hp

theorem dark_pure (a : α) : (pure a : Prog σ α).Dark leaves := trivial

theorem dark_fetch (f : σ → α) : (fetch f).Dark leaves := fun _ => trivial

theorem dark_modify (f : σ → σ) : (modify f).Dark leaves := trivial

theorem dark_act (f : σ → Option (σ × α)) : (act f).Dark leaves := by
  intro s
  change (store (f s)).Dark leaves
  cases f s <;> trivial

theorem dark_attempt (f : σ → Option σ) : (attempt f).Dark leaves := dark_act _

theorem dark_ask (f : σ → Option α) : (ask f).Dark leaves := by
  intro s
  change (answer (f s)).Dark leaves
  cases f s <;> trivial

end

theorem Dark.along {p : Prog σ α} (hp : p.Dark false) (hW : W false) : p.Along W (fun b _ => b = false) false := by
  induction p with
  | ret a => rfl
  | stuck => trivial
  | enabled k ih => exact ih false hp
  | cli k ih => exact ih hp
  | sti k ih => exact hp.elim
  | read k ih => exact fun s => ih s (hp s)
  | write f k ih => exact ⟨hW, ih hp⟩
  | switch k ih => cases hp

/-- `body` with interrupts off, and then what they were before. -/
def masked (body : Prog σ α) : Prog σ α := do
  let was ← irqsEnabled
  disableIrqs
  let a ← body
  enableIf was
  return a

theorem masked_restores {body : Prog σ α} (hd : body.Dark false) (hW : W false) : Restores W (masked body) := by
  intro b
  simp only [masked, along_bind, along_irqsEnabled, along_disableIrqs]
  apply (hd.along hW).mono
  rintro _ a rfl
  simp

/-- Where it stops: at its return, or at its first switch with what is left of it. -/
inductive Stop (σ α : Type) where
  | done (a : α) (b : Bool) (s : σ)
  | switched (k : Prog σ α) (b : Bool) (s : σ)

def exec : Prog σ α → Bool → σ → Option (Stop σ α)
  | .ret a, b, s => some (.done a b s)
  | .stuck, _, _ => none
  | .enabled k, b, s => (k b).exec b s
  | .cli k, _, s => k.exec false s
  | .sti k, _, s => k.exec true s
  | .read k, b, s => (k s).exec b s
  | .write f k, b, s => k.exec b (f s)
  | .switch k, b, s => some (.switched k b s)

variable {s : σ}

@[simp] theorem exec_pure (a : α) : (pure a : Prog σ α).exec b s = some (.done a b s) := rfl

@[simp] theorem exec_map (f : α → β) (p : Prog σ α) :
    (f <$> p).exec b s = (p >>= fun a => pure (f a)).exec b s := rfl

@[simp] theorem exec_pure_bind (a : α) (g : α → Prog σ β) : (pure a >>= g).exec b s = (g a).exec b s := rfl

@[simp] theorem exec_bind_bind {γ : Type} (p : Prog σ α) (f : α → Prog σ β) (g : β → Prog σ γ) :
    ((p >>= f) >>= g).exec b s = (p >>= fun a => f a >>= g).exec b s := by
  change ((p.bind f).bind g).exec b s = (p.bind fun a => (f a).bind g).exec b s
  congr 1
  induction p with
  | ret a => rfl
  | stuck => rfl
  | enabled k ih => exact congrArg Prog.enabled (funext ih)
  | cli k ih => exact congrArg Prog.cli ih
  | sti k ih => exact congrArg Prog.sti ih
  | read k ih => exact congrArg Prog.read (funext ih)
  | write f k ih => exact congrArg (Prog.write f) ih
  | switch k ih => exact congrArg Prog.switch ih

variable {g : β → Prog σ α} {g' : Unit → Prog σ α}

@[simp] theorem exec_fetch (f : σ → β) : (fetch f >>= g).exec b s = (g (f s)).exec b s := rfl

@[simp] theorem exec_modify (f : σ → σ) : (modify f >>= g').exec b s = (g' ()).exec b (f s) := rfl

@[simp] theorem exec_act (f : σ → Option (σ × β)) :
    (act f >>= g).exec b s = (f s).bind fun r => (g r.2).exec b r.1 := by
  change ((store (f s)).bind g).exec b s = _
  cases f s <;> rfl

theorem exec_act_end (f : σ → Option (σ × α)) :
    (act f).exec b s = (f s).map fun r => .done r.2 b r.1 := by
  change (store (f s)).exec b s = _
  cases f s <;> rfl

@[simp] theorem exec_attempt (f : σ → Option σ) :
    (attempt f >>= g').exec b s = (f s).bind fun s' => (g' ()).exec b s' := by
  change ((store ((f s).map (·, ()))).bind g').exec b s = _
  cases f s <;> rfl

@[simp] theorem exec_ask (f : σ → Option β) : (ask f >>= g).exec b s = (f s).bind fun a => (g a).exec b s := by
  change ((answer (f s)).bind g).exec b s = _
  cases f s <;> rfl

/-- The stop of a program on a part of the memory that was `t`. -/
def Stop.zoom (get : τ → σ) (set : σ → τ → τ) (t : τ) : Stop σ α → Stop τ α
  | .done a b s => .done a b (set s t)
  | .switched k b s => .switched (k.zoom get set) b (set s t)

theorem exec_zoom_set {get : τ → σ} {set : σ → τ → τ} (hget : ∀ s t, get (set s t) = s)
    (hset : ∀ s s' t, set s' (set s t) = set s' t) (p : Prog σ α) (t : τ) :
    (p.zoom get set).exec b (set s t) = (p.exec b s).map (Stop.zoom get set t) := by
  induction p generalizing b s with
  | ret a => rfl
  | stuck => rfl
  | enabled k ih => exact ih b
  | cli k ih => exact ih
  | sti k ih => exact ih
  | read k ih =>
    change ((k (get (set s t))).zoom get set).exec b (set s t) = _
    rw [hget]
    exact ih s
  | write f k ih =>
    change (k.zoom get set).exec b (set (f (get (set s t))) (set s t)) = _
    rw [hget, hset]
    exact ih
  | switch k ih => rfl

theorem exec_zoom {get : τ → σ} {set : σ → τ → τ} (hget : ∀ s t, get (set s t) = s)
    (hset : ∀ s s' t, set s' (set s t) = set s' t) (hself : ∀ t, set (get t) t = t) (p : Prog σ α) (t : τ) :
    (p.zoom get set).exec b t = (p.exec b (get t)).map (Stop.zoom get set t) := by
  have h := exec_zoom_set (b := b) (s := get t) hget hset p t
  rwa [hself] at h

end Prog

end Novium.Lib
