import Novium.Lib.Prog
import Novium.Lib.Runs

/-! One processor, on which many threads take turns. The interrupt flag belongs to whichever
stack runs: a switch leaves it behind on the old stack and takes the new one's, and an
interrupt clears it until the handler returns. -/

namespace Novium.Lib

variable {ι σ α : Type}

/-- A call, the handlers that have interrupted it, innermost first, and the flag among the eflags
that the switch away has pushed. -/
structure Thread (σ α : Type) where
  code : Prog σ α
  handlers : List (Prog σ Unit)
  saved : Bool

structure Cpu (ι σ α : Type) where
  memory : σ
  flag : Bool
  current : ι
  threads : ι → Thread σ α

inductive CpuEvent (ι σ α : Type) where
  /-- the next access of the current thread, or the return from its handler -/
  | step
  /-- the switch at which the current thread is, to that one -/
  | switch (i : ι)
  | interrupt (handler : Prog σ Unit)
  /-- the call on the current thread has returned, and another is made -/
  | call (p : Prog σ α)
  /-- a thread is set up anew -/
  | spawn (i : ι) (thread : Thread σ α)

/-- One access, but for a switch. -/
def Prog.access : Prog σ α → Bool → σ → Option (Prog σ α × Bool × σ)
  | .enabled k, b, s => some (k b, b, s)
  | .cli k, _, s => some (k, false, s)
  | .sti k, _, s => some (k, true, s)
  | .read k, b, s => some (k s, b, s)
  | .write f k, b, s => some (k, b, f s)
  | .ret _, _, _ => none
  | .stuck, _, _ => none
  | .switch _, _, _ => none

/-- The thread as it is left at a switch under the flag `b`. -/
def Thread.left (st : Thread σ α) (b : Bool) : Option (Thread σ α) :=
  match st.handlers, st.code with
  | [], .switch k => some { st with code := k, saved := b }
  | .switch k :: hs, _ => some { st with handlers := k :: hs, saved := b }
  | _, _ => none

/-- The thread, the flag and the memory after the next access; `iret` finds the flag set, as the interrupt did. -/
def Thread.step (st : Thread σ α) (b : Bool) (s : σ) : Option (Thread σ α × Bool × σ) :=
  match st.handlers with
  | [] => (st.code.access b s).map fun (p, b, s) => ({ st with code := p }, b, s)
  | .ret _ :: hs => some ({ st with handlers := hs }, true, s)
  | h :: hs => (h.access b s).map fun (p, b, s) => ({ st with handlers := p :: hs }, b, s)

/-- The thread once `p` has been called on it. -/
def Thread.calls (st : Thread σ α) (p : Prog σ α) : Option (Thread σ α) :=
  match st.handlers, st.code with
  | [], .ret _ => some { st with code := p }
  | _, _ => none

namespace Cpu

variable [DecidableEq ι]

def setThread (c : Cpu ι σ α) (i : ι) (st : Thread σ α) : Cpu ι σ α :=
  { c with threads := Function.update c.threads i st }

def next (c : Cpu ι σ α) : CpuEvent ι σ α → Option (Cpu ι σ α)
  | .step => ((c.threads c.current).step c.flag c.memory).map fun (st, b, s) =>
      { c.setThread c.current st with flag := b, memory := s }
  | .switch i => ((c.threads c.current).left c.flag).map fun st =>
      { c.setThread c.current st with flag := ((c.setThread c.current st).threads i).saved, current := i }
  | .interrupt h =>
    if c.flag then
      some { c.setThread c.current
        { c.threads c.current with handlers := h :: (c.threads c.current).handlers } with flag := false }
    else none
  | .call p => ((c.threads c.current).calls p).map (c.setThread c.current)
  | .spawn i st => if i = c.current then none else some (c.setThread i st)

/-- Every machine may be the first: any memory, any threads, and the flag set or clear. -/
def system : System (Cpu ι σ α) (CpuEvent ι σ α) where
  init _ := True
  next := next

/-- The event neither sets up the thread `i` anew nor begins another call on it. -/
def Spares (i : ι) (c : Cpu ι σ α) : CpuEvent ι σ α → Prop
  | .call _ => c.current ≠ i
  | .spawn j _ => j ≠ i
  | _ => True

/-- The flag as the call on the thread `i` finds it when it goes on. -/
def flagOf (c : Cpu ι σ α) (i : ι) : Bool :=
  if (c.threads i).handlers.isEmpty then if c.current = i then c.flag else (c.threads i).saved else true

/-- What holds along every path of the call that is still on the thread `i`. -/
def Keeps (W : Bool → Prop) (Q : Bool → α → Prop) (i : ι) (c : Cpu ι σ α) : Prop :=
  (c.threads i).code.Along W Q (c.flagOf i)

variable {W : Bool → Prop} {Q : Bool → α → Prop} {i : ι} {c c' : Cpu ι σ α}

omit [DecidableEq ι] in
theorem access_along {p p' : Prog σ α} {b b' : Bool} {s s' : σ} (h : p.Along W Q b)
    (hacc : p.access b s = some (p', b', s')) : p'.Along W Q b' := by
  cases p with
  | ret a => cases hacc
  | stuck => cases hacc
  | enabled k => cases hacc; exact h
  | cli k => cases hacc; exact h
  | sti k => cases hacc; exact h
  | read k => cases hacc; exact h s
  | write f k => cases hacc; exact h.2
  | switch k => cases hacc

@[simp] theorem setThread_self (st : Thread σ α) : (c.setThread i st).threads i = st := by simp [setThread]

@[simp] theorem setThread_current (st : Thread σ α) : (c.setThread i st).current = c.current := rfl

theorem setThread_of_ne {j : ι} (h : i ≠ j) (st : Thread σ α) : (c.setThread j st).threads i = c.threads i := by
  simp [setThread, h]

theorem Keeps.away (h : c.Keeps W Q i) (hst : c'.threads i = c.threads i) (hi : c.current ≠ i) (hi' : c'.current ≠ i) :
    c'.Keeps W Q i := by
  unfold Keeps flagOf at *
  rw [hst, if_neg hi']
  rwa [if_neg hi] at h

theorem Keeps.ran {st : Thread σ α} {b : Bool} {s : σ} (h : c.Keeps W Q c.current)
    (hst : (c.threads c.current).step c.flag c.memory = some (st, b, s)) :
    Cpu.Keeps W Q c.current { c.setThread c.current st with flag := b, memory := s } := by
  unfold Keeps flagOf at *
  simp only [setThread_self, if_true] at *
  unfold Thread.step at hst
  split at hst
  · rename_i hh
    obtain ⟨⟨p, b', s'⟩, hacc, heq⟩ := Option.map_eq_some_iff.mp hst
    cases heq
    rw [hh] at h
    simpa [hh] using access_along h hacc
  · rename_i hh
    cases hst
    rw [hh] at h
    simpa using h
  · rename_i hh
    obtain ⟨⟨p, b', s'⟩, -, heq⟩ := Option.map_eq_some_iff.mp hst
    cases heq
    rw [hh] at h
    exact h

/-- A switch gives the flag back, whoever ran in the meantime. -/
theorem Keeps.left {st : Thread σ α} (h : c.Keeps W Q c.current)
    (hst : (c.threads c.current).left c.flag = some st) (j : ι) :
    Cpu.Keeps W Q c.current
      { c.setThread c.current st with flag := ((c.setThread c.current st).threads j).saved, current := j } := by
  unfold Keeps flagOf at *
  simp only [setThread_self, if_true] at *
  unfold Thread.left at hst
  split at hst
  · rename_i k hh hk
    cases hst
    rw [hh, hk] at h
    have hcode : k.Along W Q c.flag := h
    by_cases hj : j = c.current
    · subst hj
      simpa [hh] using hcode
    · simpa [hh, hj] using hcode
  · rename_i k hs hh
    cases hst
    rw [hh] at h
    exact h
  · cases hst

theorem Keeps.next {e : CpuEvent ι σ α} (h : c.Keeps W Q i) (he : c.Spares i e) (hn : c.next e = some c') :
    c'.Keeps W Q i := by
  cases e with
  | step =>
    obtain ⟨⟨st, b, s⟩, hst, rfl⟩ := Option.map_eq_some_iff.mp hn
    by_cases hi : c.current = i
    · subst hi
      exact h.ran hst
    · exact h.away (setThread_of_ne (Ne.symm hi) st) hi hi
  | switch j =>
    obtain ⟨st, hst, rfl⟩ := Option.map_eq_some_iff.mp hn
    by_cases hi : c.current = i
    · subst hi
      exact h.left hst j
    · unfold Keeps flagOf at *
      simp only [setThread_of_ne (Ne.symm hi), if_neg hi] at *
      by_cases hj : j = i
      · subst hj
        simpa [setThread_of_ne (Ne.symm hi)] using h
      · rwa [if_neg hj]
  | interrupt hd =>
    simp only [Cpu.next, Option.ite_none_right_eq_some, Option.some.injEq] at hn
    obtain ⟨hf, rfl⟩ := hn
    by_cases hi : c.current = i
    · -- the call goes on under the flag that the interrupt found
      subst hi
      unfold Keeps flagOf at *
      simp only [setThread_self, if_true, hf, ite_self] at *
      exact h
    · exact h.away (setThread_of_ne (Ne.symm hi) _) hi hi
  | call p =>
    obtain ⟨st, -, rfl⟩ := Option.map_eq_some_iff.mp hn
    exact h.away (setThread_of_ne (Ne.symm he) st) he he
  | spawn j st =>
    simp only [Cpu.next, Option.ite_none_left_eq_some, Option.some.injEq] at hn
    obtain ⟨-, rfl⟩ := hn
    unfold Keeps flagOf at *
    rwa [setThread_of_ne (Ne.symm he)]

/-- As long as the thread is not set up anew and its call has not returned, what holds along every path
of the call keeps holding, whatever the other threads and the handlers do. -/
theorem Keeps.run (hrun : system.Leads (Spares i) c c') (h : c.Keeps W Q i) : c'.Keeps W Q i :=
  hrun.invariant (fun _ _ _ hk he hn => hk.next he hn) h

/-- The thread `i` runs, and what is left of its call is `p`. -/
structure At (c : Cpu ι σ α) (i : ι) (p : Prog σ α) : Prop where
  current : c.current = i
  handlers : (c.threads i).handlers = []
  code : (c.threads i).code = p

theorem At.keeps_iff {p : Prog σ α} (h : c.At i p) : c.Keeps W Q i ↔ p.Along W Q c.flag := by
  unfold Keeps flagOf
  simp [h.handlers, h.code, h.current]

/-- A call that restores the flag returns with the flag that it found, in every run. -/
theorem At.restored {p : Prog σ α} (hp : p.Restores W) (h : c.At i p) (hrun : system.Leads (Spares i) c c')
    {a : α} (hret : c'.At i (.ret a)) : c'.flag = c.flag :=
  hret.keeps_iff.mp ((h.keeps_iff.mpr (hp c.flag)).run hrun)

theorem At.writes {p : Prog σ α} (hp : p.Restores W) (h : c.At i p) (hrun : system.Leads (Spares i) c c')
    {f : σ → σ} {k : Prog σ α} (hw : c'.At i (.write f k)) : W c'.flag :=
  (hw.keeps_iff.mp ((h.keeps_iff.mpr (hp c.flag)).run hrun)).1

/-- The thread `i` runs, and a part of its call is where it stops if nobody interrupts it. -/
def Stopped {β : Type} (c : Cpu ι σ α) (i : ι) (k : β → Prog σ α) : Prog.Stop σ β → Prop
  | .done a b s => c.At i (k a) ∧ c.flag = b ∧ c.memory = s
  | .switched p b s => c.At i (.switch (p >>= k)) ∧ c.flag = b ∧ c.memory = s

theorem At.step {p p' : Prog σ α} {b : Bool} {s : σ} (h : c.At i p)
    (hacc : p.access c.flag c.memory = some (p', b, s)) :
    ∃ c', system.Leads (Spares i) c c' ∧ c'.At i p' ∧ c'.flag = b ∧ c'.memory = s := by
  obtain ⟨rfl, hh, rfl⟩ := h
  have hst : (c.threads c.current).step c.flag c.memory = some ({ c.threads c.current with code := p' }, b, s) := by
    simp [Thread.step, hh, hacc]
  refine ⟨_, .tail (e := .step) .refl trivial (Option.map_eq_some_iff.mpr ⟨_, hst, rfl⟩), ⟨rfl, ?_, ?_⟩, rfl, rfl⟩
  · simpa using hh
  · simp

theorem At.exec {β : Type} {p : Prog σ β} {k : β → Prog σ α} {stop : Prog.Stop σ β} (h : c.At i (p >>= k))
    (hp : p.exec c.flag c.memory = some stop) : ∃ c', system.Leads (Spares i) c c' ∧ c'.Stopped i k stop := by
  induction p generalizing c with
  | ret a =>
    cases hp
    exact ⟨c, .refl, h, rfl, rfl⟩
  | stuck => cases hp
  | switch p ih =>
    cases hp
    exact ⟨c, .refl, h, rfl, rfl⟩
  | enabled p ih =>
    obtain ⟨c₁, h1, hat, hb, hs⟩ := h.step rfl
    obtain ⟨c', h2, hstop⟩ := ih _ hat (by rw [hb, hs]; exact hp)
    exact ⟨c', h1.trans h2, hstop⟩
  | cli p ih =>
    obtain ⟨c₁, h1, hat, hb, hs⟩ := h.step rfl
    obtain ⟨c', h2, hstop⟩ := ih hat (by rw [hb, hs]; exact hp)
    exact ⟨c', h1.trans h2, hstop⟩
  | sti p ih =>
    obtain ⟨c₁, h1, hat, hb, hs⟩ := h.step rfl
    obtain ⟨c', h2, hstop⟩ := ih hat (by rw [hb, hs]; exact hp)
    exact ⟨c', h1.trans h2, hstop⟩
  | read p ih =>
    obtain ⟨c₁, h1, hat, hb, hs⟩ := h.step rfl
    obtain ⟨c', h2, hstop⟩ := ih _ hat (by rw [hb, hs]; exact hp)
    exact ⟨c', h1.trans h2, hstop⟩
  | write f p ih =>
    obtain ⟨c₁, h1, hat, hb, hs⟩ := h.step rfl
    obtain ⟨c', h2, hstop⟩ := ih hat (by rw [hb, hs]; exact hp)
    exact ⟨c', h1.trans h2, hstop⟩

omit [DecidableEq ι] in
theorem access_bind {β : Type} {rest : Prog σ β} {p : Prog σ α} {k : β → Prog σ α} {b b' : Bool} {s s' : σ}
    (hret : ∀ a, rest ≠ .ret a) (h : (rest >>= k).access b s = some (p, b', s')) :
    ∃ rest', rest.access b s = some (rest', b', s') ∧ p = rest' >>= k := by
  cases rest with
  | ret a => exact absurd rfl (hret a)
  | stuck => cases h
  | enabled r => cases h; exact ⟨_, rfl, rfl⟩
  | cli r => cases h; exact ⟨_, rfl, rfl⟩
  | sti r => cases h; exact ⟨_, rfl, rfl⟩
  | read r => cases h; exact ⟨_, rfl, rfl⟩
  | write f r => cases h; exact ⟨_, rfl, rfl⟩
  | switch r => cases h

omit [DecidableEq ι] in
theorem access_dark {leaves : Bool} {p p' : Prog σ α} {b : Bool} {s s' : σ} (hd : p.Dark leaves)
    (h : p.access false s = some (p', b, s')) : p'.Dark leaves ∧ b = false ∧ p'.exec false s' = p.exec false s := by
  cases p with
  | ret a => cases h
  | stuck => cases h
  | enabled k => cases h; exact ⟨hd, rfl, rfl⟩
  | cli k => cases h; exact ⟨hd, rfl, rfl⟩
  | sti k => exact hd.elim
  | read k => cases h; exact ⟨hd s, rfl, rfl⟩
  | write f k => cases h; exact ⟨hd, rfl, rfl⟩
  | switch k => cases h

/-- The thread `i` is with the flag clear inside a part of its call that found the memory `s`; what is left of the part
comes to what the part comes to from there. -/
def Inside {β : Type} (c : Cpu ι σ α) (i : ι) (leaves : Bool) (body : Prog σ β) (s : σ) (k : β → Prog σ α) : Prop :=
  ∃ rest : Prog σ β, rest.Dark leaves ∧ c.At i (rest >>= k) ∧ c.flag = false ∧
    rest.exec false c.memory = body.exec false s

/-- With the flag clear and no switch ahead, the next event is an access of the thread or leaves everything that it
can see as it is. -/
theorem At.alone {p : Prog σ α} {e : CpuEvent ι σ α} (h : c.At i p) (hf : c.flag = false) (hp : ∀ k, p ≠ .switch k)
    (he : c.Spares i e) (hn : c.next e = some c') :
    (∃ p' b s, p.access c.flag c.memory = some (p', b, s) ∧ c'.At i p' ∧ c'.flag = b ∧ c'.memory = s) ∨
      (c'.At i p ∧ c'.flag = false ∧ c'.memory = c.memory) := by
  obtain ⟨rfl, hh, rfl⟩ := h
  cases e with
  | step =>
    obtain ⟨⟨st, b, s⟩, hst, rfl⟩ := Option.map_eq_some_iff.mp hn
    simp only [Thread.step, hh, Option.map_eq_some_iff] at hst
    obtain ⟨⟨p', b', s'⟩, hacc, heq⟩ := hst
    cases heq
    exact .inl ⟨p', _, _, hacc, ⟨rfl, by simp, by simp⟩, rfl, rfl⟩
  | switch j =>
    obtain ⟨st, hst, -⟩ := Option.map_eq_some_iff.mp hn
    unfold Thread.left at hst
    split at hst
    · rename_i k _ hk
      exact absurd hk (hp k)
    · rename_i hh'
      rw [hh] at hh'
      cases hh'
    · cases hst
  | interrupt hd => simp [Cpu.next, hf] at hn
  | call q => exact absurd rfl he
  | spawn j st =>
    simp only [Cpu.next, Option.ite_none_left_eq_some, Option.some.injEq] at hn
    obtain ⟨hj, rfl⟩ := hn
    have hne : c.current ≠ j := Ne.symm hj
    refine .inr ⟨⟨rfl, ?_, ?_⟩, hf, rfl⟩
    · rw [setThread_of_ne hne]
      exact hh
    · rw [setThread_of_ne hne]

theorem Inside.next {β : Type} {leaves : Bool} {body : Prog σ β} {s : σ} {k : β → Prog σ α} {e : CpuEvent ι σ α}
    (h : c.Inside i leaves body s k) (he : c.Spares i e) (hn : c.next e = some c') :
    c'.Inside i leaves body s k ∨ ∃ stop, body.exec false s = some stop ∧ c.Stopped i k stop := by
  obtain ⟨rest, hdark, hat, hclear, hexec⟩ := h
  by_cases hret : ∃ a, rest = .ret a
  · obtain ⟨a, rfl⟩ := hret
    exact .inr ⟨_, hexec.symm, hat, hclear, rfl⟩
  · by_cases hsw : ∃ r, rest = .switch r
    · obtain ⟨r, rfl⟩ := hsw
      exact .inr ⟨_, hexec.symm, hat, hclear, rfl⟩
    · left
      have hne : ∀ k', rest >>= k ≠ .switch k' := by
        intro k'
        cases rest with
        | ret a => exact absurd ⟨a, rfl⟩ hret
        | switch r => exact absurd ⟨r, rfl⟩ hsw
        | _ => exact fun e => nomatch e
      rcases hat.alone hclear hne he hn with ⟨p, b, s', hacc, hat', hb, hs⟩ | ⟨hat', hf', hs⟩
      · rw [hclear] at hacc
        obtain ⟨rest', hacc', rfl⟩ := access_bind (fun a e => hret ⟨a, e⟩) hacc
        obtain ⟨hd', rfl, hexec'⟩ := access_dark hdark hacc'
        exact ⟨rest', hd', hat', hb, by rw [hs, hexec', hexec]⟩
      · exact ⟨rest, hdark, hat', hf', by rw [hs, hexec]⟩

/-- A part of a call that begins with the flag clear and does not set it is one step for everybody else: in every run
the thread is still inside it, or the run has come through the state in which the part has stopped, with the memory
that the part alone makes of what it found. -/
theorem At.atomic {β : Type} {leaves : Bool} {body : Prog σ β} {k : β → Prog σ α} (hd : body.Dark leaves)
    (h : c.At i (body >>= k)) (hf : c.flag = false) (hrun : system.Leads (Spares i) c c') :
    c'.Inside i leaves body c.memory k ∨ ∃ stop d, body.exec false c.memory = some stop ∧ d.Stopped i k stop ∧
      system.Leads (Spares i) c d ∧ system.Leads (Spares i) d c' := by
  induction hrun with
  | refl => exact .inl ⟨body, hd, h, hf, rfl⟩
  | tail hrun he hn ih =>
    rcases ih with hin | ⟨stop, d, hexec, hstop, h1, h2⟩
    · rcases hin.next he hn with hin' | ⟨stop, hexec, hstop⟩
      · exact .inl hin'
      · exact .inr ⟨stop, _, hexec, hstop, hrun, .tail .refl he hn⟩
    · exact .inr ⟨stop, d, hexec, hstop, h1, .tail h2 he hn⟩

/-- What the call on the thread `i` has returned, if it has and the thread runs. -/
def result (c : Cpu ι σ α) (i : ι) : Option α :=
  match (c.threads i).handlers, (c.threads i).code with
  | [], .ret a => if c.current = i then some a else none
  | _, _ => none

theorem result_eq_some {a : α} (h : c.result i = some a) : c.At i (.ret a) := by
  unfold result at h
  split at h
  · rename_i hh hk
    split_ifs at h with hi
    cases h
    exact ⟨hi, hh, hk⟩
  · cases h

instance : ∀ (c : Cpu ι σ α) (e : CpuEvent ι σ α), Decidable (c.Spares i e)
  | _, .step => isTrue trivial
  | _, .switch _ => isTrue trivial
  | _, .interrupt _ => isTrue trivial
  | c, .call _ => inferInstanceAs (Decidable (c.current ≠ i))
  | _, .spawn j _ => inferInstanceAs (Decidable (j ≠ i))

end Cpu

end Novium.Lib
