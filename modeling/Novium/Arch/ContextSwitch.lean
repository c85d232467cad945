import Novium.Arch.Switch

/-! What a task finds when it is scheduled. While another task runs, the stack of a
waiting task and the `Esp` field of its descriptor stay as they are (`untouched_step`,
`untouched_leads`), so the frame that `SchedSwitch` or `SchedInitStack` left there is the
one that the second half of a later `SchedSwitch` takes off. Other tasks may exit, which
ends in a switch that saves nothing, and descriptors may pass to tasks with other stacks. -/

namespace Novium.Arch

open Novium.Lib Novium.Lib.X86

variable {T D : Type*} {L : Stacks T D} {s s' : Cpu T D} {t : T} {d : D}

/-- The stack of `t` and the `Esp` field of `d` hold the same words in both memories. -/
def Stacks.Untouched (L : Stacks T D) (t : T) (d : D) (mem mem' : ℕ → BitVec 32) : Prop :=
  (∀ w, L.lo t ≤ w → w < L.hi t → mem' w = mem w) ∧ mem' (wordOf (L.espAt d)) = mem (wordOf (L.espAt d))

namespace Stacks.Untouched

theorem refl (t : T) (d : D) (mem : ℕ → BitVec 32) : L.Untouched t d mem mem := ⟨fun _ _ _ => rfl, rfl⟩

theorem trans {mem mem' mem'' : ℕ → BitVec 32} (h : L.Untouched t d mem mem') (h' : L.Untouched t d mem' mem'') :
    L.Untouched t d mem mem'' :=
  ⟨fun w h1 h2 => (h'.1 w h1 h2).trans (h.1 w h1 h2), h'.2.trans h.2⟩

/-- Writes to the stack of another task, and to the `Esp` fields of other descriptors, are none of `t`'s in `d`. -/
theorem of_other {u : T} {mem mem' : ℕ → BitVec 32} (hu : u ≠ t)
    (h : ∀ w, w < L.lo u ∨ L.hi u ≤ w → (∀ e, e ≠ d → w ≠ wordOf (L.espAt e)) → mem' w = mem w) :
    L.Untouched t d mem mem' := by
  refine ⟨fun w h1 h2 => h w ?_ fun e _ => ?_, h _ (L.outside d u) fun e he => L.distinct (Ne.symm he)⟩
  · have := L.disjoint hu
    omega
  · have := L.outside e t
    omega

end Stacks.Untouched

theorem foldl_storeDown (ws : List (BitVec 32)) (w : ℕ) (mem : ℕ → BitVec 32) (hw : w + ws.length ≤ 2 ^ 30) :
    let r := ws.foldl storeDown (BitVec.ofNat 32 (4 * (w + ws.length)), mem)
    r.1 = BitVec.ofNat 32 (4 * w) ∧ Lies r.2 w ws.reverse ∧
      ∀ x, x < w ∨ w + ws.length ≤ x → r.2 x = mem x := by
  induction ws generalizing mem with
  | nil => exact ⟨rfl, trivial, fun _ _ => rfl⟩
  | cons v vs ih =>
    rw [List.length_cons] at hw
    have hsub : BitVec.ofNat 32 (4 * (w + (vs.length + 1))) - 4#32 = BitVec.ofNat 32 (4 * (w + vs.length)) := by
      apply BitVec.eq_of_toNat_eq
      rw [BitVec.toNat_sub, BitVec.toNat_ofNat, BitVec.toNat_ofNat, BitVec.toNat_ofNat]
      omega
    have hword : wordOf (BitVec.ofNat 32 (4 * (w + vs.length))) = w + vs.length := by
      rw [wordOf, BitVec.toNat_ofNat]
      omega
    have hcons : (v :: vs).foldl storeDown (BitVec.ofNat 32 (4 * (w + (v :: vs).length)), mem) =
        vs.foldl storeDown (BitVec.ofNat 32 (4 * (w + vs.length)), Function.update mem (w + vs.length) v) := by
      rw [List.foldl_cons, storeDown, List.length_cons, hsub, storeWord, hword]
    rw [hcons]
    obtain ⟨h1, h2, h3⟩ := ih (Function.update mem (w + vs.length) v) (by omega)
    refine ⟨h1, ?_, ?_⟩
    · rw [List.reverse_cons, Lies.append, List.length_reverse]
      refine ⟨h2, ?_, trivial⟩
      rw [h3 _ (.inr (Nat.le_refl _)), Function.update_self]
    · intro x hx
      rw [List.length_cons] at hx
      rw [h3 x (by omega), Function.update_of_ne (by omega)]

/-- Task `t` waits in `d` with the context `c`: the `Esp` field points at the frame of `c`, which is in the stack. -/
structure Stacks.Parked (L : Stacks T D) (mem : ℕ → BitVec 32) (t : T) (d : D) (c : SavedContext) : Prop where
  esp : (mem (wordOf (L.espAt d))).toNat + 24 = c.esp.toNat
  low : L.lo t ≤ wordOf (mem (wordOf (L.espAt d)))
  high : wordOf c.esp ≤ L.hi t
  frame : Lies mem (wordOf (mem (wordOf (L.espAt d)))) c.frame

theorem Stacks.Parked.congr {mem mem' : ℕ → BitVec 32} {c : SavedContext} (h : L.Parked mem t d c)
    (hu : L.Untouched t d mem mem') : L.Parked mem' t d c := by
  obtain ⟨h1, h2, h3, h4⟩ := h
  refine ⟨by rwa [hu.2], by rwa [hu.2], h3, ?_⟩
  rw [hu.2]
  refine h4.congr fun x hx hx' => hu.1 x (by omega) ?_
  simp only [SavedContext.frame, List.length_cons, List.length_nil] at hx'
  unfold wordOf at *
  omega

/-- A task that was never scheduled enters `SchedExitStub`, with interrupts enabled. -/
def Stacks.freshContext (L : Stacks T D) (t : T) : SavedContext where
  ebx := 0#32
  esi := 0#32
  edi := 0#32
  ebp := 0#32
  eflags := ⟨0x202#32, by decide⟩
  eip := L.exitStub
  esp := L.stackTop t - 8#32

theorem stackTop_sub_eight (L : Stacks T D) (t : T) : (L.stackTop t - 8#32).toNat = 4 * L.hi t - 8 := by
  have h1 := L.room t
  have h2 := L.below t
  rw [Stacks.stackTop, BitVec.toNat_sub, BitVec.toNat_ofNat, BitVec.toNat_ofNat]
  omega

/-- What `SchedInitStack` leaves: the frame of the first switch, and above it the return address and
the argument of `SchedExitStub`. -/
theorem schedInitStack_spec (L : Stacks T D) (d : D) (t : T) (entry : BitVec 32) (mem : ℕ → BitVec 32) :
    let mem' := schedInitStack (L.espAt d) L.exitStub entry (L.stackTop t) mem
    L.Parked mem' t d (L.freshContext t) ∧ mem' (L.hi t - 2) = 0#32 ∧ mem' (L.hi t - 1) = entry ∧
      ∀ w, w < L.lo t ∨ L.hi t ≤ w → w ≠ wordOf (L.espAt d) → mem' w = mem w := by
  intro mem'
  have hroom := L.room t
  have hbelow := L.below t
  have hout := L.outside d t
  obtain ⟨h1, h2, h3⟩ := foldl_storeDown
    [entry, 0#32, L.exitStub, 0x202#32, 0#32, 0#32, 0#32, 0#32] (L.hi t - 8) mem
    (by simp only [List.length_cons, List.length_nil]; omega)
  simp only [List.length_cons, List.length_nil, Nat.zero_add] at h1 h2 h3
  rw [show L.hi t - 8 + (1 + 1 + 1 + 1 + 1 + 1 + 1 + 1) = L.hi t by omega] at h1 h2 h3
  set r := [entry, 0#32, L.exitStub, 0x202#32, 0#32, 0#32, 0#32, 0#32].foldl storeDown
    (BitVec.ofNat 32 (4 * L.hi t), mem) with hr
  have hmem : mem' = Function.update r.2 (wordOf (L.espAt d)) r.1 := rfl
  have hslot : mem' (wordOf (L.espAt d)) = BitVec.ofNat 32 (4 * (L.hi t - 8)) := by
    rw [hmem, Function.update_self, h1]
  have hval : (BitVec.ofNat 32 (4 * (L.hi t - 8))).toNat = 4 * (L.hi t - 8) := by
    rw [BitVec.toNat_ofNat]
    omega
  have hword : wordOf (mem' (wordOf (L.espAt d))) = L.hi t - 8 := by
    rw [hslot, wordOf, hval]
    omega
  have hlies : Lies mem' (L.hi t - 8) ((L.freshContext t).frame ++ [0#32, entry]) := by
    rw [hmem]
    refine h2.congr fun x hx hx' => Function.update_of_ne ?_ _ _
    simp only [List.length_reverse, List.length_cons, List.length_nil] at hx'
    omega
  clear_value mem' r
  refine ⟨⟨?_, ?_, ?_, ?_⟩, ?_, ?_, ?_⟩
  · rw [hslot, hval, show (L.freshContext t).esp = L.stackTop t - 8#32 from rfl, stackTop_sub_eight]
    omega
  · rw [hword]
    omega
  · rw [show (L.freshContext t).esp = L.stackTop t - 8#32 from rfl, wordOf, stackTop_sub_eight]
    omega
  · rw [hword]
    exact (Lies.append.mp hlies).1
  · have h6 := hlies.get (i := 6) rfl
    rwa [show L.hi t - 8 + 6 = L.hi t - 2 by omega] at h6
  · have h7 := hlies.get (i := 7) rfl
    rwa [show L.hi t - 8 + 7 = L.hi t - 1 by omega] at h7
  · intro w hw hne
    rw [hmem, Function.update_of_ne hne, h3 w (by omega)]

/-- What the first half does in a call that `Ok` allows: `esp` is the saved one of the task that comes; the task that
leaves waits from now on, unless it has no descriptor to wait in. -/
theorem saveHalf_leave {old : Option D} {ret : BitVec 32} (hok : L.Ok s (.switch old d ret)) :
    let m := (s.machine.push ret).run saveHalf
    m.gpr .esp = s.machine.mem (wordOf (L.espAt d)) ∧
      (∀ w, w < L.lo s.current ∨ L.hi s.current ≤ w → (∀ e, old = some e → w ≠ wordOf (L.espAt e)) →
        m.mem w = s.machine.mem w) ∧
      ∀ e, old = some e → L.Parked m.mem s.current e { contextOf s.machine with eip := ret } ∧
        ∀ w, wordOf (s.machine.gpr .esp) ≤ w → w < L.hi s.current → m.mem w = s.machine.mem w := by
  obtain ⟨-, -, hlow, hhigh, harg1, harg2⟩ := hok
  have hbelow := L.below s.current
  have hlo : 24 ≤ (s.machine.gpr .esp).toNat := by
    unfold wordOf at hlow
    omega
  have hhi : (s.machine.gpr .esp).toNat + 4 < 2 ^ 32 := by
    unfold wordOf at hhigh
    omega
  have hadd : wordOf (s.machine.gpr .esp + 4#32) = wordOf (s.machine.gpr .esp) + 1 := by
    have : (s.machine.gpr .esp + 4#32).toNat = (s.machine.gpr .esp).toNat + 4 := by bv_omega
    unfold wordOf
    omega
  set p := s.machine.read (s.machine.gpr .esp) with hp
  have hargs : Lies s.machine.mem (wordOf (s.machine.gpr .esp)) [p, s.machine.mem (wordOf (L.espAt d))] := by
    refine ⟨rfl, ?_, trivial⟩
    rw [← hadd]
    exact harg2
  -- the place that the stack pointer is saved to is not in the frame
  have hout : wordOf p + 6 < wordOf (s.machine.gpr .esp) ∨ wordOf (s.machine.gpr .esp) + 2 ≤ wordOf p := by
    cases old with
    | none => exact .inr harg1.1
    | some e =>
      rw [show p = L.espAt e from harg1]
      have hout := L.outside e s.current
      omega
  obtain ⟨h1, h2, h3, h4⟩ := saveHalf_spec ret hlo hhi hargs hout
  refine ⟨h1, fun w hw hne => h4 w (by omega) ?_, fun e he => ?_⟩
  · cases old with
    | none =>
      obtain ⟨hp1, hp2⟩ := harg1
      omega
    | some e =>
      rw [show p = L.espAt e from harg1]
      exact hne e rfl
  · subst he
    have hesp : p = L.espAt e := harg1
    have hout := L.outside e s.current
    rw [hesp] at h2 h3 h4
    refine ⟨⟨h2, ?_, ?_, h3⟩, fun w hw hw' => h4 w (.inr hw) (by omega)⟩
    · unfold wordOf at *
      omega
    · change wordOf (s.machine.gpr .esp) ≤ L.hi s.current
      omega

theorem callSchedSwitch_eq (ret : BitVec 32) (m : Machine) :
    callSchedSwitch ret m = ((m.push ret).run saveHalf).run restoreHalf := Machine.run_append saveHalf restoreHalf _

theorem run_restoreHalf_mem (m : Machine) : (m.run restoreHalf).mem = m.mem := rfl

theorem switch_mem {old : Option D} {e : D} {ret : BitVec 32} (hok : L.Ok s (.switch old e ret)) {w : ℕ}
    (hw : w < L.lo s.current ∨ L.hi s.current ≤ w) (hne : ∀ e, old = some e → w ≠ wordOf (L.espAt e)) :
    (callSchedSwitch ret s.machine).mem w = s.machine.mem w := by
  rw [callSchedSwitch_eq, run_restoreHalf_mem]
  exact (saveHalf_leave hok).2.1 w hw hne

theorem switch_untouched {old : Option D} {e : D} {ret : BitVec 32} (hcur : s.current ≠ t) (hold : old ≠ some d)
    (hok : L.Ok s (.switch old e ret)) : L.Untouched t d s.machine.mem (callSchedSwitch ret s.machine).mem := by
  refine .of_other hcur fun w hw hne => switch_mem hok hw fun e he => hne e ?_
  rintro rfl
  exact hold he

/-- While another task runs, `t` waits in `d`, and its stack and the `Esp` field are not touched. -/
structure Stacks.Waits (L : Stacks T D) (t : T) (d : D) (s s' : Cpu T D) : Prop where
  other : s'.current ≠ t
  task : s'.task d = some t
  untouched : L.Untouched t d s.machine.mem s'.machine.mem

variable [DecidableEq D]

theorem untouched_step {e : Act T D} (hcur : s.current ≠ t) (htask : s.task d = some t) (hok : L.Ok s e)
    (hsp : e.Spares t d s) (hn : L.next s e = some s') : L.Waits t d s s' := by
  cases e with
  | compute gpr eflags eip =>
    cases hn
    exact ⟨hcur, htask, .refl t d _⟩
  | write a v =>
    cases hn
    refine ⟨hcur, htask, ?_⟩
    rcases hok with hown | ⟨hstacks, hfields⟩
    · refine .of_other hcur fun w hw _ => Function.update_of_ne ?_ _ _
      omega
    · have hstack := hstacks t
      exact ⟨fun w hw hw' => Function.update_of_ne (by omega) _ _, Function.update_of_ne (Ne.symm (hfields d)) _ _⟩
  | initStack e u entry =>
    cases hn
    obtain ⟨he, hu⟩ := hsp
    refine ⟨hcur, (Function.update_of_ne (Ne.symm he) _ _).trans htask, .of_other hu fun w hw hne => ?_⟩
    exact (schedInitStack_spec L e u entry s.machine.mem).2.2.2 w hw (hne e he)
  | reset e =>
    cases hn
    refine ⟨hcur, (Function.update_of_ne (Ne.symm hsp) _ _).trans htask, .of_other hcur fun w _ hne => ?_⟩
    exact Function.update_of_ne (hne e hsp) _ _
  | switch old e ret =>
    obtain ⟨hold, hto⟩ := hsp
    obtain ⟨u, hu, rfl⟩ := Option.map_eq_some_iff.mp hn
    refine ⟨fun hut => hto (hut ▸ hu), ?_, switch_untouched hcur hold hok⟩
    cases old with
    | none => exact htask
    | some e' => exact (Function.update_of_ne (fun h => hold (congrArg some h.symm)) _ _).trans htask

theorem untouched_leads (hcur : s.current ≠ t) (htask : s.task d = some t)
    (h : L.system.Leads (fun x e => L.Ok x e ∧ e.Spares t d x) s s') : L.Waits t d s s' := by
  refine h.invariant (I := L.Waits t d s) ?_ ⟨hcur, htask, .refl t d _⟩
  intro x e x' hx hok hn
  have hstep := untouched_step hx.other hx.task hok.1 hok.2 hn
  exact ⟨hstep.other, hstep.task, hx.untouched.trans hstep.untouched⟩

theorem switch_parked {c : SavedContext} {old : Option D} {ret : BitVec 32} (htask : s.task d = some t)
    (hp : L.Parked s.machine.mem t d c) (hok : L.Ok s (.switch old d ret)) (hn : L.next s (.switch old d ret) = some s') :
    s'.current = t ∧ contextOf s'.machine = c ∧ L.Untouched t d s.machine.mem s'.machine.mem := by
  obtain ⟨u, hu, rfl⟩ := Option.map_eq_some_iff.mp hn
  obtain rfl : t = u := Option.some.inj (htask.symm.trans hu)
  have hcur : s.current ≠ t := fun h => hok.1 (h ▸ htask)
  have hsame := switch_untouched hcur hok.2.1 hok
  refine ⟨rfl, ?_, hsame⟩
  obtain ⟨h1, -⟩ := saveHalf_leave hok
  have hp' := hp.congr hsame
  rw [callSchedSwitch_eq, run_restoreHalf_mem] at hp'
  have hslot : ((s.machine.push ret).run saveHalf).mem (wordOf (L.espAt d)) = s.machine.mem (wordOf (L.espAt d)) := hsame.2
  show contextOf (callSchedSwitch ret s.machine) = c
  rw [callSchedSwitch_eq]
  refine (restoreHalf_spec ?_ ?_).1
  · rw [h1, ← hslot]
    exact hp'.esp
  · rw [h1, ← hslot]
    exact hp'.frame

/-- Between a switch away from `t`, saved in the descriptor `d`, and the next switch to `t`, the others may run, switch,
exit and start tasks in any other descriptor. -/
theorem stack_kept {s₁ s₂ s₃ : Cpu T D} {old : Option D} {e : D} {ret back : BitVec 32} (hcur : s.current = t)
    (hout : L.Ok s (.switch (some d) e ret)) (h₁ : L.next s (.switch (some d) e ret) = some s₁)
    (hrest : L.system.Leads (fun x e => L.Ok x e ∧ e.Spares t d x) s₁ s₂)
    (hok : L.Ok s₂ (.switch old d back)) (h₃ : L.next s₂ (.switch old d back) = some s₃) :
    s₃.current = t ∧ contextOf s₃.machine = { contextOf s.machine with eip := ret } ∧
      ∀ w, wordOf (s.machine.gpr .esp) ≤ w → w < L.hi t → s₃.machine.mem w = s.machine.mem w := by
  subst hcur
  obtain ⟨u, hu, rfl⟩ := Option.map_eq_some_iff.mp h₁
  obtain ⟨hp, habove⟩ := (saveHalf_leave hout).2.2 d rfl
  have hmem : (callSchedSwitch ret s.machine).mem = ((s.machine.push ret).run saveHalf).mem := by
    rw [callSchedSwitch_eq, run_restoreHalf_mem]
  rw [← hmem] at hp habove
  have hne : u ≠ s.current := fun h => hout.1 (h ▸ hu)
  have hw := untouched_leads hne (Function.update_self _ _ _) hrest
  obtain ⟨h3, hctx, hlast⟩ := switch_parked hw.task (hp.congr hw.untouched) hok h₃
  refine ⟨h3, hctx, fun w hw' hhi => ?_⟩
  have hlow := hout.2.2.1
  rw [(hw.untouched.trans hlast).1 w (by omega) hhi]
  exact habove w hw' hhi

/-- Tasks are preserved: `t` continues behind its call with the registers, flags and stack that it had there, and
starts, the first time, in `SchedExitStub` with its own `Entry`. In between the others compute, write to their stacks,
switch, exit through a switch that saves to their own stack, and start tasks in descriptors given up; only `t` and the
descriptor that it waits in are left alone. -/
theorem context_switch_preserves (L : Stacks T D) (t : T) (d : D) {s s₁ s₂ s₃ : Cpu T D} {old : Option D}
    {back : BitVec 32} (hrest : L.system.Leads (fun x e => L.Ok x e ∧ e.Spares t d x) s₁ s₂)
    (hok : L.Ok s₂ (.switch old d back)) (hn : L.next s₂ (.switch old d back) = some s₃) :
    (∀ e ret, s.current = t → L.Ok s (.switch (some d) e ret) → L.next s (.switch (some d) e ret) = some s₁ →
      s₃.current = t ∧ s₃.machine.eip = ret ∧ s₃.machine.gpr .ebx = s.machine.gpr .ebx ∧
      s₃.machine.gpr .esi = s.machine.gpr .esi ∧ s₃.machine.gpr .edi = s.machine.gpr .edi ∧
      s₃.machine.gpr .ebp = s.machine.gpr .ebp ∧ s₃.machine.eflags = s.machine.eflags ∧
      s₃.machine.gpr .esp = s.machine.gpr .esp ∧
      ∀ w, wordOf (s.machine.gpr .esp) ≤ w → w < L.hi t → s₃.machine.mem w = s.machine.mem w) ∧
    (∀ entry, L.Ok s (.initStack d t entry) → L.next s (.initStack d t entry) = some s₁ →
      s₃.current = t ∧ s₃.machine.eip = L.exitStub ∧ s₃.machine.read (s₃.machine.gpr .esp + 4#32) = entry ∧
      s₃.machine.eflags.bits.getLsbD 9 = true ∧ s₃.machine.gpr .ebp = 0#32 ∧ s₃.machine.gpr .ebx = 0#32 ∧
      s₃.machine.gpr .esi = 0#32 ∧ s₃.machine.gpr .edi = 0#32) := by
  refine ⟨fun e ret hcur hout h1 => ?_, fun entry hinit h1 => ?_⟩
  · obtain ⟨h3, hc, hkept⟩ := stack_kept hcur hout h1 hrest hok hn
    simp only [contextOf, SavedContext.mk.injEq] at hc
    obtain ⟨hebx, hesi, hedi, hebp, hfl, heip, hesp⟩ := hc
    exact ⟨h3, heip, hebx, hesi, hedi, hebp, hfl, hesp, hkept⟩
  · cases h1
    obtain ⟨hp, -, hentry, -⟩ := schedInitStack_spec L d t entry s.machine.mem
    have hw := untouched_leads (by exact Ne.symm hinit) (by exact Function.update_self _ _ _) hrest
    obtain ⟨h3, hc, hlast⟩ := switch_parked hw.task (hp.congr hw.untouched) hok hn
    simp only [contextOf, Stacks.freshContext, SavedContext.mk.injEq] at hc
    obtain ⟨hebx, hesi, hedi, hebp, hfl, heip, hesp⟩ := hc
    refine ⟨h3, heip, ?_, by rw [hfl]; decide, hebp, hebx, hesi, hedi⟩
    have hroom := L.room t
    have hbelow := L.below t
    have htop := stackTop_sub_eight L t
    have hword : wordOf (s₃.machine.gpr .esp + 4#32) = L.hi t - 1 := by
      have hadd : (L.stackTop t - 8#32 + 4#32).toNat = 4 * L.hi t - 4 := by
        rw [BitVec.toNat_add, htop, BitVec.toNat_ofNat]
        omega
      rw [hesp, wordOf, hadd]
      omega
    rw [Machine.read, hword, (hw.untouched.trans hlast).1 _ (by omega) (by omega)]
    exact hentry

def twoStacks : Stacks (Fin 2) (Fin 2) where
  lo t := if t = 0 then 0x100 else 0x200
  hi t := if t = 0 then 0x200 else 0x300
  espAt d := if d = 0 then 0x40#32 else 0x44#32
  exitStub := 0x5000#32
  room := by decide
  below := by decide
  disjoint := by decide
  outside := by decide
  distinct := by decide

/-- Task 0 is about to start task 1, with interrupts off and its stack half full. -/
def bootCpu : Cpu (Fin 2) (Fin 2) where
  machine := ⟨fun r => if r = .esp then 0x600#32 else 0x77#32, ⟨0x2#32, by decide⟩, 0#32, fun _ => 0#32⟩
  current := 0
  task d := if d = 0 then some 0 else none

def started : Cpu (Fin 2) (Fin 2) :=
  { bootCpu with
    machine := { bootCpu.machine with
      mem := schedInitStack 0x44#32 0x5000#32 0x7000#32 (twoStacks.stackTop 1) bootCpu.machine.mem }
    task := Function.update bootCpu.task 1 (some 1) }

/-- Task 0 with the arguments `&Task0->Esp` and `Task1->Esp` on its stack. -/
def leaving : Cpu (Fin 2) (Fin 2) :=
  { started with machine := (started.machine.store 0x600#32 0x40#32).store 0x604#32 0xbe0#32 }

def entered : Cpu (Fin 2) (Fin 2) :=
  ⟨callSchedSwitch 0x1234#32 leaving.machine, 1, Function.update leaving.task 0 (some 0)⟩

/-- Task 1 changes its registers and gives up its descriptor, to call with `&ScratchEsp` and `Task0->Esp`. -/
def givesUp (eflags : Eflags) (s : Cpu (Fin 2) (Fin 2)) : Cpu (Fin 2) (Fin 2) :=
  { s with
    machine := ((((⟨fun r => if r = .esp then 0xbc0#32 else 0x99#32, eflags, 0x7010#32, s.machine.mem⟩ :
      Machine).store 0x44#32 0#32).store 0xbc0#32 0xbd0#32).store 0xbc4#32 0x5e8#32)
    task := Function.update s.task 1 none }

theorem givesUp_leads (eflags : Eflags) {s : Cpu (Fin 2) (Fin 2)} (hcur : s.current = 1) :
    twoStacks.system.Leads (fun x e => twoStacks.Ok x e ∧ e.Spares 0 0 x) s (givesUp eflags s) := by
  have hown : ∀ w, 0x200 ≤ w → w < 0x300 → twoStacks.lo s.current ≤ w ∧ w < twoStacks.hi s.current := by
    rw [hcur]
    exact fun w hlo hhi => ⟨hlo, hhi⟩
  refine .tail (e := .write 0xbc4#32 0x5e8#32)
    (.tail (e := .write 0xbc0#32 0xbd0#32)
      (.tail (e := .reset 1)
        (.tail (e := .compute (fun r => if r = .esp then 0xbc0#32 else 0x99#32) eflags 0x7010#32)
          .refl ⟨trivial, trivial⟩ rfl)
        ⟨trivial, show (1 : Fin 2) ≠ 0 by decide⟩ rfl)
      ⟨Or.inl ?_, trivial⟩ rfl)
    ⟨Or.inl ?_, trivial⟩ rfl
  · exact hown _ (by decide) (by decide)
  · exact hown _ (by decide) (by decide)

def exiting : Cpu (Fin 2) (Fin 2) := givesUp ⟨0x246#32, by decide⟩ entered

def resumed : Cpu (Fin 2) (Fin 2) := ⟨callSchedSwitch 0x7020#32 exiting.machine, 0, exiting.task⟩

theorem context_switch_preserves_two :
    (entered.machine.eip = 0x5000#32 ∧ entered.machine.read (entered.machine.gpr .esp + 4#32) = 0x7000#32 ∧
      entered.machine.eflags.bits.getLsbD 9 = true) ∧
    resumed.machine.eip = 0x1234#32 ∧ resumed.machine.gpr .ebx = 0x77#32 ∧
      resumed.machine.eflags = bootCpu.machine.eflags ∧ resumed.machine.gpr .esp = 0x600#32 := by
  have hstart : twoStacks.system.Leads (fun x e => twoStacks.Ok x e ∧ e.Spares 1 1 x) started leaving :=
    .tail (e := .write 0x604#32 0xbe0#32)
      (.tail (e := .write 0x600#32 0x40#32) .refl ⟨Or.inl (by decide), trivial⟩ rfl) ⟨Or.inl (by decide), trivial⟩ rfl
  have hok1 : twoStacks.Ok leaving (.switch (some 0) 1 0x1234#32) := by
    refine ⟨by decide, by decide, by decide +kernel, by decide +kernel, ?_, by decide +kernel⟩
    show leaving.machine.read (leaving.machine.gpr .esp) = 0x40#32
    decide +kernel
  have hn1 : twoStacks.next leaving (.switch (some 0) 1 0x1234#32) = some entered := rfl
  have hwork := givesUp_leads ⟨0x246#32, by decide⟩ (s := entered) rfl
  have hok0 : twoStacks.Ok exiting (.switch none 0 0x7020#32) := by
    exact ⟨by decide, by decide, by decide +kernel, by decide +kernel, ⟨by decide +kernel, by decide +kernel⟩,
      by decide +kernel⟩
  have hn0 : twoStacks.next exiting (.switch none 0 0x7020#32) = some resumed := rfl
  obtain ⟨-, h1, h2, h3, -⟩ := (context_switch_preserves twoStacks 1 1 (s := bootCpu) hstart hok1 hn1).2
    0x7000#32 (show (1 : Fin 2) ≠ 0 by decide) rfl
  obtain ⟨-, h4, h5, -, -, -, h6, h7, -⟩ := (context_switch_preserves twoStacks 0 0 (s := leaving) hwork hok0 hn0).1
    1 0x1234#32 rfl hok1 hn1
  exact ⟨⟨h1, h2, h3⟩, h4, h5, h6, h7⟩

end Novium.Arch
