import Novium.Lib.Runs
import Novium.Lib.X86

/-! `arch/x86_32/kernel/switch.S` and the first frame that `SchedInitStack` of
`kernel/sched.c` builds for it. Tasks run one at a time and write to their own stacks and
to shared data; a switch is the call of `SchedYield`, with `&PrevTask->Esp`, or
`&ScratchEsp` where the caller has given up its descriptor, and `NextTask->Esp` on the
stack of the task that leaves. -/

namespace Novium.Arch

open Novium.Lib Novium.Lib.X86

def schedSwitch : List Instr :=
  [.pushfl, .pushl .ebp, .pushl .ebx, .pushl .esi, .pushl .edi,
    .load 24#32 .esp .eax, .store .esp .eax, .load 28#32 .esp .esp,
    .popl .edi, .popl .esi, .popl .ebx, .popl .ebp, .popfl, .ret]

def callSchedSwitch (ret : BitVec 32) (m : Machine) : Machine := (m.push ret).run schedSwitch

def storeDown (r : BitVec 32 × (ℕ → BitVec 32)) (v : BitVec 32) : BitVec 32 × (ℕ → BitVec 32) :=
  (r.1 - 4#32, storeWord r.2 (r.1 - 4#32) v)

/-- `espAt` is `&TaskItem->Esp`, `exitStub` the address of `SchedExitStub`. -/
def schedInitStack (espAt exitStub entry stackTop : BitVec 32) (mem : ℕ → BitVec 32) : ℕ → BitVec 32 :=
  let r := [entry, 0#32, exitStub, 0x202#32, 0#32, 0#32, 0#32, 0#32].foldl storeDown (stackTop, mem)
  storeWord r.2 espAt r.1

/-- The stack of `t` is the words `lo t` up to `hi t`, the words of the `Esp` fields lie
outside every stack. -/
structure Stacks (T D : Type*) where
  lo : T → ℕ
  hi : T → ℕ
  espAt : D → BitVec 32
  exitStub : BitVec 32
  room (t : T) : lo t + 8 ≤ hi t
  below (t : T) : hi t ≤ 2 ^ 30
  disjoint {t u : T} : t ≠ u → hi t ≤ lo u ∨ hi u ≤ lo t
  outside (d : D) (t : T) : wordOf (espAt d) < lo t ∨ hi t ≤ wordOf (espAt d)
  distinct {d e : D} : d ≠ e → wordOf (espAt d) ≠ wordOf (espAt e)

/-- The processor runs on the stack of `current`, also when that task has given up its descriptor; `task` is whose
stack pointer a descriptor holds. -/
structure Cpu (T D : Type*) where
  machine : Machine
  current : T
  task : D → Option T

inductive Act (T D : Type*) where
  /-- The current task computes: its registers take any values. -/
  | compute (gpr : Reg → BitVec 32) (eflags : Eflags) (eip : BitVec 32)
  | write (a v : BitVec 32)
  | initStack (d : D) (t : T) (entry : BitVec 32)
  /-- `SchedResetTask` -/
  | reset (d : D)
  /-- `old` is the descriptor that the stack pointer is saved to, `none` stands for `ScratchEsp`. -/
  | switch (old : Option D) (d : D) (ret : BitVec 32)

variable {T D : Type*}

namespace Stacks

def stackTop (L : Stacks T D) (t : T) : BitVec 32 := BitVec.ofNat 32 (4 * L.hi t)

variable [DecidableEq D]

def next (L : Stacks T D) (s : Cpu T D) : Act T D → Option (Cpu T D)
  | .compute gpr eflags eip => some { s with machine := { s.machine with gpr := gpr, eflags := eflags, eip := eip } }
  | .write a v => some { s with machine := s.machine.store a v }
  | .initStack d t entry =>
    some { s with
      machine := { s.machine with mem := schedInitStack (L.espAt d) L.exitStub entry (L.stackTop t) s.machine.mem }
      task := Function.update s.task d (some t) }
  | .reset d => some { s with machine := s.machine.store (L.espAt d) 0#32, task := Function.update s.task d none }
  | .switch old d ret => (s.task d).map fun t =>
    ⟨callSchedSwitch ret s.machine, t, old.elim s.task fun e => Function.update s.task e (some s.current)⟩

/-- `p` is where the call saves the stack pointer: an `Esp` field, or a word of the caller's own stack above the
arguments of the call. -/
def OldEsp (L : Stacks T D) (s : Cpu T D) (p : BitVec 32) : Option D → Prop
  | some e => p = L.espAt e
  | none => wordOf (s.machine.gpr .esp) + 2 ≤ wordOf p ∧ wordOf p < L.hi s.current

/-- A task writes to its own stack, or to a word that is in no stack and is no `Esp` field; it builds the first frame of
another task. It calls `SchedSwitch` for another task in another descriptor, with both arguments on its stack and room
for the frame. -/
def Ok (L : Stacks T D) (s : Cpu T D) : Act T D → Prop
  | .compute _ _ _ => True
  | .write a _ => L.lo s.current ≤ wordOf a ∧ wordOf a < L.hi s.current ∨
      (∀ t, wordOf a < L.lo t ∨ L.hi t ≤ wordOf a) ∧ ∀ d, wordOf a ≠ wordOf (L.espAt d)
  | .initStack _ t _ => t ≠ s.current
  | .reset _ => True
  | .switch old d _ => s.task d ≠ some s.current ∧ old ≠ some d ∧
      L.lo s.current + 6 ≤ wordOf (s.machine.gpr .esp) ∧ wordOf (s.machine.gpr .esp) + 2 ≤ L.hi s.current ∧
      L.OldEsp s (s.machine.read (s.machine.gpr .esp)) old ∧
      s.machine.read (s.machine.gpr .esp + 4#32) = s.machine.read (L.espAt d)

def system (L : Stacks T D) : System (Cpu T D) (Act T D) := ⟨fun _ => True, L.next⟩

end Stacks

/-- The act neither schedules `t` nor starts it anew, and the descriptor `d` is put to no other use. -/
def Act.Spares (t : T) (d : D) (s : Cpu T D) : Act T D → Prop
  | .compute _ _ _ => True
  | .write _ _ => True
  | .initStack e u _ => e ≠ d ∧ u ≠ t
  | .reset e => e ≠ d
  | .switch old e _ => old ≠ some d ∧ s.task e ≠ some t

@[ext] structure SavedContext where
  ebx : BitVec 32
  esi : BitVec 32
  edi : BitVec 32
  ebp : BitVec 32
  eflags : Eflags
  eip : BitVec 32
  esp : BitVec 32

def contextOf (m : Machine) : SavedContext :=
  ⟨m.gpr .ebx, m.gpr .esi, m.gpr .edi, m.gpr .ebp, m.eflags, m.eip, m.gpr .esp⟩

/-- The words that the end of `SchedSwitch` takes off the stack. -/
def SavedContext.frame (c : SavedContext) : List (BitVec 32) := [c.edi, c.esi, c.ebx, c.ebp, c.eflags.bits, c.eip]

def pushes : List Instr := [.pushfl, .pushl .ebp, .pushl .ebx, .pushl .esi, .pushl .edi]

def saveHalf : List Instr := pushes ++ [.load 24#32 .esp .eax, .store .esp .eax, .load 28#32 .esp .esp]

def restoreHalf : List Instr := [.popl .edi, .popl .esi, .popl .ebx, .popl .ebp, .popfl, .ret]

theorem restoreHalf_spec {m : Machine} {c : SavedContext} (hesp : (m.gpr .esp).toNat + 24 = c.esp.toNat)
    (h : Lies m.mem (wordOf (m.gpr .esp)) c.frame) :
    contextOf (m.run restoreHalf) = c ∧ (m.run restoreHalf).mem = m.mem := by
  have hlt := c.esp.isLt
  rw [show c.frame = [c.edi, c.esi, c.ebx, c.ebp] ++ [c.eflags.bits, c.eip] from rfl, Lies.append] at h
  obtain ⟨h1, -, h3, h4, h5⟩ := Machine.run_popl [.edi, .esi, .ebx, .ebp] (m := m) (by decide) (by decide)
    rfl (by simp only [List.length_cons, List.length_nil]; omega) h.1
  set m₁ := m.run ([Reg.edi, .esi, .ebx, .ebp].map .popl) with hm₁
  obtain ⟨hedi, hesi, hebx, hebp, -⟩ : m₁.gpr .edi = c.edi ∧ m₁.gpr .esi = c.esi ∧ m₁.gpr .ebx = c.ebx ∧
      m₁.gpr .ebp = c.ebp ∧ True := by simpa using h1
  replace h3 : (m₁.gpr .esp).toNat = (m.gpr .esp).toNat + 16 := h3
  -- `popfl` and `ret` read the two words above the registers
  have hflags : m₁.read (m₁.gpr .esp) = c.eflags.bits := by
    rw [← h.2.1, Machine.read, h4]
    refine congrArg m.mem ?_
    unfold wordOf
    simp only [List.length_cons, List.length_nil]
    omega
  have heip : m₁.read (m₁.gpr .esp + 4#32) = c.eip := by
    have hadd : (m₁.gpr .esp + 4#32).toNat = (m₁.gpr .esp).toNat + 4 := by bv_omega
    rw [← h.2.2.1, Machine.read, h4]
    refine congrArg m.mem ?_
    unfold wordOf
    simp only [List.length_cons, List.length_nil]
    omega
  have hret : (m₁.gpr .esp + 4#32) + 4#32 = c.esp := by
    apply BitVec.eq_of_toNat_eq
    bv_omega
  have hrun : m.run restoreHalf = (m₁.exec .popfl).exec .ret := rfl
  clear_value m₁
  have he : (m₁.exec .popfl).gpr .esp = m₁.gpr .esp + 4#32 := m₁.setReg_gpr_self .esp _
  have hgpr : ∀ r, r ≠ .esp → ((m₁.exec .popfl).exec .ret).gpr r = m₁.gpr r := fun r hr =>
    ((m₁.exec .popfl).setReg_gpr_of_ne _ hr).trans (m₁.setReg_gpr_of_ne _ hr)
  rw [hrun]
  refine ⟨SavedContext.ext ?_ ?_ ?_ ?_ ?_ ?_ ?_, h4⟩
  · exact (hgpr .ebx (by decide)).trans hebx
  · exact (hgpr .esi (by decide)).trans hesi
  · exact (hgpr .edi (by decide)).trans hedi
  · exact (hgpr .ebp (by decide)).trans hebp
  · change m₁.eflags.load (m₁.read (m₁.gpr .esp)) = c.eflags
    rw [hflags, Eflags.load_bits]
  · change (m₁.exec .popfl).read ((m₁.exec .popfl).gpr .esp) = c.eip
    rw [he]
    exact heip
  · have hsp : ((m₁.exec .popfl).exec .ret).gpr .esp = (m₁.exec .popfl).gpr .esp + 4#32 :=
      (m₁.exec .popfl).setReg_gpr_self .esp _
    change ((m₁.exec .popfl).exec .ret).gpr .esp = c.esp
    rw [hsp, he, hret]

theorem pushes_spec {m : Machine} (ret : BitVec 32) {args : List (BitVec 32)} (hlow : 24 ≤ (m.gpr .esp).toNat)
    (hargs : Lies m.mem (wordOf (m.gpr .esp)) args) :
    Pushed 6 m ((m.push ret).run pushes) ∧
      Lies ((m.push ret).run pushes).mem (wordOf (((m.push ret).run pushes).gpr .esp))
        (({ contextOf m with eip := ret } : SavedContext).frame ++ args) := by
  have hp1 := m.push_pushed ret (by omega)
  have hl1 := Machine.push_lies ret (by omega) hargs
  set m₁ := m.push ret
  have hp2 := m₁.push_pushed m₁.eflags.image (by have := hp1.esp; omega)
  have hl2 := Machine.push_lies m₁.eflags.image (by have := hp1.esp; omega) hl1
  set m₂ := m₁.push m₁.eflags.image
  have hroom : 4 * [Reg.ebp, .ebx, .esi, .edi].length ≤ (m₂.gpr .esp).toNat := by
    have := hp1.esp
    have := hp2.esp
    simp only [List.length_cons, List.length_nil]
    omega
  obtain ⟨hp3, hl3⟩ := Machine.run_pushl [.ebp, .ebx, .esi, .edi] (by decide) hroom hl2
  rw [show pushes = .pushfl :: [Reg.ebp, .ebx, .esi, .edi].map .pushl from rfl, Machine.run_cons,
    show m₁.exec .pushfl = m₂ from rfl]
  refine ⟨(hp1.trans hp2).trans hp3, ?_⟩
  have hgpr : ∀ r, r ≠ .esp → m₂.gpr r = m.gpr r := fun r hr => (hp2.gpr r hr).trans (hp1.gpr r hr)
  have hw : ([Reg.ebp, .ebx, .esi, .edi].map m₂.gpr).reverse ++ (m₁.eflags.image :: ret :: args) =
      ({ contextOf m with eip := ret } : SavedContext).frame ++ args := by
    simp [SavedContext.frame, contextOf, hgpr, Eflags.image_eq, hp1.eflags]
  rw [← hw]
  exact hl3

theorem saveHalf_spec {m : Machine} (ret : BitVec 32) {oldEsp newEsp : BitVec 32} (hlow : 24 ≤ (m.gpr .esp).toNat)
    (hhigh : (m.gpr .esp).toNat + 4 < 2 ^ 32)
    (hargs : Lies m.mem (wordOf (m.gpr .esp)) [oldEsp, newEsp])
    (hout : wordOf oldEsp + 6 < wordOf (m.gpr .esp) ∨ wordOf (m.gpr .esp) + 2 ≤ wordOf oldEsp) :
    let m' := (m.push ret).run saveHalf
    m'.gpr .esp = newEsp ∧ (m'.mem (wordOf oldEsp)).toNat + 24 = (m.gpr .esp).toNat ∧
      Lies m'.mem (wordOf (m'.mem (wordOf oldEsp))) ({ contextOf m with eip := ret } : SavedContext).frame ∧
      ∀ w, w + 6 < wordOf (m.gpr .esp) ∨ wordOf (m.gpr .esp) ≤ w → w ≠ wordOf oldEsp → m'.mem w = m.mem w := by
  intro m'
  obtain ⟨hp, hframe⟩ := pushes_spec ret hlow hargs
  set m₃ := (m.push ret).run pushes
  have hesp := hp.esp
  have hword := hp.word
  have hold : m₃.read (m₃.gpr .esp + 24#32) = oldEsp := by
    have hadd : (m₃.gpr .esp + 24#32).toNat = (m₃.gpr .esp).toNat + 24 := by bv_omega
    rw [Machine.read, show wordOf (m₃.gpr .esp + 24#32) = wordOf (m₃.gpr .esp) + 6 by unfold wordOf; omega]
    exact hframe.get rfl
  obtain ⟨hnew, hne⟩ : m₃.mem (wordOf (m₃.gpr .esp + 28#32)) = newEsp ∧
      wordOf (m₃.gpr .esp + 28#32) ≠ wordOf oldEsp := by
    have hadd : (m₃.gpr .esp + 28#32).toNat = (m₃.gpr .esp).toNat + 28 := by bv_omega
    rw [show wordOf (m₃.gpr .esp + 28#32) = wordOf (m₃.gpr .esp) + 7 by unfold wordOf; omega]
    exact ⟨hframe.get rfl, by omega⟩
  -- `eax` holds the first argument when `esp` is stored, `esp` is still that of the caller
  have heax : (m₃.exec (.load 24#32 .esp .eax)).gpr .eax = oldEsp := (m₃.setReg_gpr_self .eax _).trans hold
  have hkeep : (m₃.exec (.load 24#32 .esp .eax)).gpr .esp = m₃.gpr .esp := m₃.setReg_gpr_of_ne _ (by decide)
  have hmem : m'.mem = Function.update m₃.mem (wordOf oldEsp) (m₃.gpr .esp) := by
    rw [← heax, ← hkeep]
    rfl
  have hsp : m'.gpr .esp = m'.mem (wordOf (m₃.gpr .esp + 28#32)) := by
    rw [← hkeep]
    exact Machine.setReg_gpr_self _ .esp _
  have hslot : m'.mem (wordOf oldEsp) = m₃.gpr .esp := by rw [hmem, Function.update_self]
  refine ⟨?_, ?_, ?_, ?_⟩
  · rw [hsp, hmem, Function.update_of_ne hne, hnew]
  · rw [hslot]
    omega
  · rw [hslot, hmem]
    refine (Lies.append.mp hframe).1.congr fun x hx hx' => Function.update_of_ne ?_ _ _
    simp only [SavedContext.frame, List.length_cons, List.length_nil] at hx'
    omega
  · intro w hw hne
    rw [hmem, Function.update_of_ne hne]
    exact hp.mem w hw

end Novium.Arch
