import Novium.Input.Getchar
import Novium.Input.Keyboard
import Novium.Shell.Line

/-! `shell_task` between the keyboard and the console. A scancode may come in at any point, between the accesses of
`keyboard_pop` as between the statements of the task; nothing else writes to the console. -/

namespace Novium.Shell

open Novium.Lib Novium.Input Novium.Console

def greeting : List UInt8 :=
  ['S', 'y', 's', 't', 'e', 'm', ' ', 'r', 'e', 'a', 'd', 'y', '.', ' ', 'Y', 'o', 'u', ' ', 'c', 'a', 'n', ' ', 'n', 'o',
    'w', ' ', 't', 'y', 'p', 'e', ' ', 'i', 'n', 's', 'i', 'd', 'e', ' ', 't', 'h', 'e', ' ', 'c', 'o', 'n', 's', 'o', 'l',
    'e', ':', '\n'].map fun c => UInt8.ofNat c.toNat

inductive ShellPc where
  | greet
  | prompt
  /-- inside `keyboard_getchar` -/
  | getchar
  | test (key : ℤ)
  | yield
  | echoOn (key : ℤ)
  | putchar (key : ℤ)
  | echoOff (key : ℤ)
  | last (key : ℤ)
  deriving DecidableEq, Repr

structure Terminal where
  keyboard : Keyboard
  shiftHeld : Bool
  console : Console.State
  pc : ShellPc

def keyOf (c : Char) : ℤ := if c.toNat < 128 then c.toNat else c.toNat - 256

def charOf (key : ℤ) : UInt8 := UInt8.ofNat (key % 256).toNat

/-- One access of `keyboard_pop`; a scancode that it returns is decoded at once. The `cpu_hlt` on an empty ring is
skipped: a halted task goes on with the next interrupt, and tries again. -/
def Terminal.getchar (s : Terminal) : Terminal :=
  let s' := { s with keyboard := keyboardPop s.keyboard }
  match s.keyboard.pc with
  | .advance sc =>
    match decode s.shiftHeld sc with
    | (held, some key) => { s' with shiftHeld := held, pc := .test (keyOf key) }
    | (held, none) => { s' with shiftHeld := held }
  | _ => s'

/-- A call of the console, three deep at most. -/
def Terminal.call (op : Op) (pc : ShellPc) (s : Terminal) : Option Terminal :=
  (op.run 3 s.console).map fun console => { s with console := console, pc := pc }

def shellTask (s : Terminal) : Option Terminal :=
  match s.pc with
  | .greet => s.call (.kprintf greeting ⟨fun _ => 0, fun _ => []⟩) .prompt
  | .prompt => s.call .prompt .getchar
  | .getchar => some s.getchar
  | .test key => some { s with pc := if key < 0 then .yield else .echoOn key }
  | .yield => some { s with pc := .getchar }
  | .echoOn key => s.call (.setEcho true) (.putchar key)
  | .putchar key => s.call (.putchar (charOf key)) (.echoOff key)
  | .echoOff key => s.call (.setEcho false) (.last key)
  | .last key => some { s with pc := if key = 10 then .prompt else .getchar }

inductive ShellEvent where
  /-- The interrupt, with the scancode that the controller holds. -/
  | irq (sc : UInt8)
  | step

/-- The system behind the console calls `ops` that the kernel makes before the shell runs. -/
def shellSystem (boot : Console.State) (ops : List Op) : System Terminal ShellEvent where
  init s := ops.foldlM (Op.run 3) (opened boot) = some s.console ∧ s.console.consoleLineEcho = false ∧
    keySystem.init s.keyboard ∧ s.shiftHeld = false ∧ s.pc = .greet
  next s
    | .irq sc => some { s with keyboard := keyIrq sc s.keyboard }
    | .step => shellTask s

def keysFrom (shiftHeld : Bool) : List UInt8 → List Char
  | [] => []
  | sc :: scs => (decode shiftHeld sc).2.toList ++ keysFrom (decode shiftHeld sc).1 scs

def shiftAfter (shiftHeld : Bool) (scs : List UInt8) : Bool := scs.foldl (fun f sc => (decode f sc).1) shiftHeld

theorem keysFrom_append (f : Bool) (xs ys : List UInt8) :
    keysFrom f (xs ++ ys) = keysFrom f xs ++ keysFrom (shiftAfter f xs) ys := by
  induction xs generalizing f with
  | nil => rfl
  | cons x xs ih =>
    rw [List.cons_append, keysFrom, ih, keysFrom, List.append_assoc]
    rfl

theorem getchars_keysFrom (scs : List UInt8) (f : Bool) {n : ℕ} (hn : scs.length ≤ n) :
    getchars n f (scs.map some) = keysFrom f scs := by
  induction scs generalizing f n with
  | nil => cases n <;> rfl
  | cons sc scs ih =>
    obtain ⟨m, rfl⟩ : ∃ m, n = m + 1 := ⟨n - 1, by rw [List.length_cons] at hn; omega⟩
    rw [List.length_cons] at hn
    obtain ⟨⟨held, key⟩, hdecode⟩ : ∃ d, decode f sc = d := ⟨_, rfl⟩
    rw [List.map_cons, keysFrom, hdecode]
    cases key with
    | some key =>
      simp only [getchars, keyboardGetchar, hdecode]
      rw [ih held (by omega)]
      rfl
    | none =>
      have hskip : getchars (m + 1) f (some sc :: scs.map some) = getchars (m + 1) held (scs.map some) := by
        simp only [getchars, keyboardGetchar, hdecode]
      rw [hskip, ih held (by omega)]
      rfl

/-- The bytes that the task echoes for the scancodes it has popped. -/
def keysOf (scs : List UInt8) : List UInt8 := (typed (scs.map some)).map fun c => UInt8.ofNat c.toNat

theorem keysOf_snoc (scs : List UInt8) (sc : UInt8) :
    keysOf (scs ++ [sc]) =
      keysOf scs ++ (decode (shiftAfter false scs) sc).2.toList.map fun c => UInt8.ofNat c.toNat := by
  have htyped : ∀ scs : List UInt8, typed (scs.map some) = keysFrom false scs := fun scs => by
    rw [typed, getchars_keysFrom scs false (by rw [List.length_map])]
  rw [keysOf, keysOf, htyped, htyped, keysFrom_append, List.map_append, keysFrom, keysFrom, List.append_nil]

theorem decode_key {f held : Bool} {sc : UInt8} {key : Char} (h : decode f sc = (held, some key)) : key.toNat < 128 := by
  have hall : ∀ f : Bool, ∀ i : Fin 256, (decode f (UInt8.ofNat i)).2.all (·.toNat < 128) = true := by decide +kernel
  have hsc : UInt8.ofNat sc.toNat = sc := UInt8.ofNat_toNat
  have hkey := hall f ⟨sc.toNat, sc.toNat_lt⟩
  rw [hsc, h] at hkey
  exact of_decide_eq_true hkey

theorem charOf_nat {k : UInt8} : charOf (k.toNat : ℤ) = k := by
  have hk := k.toNat_lt
  rw [charOf, show (k.toNat : ℤ) % 256 = ((k.toNat : ℕ) : ℤ) by omega, Int.toNat_natCast, UInt8.ofNat_toNat]

/-- The sheet behind the first prompt and the given keys. -/
def typedSheet (start : Sheet) (keys : List UInt8) : Sheet := keys.foldl typeKey (start.putAll greeting).setPrompt

theorem typedSheet_append (start : Sheet) (keys more : List UInt8) :
    typedSheet start (keys ++ more) = more.foldl typeKey (typedSheet start keys) := List.foldl_append

/-- The sheet that the screen shows where the task stands with the keys it has got so far. -/
inductive OnScreen (start : Sheet) : ShellPc → List UInt8 → Sheet → Prop
  | greet : OnScreen start .greet [] start
  | first : OnScreen start .prompt [] (start.putAll greeting)
  | again (keys : List UInt8) : OnScreen start .prompt (keys ++ [newline])
      ([Op.setEcho true, .putchar newline, .setEcho false].foldl Op.follow (typedSheet start keys))
  | getchar (keys : List UInt8) : OnScreen start .getchar keys (typedSheet start keys)
  | test (keys : List UInt8) (k : UInt8) : OnScreen start (.test k.toNat) (keys ++ [k]) (typedSheet start keys)
  | echoOn (keys : List UInt8) (k : UInt8) : OnScreen start (.echoOn k.toNat) (keys ++ [k]) (typedSheet start keys)
  | putchar (keys : List UInt8) (k : UInt8) : OnScreen start (.putchar k.toNat) (keys ++ [k])
      ([Op.setEcho true].foldl Op.follow (typedSheet start keys))
  | echoOff (keys : List UInt8) (k : UInt8) : OnScreen start (.echoOff k.toNat) (keys ++ [k])
      ([Op.setEcho true, .putchar k].foldl Op.follow (typedSheet start keys))
  | last (keys : List UInt8) (k : UInt8) : OnScreen start (.last k.toNat) (keys ++ [k])
      ([Op.setEcho true, .putchar k, .setEcho false].foldl Op.follow (typedSheet start keys))

structure ShellInv (start : Sheet) (s : Terminal) : Prop where
  keyboard : KeyInv s.keyboard
  flag : s.shiftHeld = shiftAfter false s.keyboard.returned
  /-- The task is in `keyboard_pop` inside `keyboard_getchar` only. -/
  idle : s.pc ≠ .getchar → s.keyboard.pc = .compare
  screen : ∃ r, OnScreen start s.pc (keysOf s.keyboard.returned) r ∧ Shows s.console r

/-- How far the task is from waiting for a key, apart from the scancodes in the ring. -/
def ShellPc.rank (popping : PopPc) : ShellPc → ℕ
  | .test _ => 16
  | .echoOn _ => 15
  | .putchar _ => 14
  | .echoOff _ => 13
  | .last _ | .greet => 12
  | .prompt => 11
  | .yield => 10
  | .getchar =>
    match popping with
    | .compare => 9
    | .read => 8
    | .advance _ => 7

def Terminal.rank (s : Terminal) : ℕ := 10 * s.keyboard.ring.count + s.pc.rank s.keyboard.pc

/-- A step that accepts nothing and brings the task nearer to waiting. -/
structure Progress (start : Sheet) (s s' : Terminal) : Prop where
  inv : ShellInv start s'
  accepted : s'.keyboard.accepted = s.keyboard.accepted
  nearer : s'.rank < s.rank

section

variable {start : Sheet} {boot : Console.State} {ops : List Op} {s s' : Terminal}

theorem ShellInv.irq (h : ShellInv start s) (sc : UInt8) :
    ShellInv start { s with keyboard := keyIrq sc s.keyboard } :=
  ⟨h.keyboard.irq sc, h.flag, h.idle, h.screen⟩

theorem ShellInv.statement {pc : ShellPc} {console : Console.State} {r : Sheet} (h : ShellInv start s)
    (hpc : s.pc ≠ .getchar) (hnear : pc.rank .compare < s.pc.rank .compare)
    (hnext : OnScreen start pc (keysOf s.keyboard.returned) r) (hshows : Shows console r) :
    Progress start s { s with console := console, pc := pc } where
  inv := ⟨h.keyboard, h.flag, fun _ => h.idle hpc, r, hnext, hshows⟩
  accepted := rfl
  nearer := by
    simp only [Terminal.rank, h.idle hpc]
    omega

theorem ShellInv.call {r : Sheet} (h : ShellInv start s) (op : Op) (pc : ShellPc) (hpc : s.pc ≠ .getchar)
    (hnear : pc.rank .compare < s.pc.rank .compare) (hr : Shows s.console r)
    (hnext : OnScreen start pc (keysOf s.keyboard.returned) (op.follow r)) :
    ∃ s', s.call op pc = some s' ∧ Progress start s s' := by
  obtain ⟨console, hrun, hshows⟩ := hr.run 0 op
  refine ⟨{ s with console := console, pc := pc }, ?_, h.statement hpc hnear hnext hshows⟩
  rw [Terminal.call, hrun]
  rfl

theorem keyboardPop_accepted (k : Keyboard) : (keyboardPop k).accepted = k.accepted := by
  unfold keyboardPop
  split
  · split_ifs <;> rfl
  · rfl
  · rfl

theorem ShellInv.access (h : ShellInv start s) (hpc : s.pc = .getchar) (hread : ∀ sc, s.keyboard.pc ≠ .advance sc) :
    s.getchar = { s with keyboard := keyboardPop s.keyboard } ∧ ShellInv start s.getchar := by
  have hsame : (keyboardPop s.keyboard).returned = s.keyboard.returned := by
    unfold keyboardPop
    cases hat : s.keyboard.pc with
    | compare => simp only; split_ifs <;> rfl
    | read => rfl
    | advance sc => exact absurd hat (hread sc)
  have hstep : s.getchar = { s with keyboard := keyboardPop s.keyboard } := by
    unfold Terminal.getchar
    cases hat : s.keyboard.pc with
    | compare | read => rfl
    | advance sc => exact absurd hat (hread sc)
  obtain ⟨r, hr, hshows⟩ := h.screen
  refine ⟨hstep, ?_⟩
  rw [hstep]
  refine ⟨h.keyboard.pop, ?_, fun hne => absurd hpc hne, r, ?_, hshows⟩
  · rw [hsame]
    exact h.flag
  · rw [hsame]
    exact hr

/-- A scancode that `keyboard_pop` returns is a key, which the task takes on, or is none, and the task asks again. -/
theorem ShellInv.scancode {sc : UInt8} (h : ShellInv start s) (hpc : s.pc = .getchar) (hread : s.keyboard.pc = .advance sc) :
    ShellInv start s.getchar ∧ s.getchar.keyboard = keyboardPop s.keyboard ∧
      (s.getchar.pc = .getchar ∨ ∃ key, s.getchar.pc = .test key) := by
  have hpop : (keyboardPop s.keyboard).returned = s.keyboard.returned ++ [sc] := by rw [keyboardPop, hread]
  have hidle : (keyboardPop s.keyboard).pc = .compare := by rw [keyboardPop, hread]
  obtain ⟨r, hr, hshows⟩ := h.screen
  rw [hpc] at hr
  obtain ⟨⟩ := hr
  have hkeys := keysOf_snoc s.keyboard.returned sc
  have hshift : shiftAfter false (s.keyboard.returned ++ [sc]) = (decode s.shiftHeld sc).1 := by
    rw [shiftAfter, List.foldl_append, h.flag]
    rfl
  rw [← h.flag] at hkeys
  obtain ⟨⟨held, key⟩, hdecode⟩ : ∃ d, decode s.shiftHeld sc = d := ⟨_, rfl⟩
  rw [hdecode] at hkeys hshift
  cases key with
  | none =>
    have hstep : s.getchar = { s with keyboard := keyboardPop s.keyboard, shiftHeld := held } := by
      simp only [Terminal.getchar, hread, hdecode]
    rw [hstep]
    refine ⟨⟨h.keyboard.pop, ?_, fun _ => hidle, _, ?_, hshows⟩, rfl, .inl hpc⟩
    · rw [hpop]
      exact hshift.symm
    · simp only [hpop, hpc, hkeys, Option.toList_none, List.map_nil, List.append_nil]
      exact .getchar _
  | some key =>
    have hstep : s.getchar =
        { s with keyboard := keyboardPop s.keyboard, shiftHeld := held, pc := .test (keyOf key) } := by
      simp only [Terminal.getchar, hread, hdecode]
    rw [hstep]
    refine ⟨⟨h.keyboard.pop, ?_, fun _ => hidle, _, ?_, hshows⟩, rfl, .inr ⟨_, rfl⟩⟩
    · rw [hpop]
      exact hshift.symm
    · have hkey : keyOf key = ((UInt8.ofNat key.toNat).toNat : ℤ) := by
        have hascii := decode_key hdecode
        rw [keyOf, if_pos hascii, UInt8.toNat_ofNat', Nat.mod_eq_of_lt (by omega)]
      simp only [hpop, hkeys, hkey, Option.toList_some, List.map_cons, List.map_nil]
      exact .test _ _

/-- The task waits for a key, and has got all there are. -/
def Terminal.Waits (s : Terminal) : Prop :=
  s.pc = .getchar ∧ s.keyboard.pc = .compare ∧ s.keyboard.ring.tail = s.keyboard.ring.head

theorem ShellInv.getchar (h : ShellInv start s) (hpc : s.pc = .getchar) :
    s.Waits ∧ s.getchar = s ∨ Progress start s s.getchar := by
  cases hat : s.keyboard.pc with
  | compare =>
    obtain ⟨hstep, hinv⟩ := h.access hpc (fun sc => by rw [hat]; exact fun h => by cases h)
    by_cases hempty : s.keyboard.ring.tail = s.keyboard.ring.head
    · refine .inl ⟨⟨hpc, hat, hempty⟩, ?_⟩
      rw [hstep, keyboardPop, hat]
      simp only [if_pos hempty]
    · refine .inr ⟨hinv, by rw [hstep]; exact keyboardPop_accepted _, ?_⟩
      rw [hstep]
      simp only [Terminal.rank, keyboardPop, hat, if_neg hempty, hpc, ShellPc.rank]
      omega
  | read =>
    obtain ⟨hstep, hinv⟩ := h.access hpc (fun sc => by rw [hat]; exact fun h => by cases h)
    refine .inr ⟨hinv, by rw [hstep]; exact keyboardPop_accepted _, ?_⟩
    rw [hstep]
    simp only [Terminal.rank, keyboardPop, hat, hpc, ShellPc.rank]
    omega
  | advance sc =>
    obtain ⟨hinv, hkeyboard, hnext⟩ := h.scancode hpc hat
    refine .inr ⟨hinv, by rw [hkeyboard]; exact keyboardPop_accepted _, ?_⟩
    have hne := h.keyboard.nonempty (by rw [hat]; exact fun h => by cases h)
    have hcount : s.keyboard.ring.count = s.keyboard.ring.advance.count + 1 := by
      have hfront := congrArg List.length (advance_contents h.keyboard.head h.keyboard.tail hne)
      rwa [List.length_cons, contents_length, contents_length] at hfront
    have hpop : keyboardPop s.keyboard = { s.keyboard with
        ring := s.keyboard.ring.advance, pc := .compare, returned := s.keyboard.returned ++ [sc] } := by
      rw [keyboardPop, hat]
    rw [Terminal.rank, Terminal.rank, hkeyboard, hpop, hcount, hpc, hat]
    obtain hsame | ⟨key, hkey⟩ := hnext
    · rw [hsame]
      simp only [ShellPc.rank]
      omega
    · rw [hkey]
      simp only [ShellPc.rank]
      omega

theorem greeting_text : kprintfText ⟨fun _ => 0, fun _ => []⟩ false 0 greeting = greeting := by decide

theorem typedSheet_key (start : Sheet) (keys : List UInt8) {k : UInt8} (hk : k ≠ newline) :
    typedSheet start (keys ++ [k]) =
      [Op.setEcho true, .putchar k, .setEcho false].foldl Op.follow (typedSheet start keys) := by
  rw [typedSheet_append, List.foldl_cons, typeKey, keyCalls, if_neg hk, List.append_nil]
  rfl

theorem typedSheet_newline (start : Sheet) (keys : List UInt8) :
    typedSheet start (keys ++ [newline]) =
      ([Op.setEcho true, .putchar newline, .setEcho false].foldl Op.follow (typedSheet start keys)).setPrompt := by
  rw [typedSheet_append, List.foldl_cons, typeKey, keyCalls, if_pos rfl, List.foldl_append]
  rfl

theorem ShellInv.step (h : ShellInv start s) :
    ∃ s', shellTask s = some s' ∧ (s.Waits ∧ s' = s ∨ Progress start s s') := by
  obtain ⟨r, hr, hshows⟩ := h.screen
  unfold shellTask
  generalize hkeys : keysOf s.keyboard.returned = keys at hr
  generalize hat : s.pc = pc at hr
  cases hr with
  | greet =>
    obtain ⟨s', hcall, hprog⟩ := h.call (.kprintf greeting ⟨fun _ => 0, fun _ => []⟩) .prompt (by simp [hat])
      (by simp [hat, ShellPc.rank]) hshows (by rw [hkeys, Op.follow, greeting_text]; exact .first)
    exact ⟨s', hcall, .inr hprog⟩
  | first =>
    obtain ⟨s', hcall, hprog⟩ := h.call .prompt .getchar (by simp [hat]) (by simp [hat, ShellPc.rank]) hshows
      (by rw [hkeys]; exact .getchar [])
    exact ⟨s', hcall, .inr hprog⟩
  | again keys =>
    obtain ⟨s', hcall, hprog⟩ := h.call .prompt .getchar (by simp [hat]) (by simp [hat, ShellPc.rank]) hshows
      (by rw [hkeys, Op.follow, ← typedSheet_newline]; exact .getchar _)
    exact ⟨s', hcall, .inr hprog⟩
  | getchar =>
    obtain ⟨hwaits, hsame⟩ | hprog := h.getchar hat
    · exact ⟨s, congrArg some hsame, .inl ⟨hwaits, rfl⟩⟩
    · exact ⟨_, rfl, .inr hprog⟩
  | test keys k =>
    have hsign : ¬(k.toNat : ℤ) < 0 := by omega
    simp only [if_neg hsign]
    exact ⟨_, rfl, .inr (h.statement (by simp [hat]) (by simp [hat, ShellPc.rank]) (by rw [hkeys]; exact .echoOn ..)
      hshows)⟩
  | echoOn keys k =>
    obtain ⟨s', hcall, hprog⟩ := h.call (.setEcho true) (.putchar k.toNat) (by simp [hat]) (by simp [hat, ShellPc.rank])
      hshows (by rw [hkeys]; exact .putchar ..)
    exact ⟨s', hcall, .inr hprog⟩
  | putchar keys k =>
    obtain ⟨s', hcall, hprog⟩ := h.call (.putchar (charOf k.toNat)) (.echoOff k.toNat) (by simp [hat])
      (by simp [hat, ShellPc.rank]) hshows (by rw [hkeys, charOf_nat]; exact .echoOff ..)
    exact ⟨s', hcall, .inr hprog⟩
  | echoOff keys k =>
    obtain ⟨s', hcall, hprog⟩ := h.call (.setEcho false) (.last k.toNat) (by simp [hat]) (by simp [hat, ShellPc.rank])
      hshows (by rw [hkeys]; exact .last ..)
    exact ⟨s', hcall, .inr hprog⟩
  | last keys k =>
    have henter : (k.toNat : ℤ) = 10 ↔ k = newline := by
      rw [← UInt8.toNat_inj]
      exact Int.natCast_inj (n := 10)
    by_cases hk : k = newline
    · subst hk
      simp only [if_pos (henter.mpr rfl)]
      exact ⟨_, rfl, .inr (h.statement (by simp [hat]) (by simp [hat, ShellPc.rank]) (by rw [hkeys]; exact .again _)
        hshows)⟩
    · simp only [if_neg (henter.not.mpr hk)]
      exact ⟨_, rfl, .inr (h.statement (by simp [hat]) (by simp [hat, ShellPc.rank])
        (by rw [hkeys, ← typedSheet_key start keys hk]; exact .getchar _) hshows)⟩

def started (boot : Console.State) (ops : List Op) : Sheet := ops.foldl Op.follow (Sheet.fresh boot.consoleLineEcho)

theorem ShellInv.init (h : (shellSystem boot ops).init s) : ShellInv (started boot ops) s := by
  obtain ⟨hops, -, hkey, hshift, hpc⟩ := h
  obtain ⟨buf, hkeyboard⟩ := hkey
  obtain ⟨console, hrun, hshows⟩ := (opened_shows boot).runs 0 ops
  obtain rfl : console = s.console := Option.some.inj (hrun.symm.trans hops)
  have hreturned : s.keyboard.returned = [] := by rw [hkeyboard]
  refine ⟨key_inv (.init ⟨buf, hkeyboard⟩), ?_, fun _ => by rw [hkeyboard], started boot ops, ?_, hshows⟩
  · rw [hreturned, hshift]
    rfl
  · rw [hreturned, hpc]
    exact .greet

theorem ShellInv.next {e : ShellEvent} (h : ShellInv start s) (hn : (shellSystem boot ops).next s e = some s') :
    ShellInv start s' := by
  cases e with
  | irq sc =>
    cases hn
    exact h.irq sc
  | step =>
    obtain ⟨s₁, hstep, hnext⟩ := h.step
    obtain rfl : s₁ = s' := Option.some.inj (hstep.symm.trans hn)
    obtain ⟨-, rfl⟩ | hprog := hnext
    · exact h
    · exact hprog.inv

theorem shell_inv (h : (shellSystem boot ops).Reachable s) : ShellInv (started boot ops) s :=
  h.invariant (fun _ => ShellInv.init) fun _ _ _ hs hn => hs.next hn

theorem ShellInv.window (h : ShellInv start s) (hpc : s.pc = .getchar) :
    Window s.console (typedSheet start (keysOf s.keyboard.returned)) := by
  obtain ⟨r, hr, hshows⟩ := h.screen
  rw [hpc] at hr
  obtain ⟨⟩ := hr
  exact hshows.toWindow

theorem ShellInv.settles (h : ShellInv start s) {m : ℕ} (hm : s.rank ≤ m) :
    ∃ n ≤ m, ∃ s', (shellSystem boot ops).runIf (fun _ _ => True) s (List.replicate n .step) = some s' ∧ s'.Waits ∧
      ShellInv start s' ∧ s'.keyboard.accepted = s.keyboard.accepted := by
  induction m generalizing s with
  | zero =>
    obtain ⟨s₁, -, hnext⟩ := h.step
    obtain ⟨hwaits, -⟩ | hprog := hnext
    · exact ⟨0, le_rfl, s, rfl, hwaits, h, rfl⟩
    · exact absurd hprog.nearer (by omega)
  | succ m ih =>
    obtain ⟨s₁, hstep, hnext⟩ := h.step
    obtain ⟨hwaits, -⟩ | hprog := hnext
    · exact ⟨0, Nat.zero_le _, s, rfl, hwaits, h, rfl⟩
    · have hnear := hprog.nearer
      obtain ⟨n, hn, s', hrun, hwaits, hinv, haccepted⟩ := ih hprog.inv (by omega)
      refine ⟨n + 1, by omega, s', ?_, hwaits, hinv, haccepted.trans hprog.accepted⟩
      have hone : (shellSystem boot ops).next s .step = some s₁ := hstep
      rw [List.replicate_succ, System.runIf, if_pos trivial, hone]
      exact hrun

theorem ShellInv.all_returned (h : ShellInv start s) (hwaits : s.Waits) : s.keyboard.returned = s.keyboard.accepted := by
  obtain ⟨-, -, hempty⟩ := hwaits
  have hnone : s.keyboard.ring.contents = [] := List.length_eq_zero_iff.mp
    ((contents_length _).trans ((count_eq_zero h.keyboard.head h.keyboard.tail).mpr hempty))
  rw [h.keyboard.fifo, hnone, List.append_nil]

theorem ShellInv.takes (h : ShellInv start s) (hwaits : s.Waits) (sc : UInt8) :
    ∃ s', (shellSystem boot ops).Leads (fun _ _ => True) s s' ∧ ShellInv start s' ∧ s'.Waits ∧
      s'.keyboard.returned = s.keyboard.returned ++ [sc] := by
  have hroom : s.keyboard.ring.next ≠ s.keyboard.ring.tail := fun hfull => by
    have hcount := (next_eq_tail h.keyboard.head h.keyboard.tail).mp hfull
    rw [(count_eq_zero h.keyboard.head h.keyboard.tail).mpr hwaits.2.2] at hcount
    cases hcount
  obtain ⟨n, -, s', hrun, hwaits', hinv, haccepted⟩ := (h.irq sc).settles le_rfl
  have hone : (shellSystem boot ops).Leads (fun _ _ => True) s { s with keyboard := keyIrq sc s.keyboard } :=
    .tail (e := .irq sc) .refl trivial rfl
  refine ⟨s', hone.runIf hrun, hinv, hwaits', ?_⟩
  rw [hinv.all_returned hwaits', haccepted, h.all_returned hwaits]
  exact if_pos hroom

/-- The keyboard buffer and the screen zeroed. -/
def bootConsole : Console.State := ⟨⟨fun _ => 0, false⟩, 0, 0, false, 0, fun _ => 0⟩

def bootTerminal : Terminal := ⟨bootKeyboard, false, opened bootConsole, .greet⟩

theorem bootTerminal_init : (shellSystem bootConsole []).init bootTerminal := ⟨rfl, rfl, ⟨_, rfl⟩, rfl, rfl⟩

theorem exists_waiting : ∃ s, (shellSystem bootConsole []).Reachable s ∧ s.Waits ∧ s.keyboard.returned = [] := by
  obtain ⟨n, -, s, hrun, hwaits, hinv, haccepted⟩ := (ShellInv.init bootTerminal_init).settles le_rfl
  exact ⟨s, .runIf (.init bootTerminal_init) hrun, hwaits, (hinv.all_returned hwaits).trans haccepted⟩

/-- However the interrupts fall: the task never stops and never takes the branch for a negative key, and whenever it asks
for a key, the screen is the window of the sheet that the greeting, the prompt and the keys of the scancodes popped so far
leave. The popped ones are the accepted ones in their order, up to those in the ring. -/
theorem shell_shows_keys (h : (shellSystem boot ops).Reachable s) :
    (∀ e, ∃ s', (shellSystem boot ops).next s e = some s') ∧ s.pc ≠ .yield ∧
      s.keyboard.accepted = s.keyboard.returned ++ s.keyboard.ring.contents ∧
      (s.pc = .getchar → Window s.console (typedSheet (started boot ops) (keysOf s.keyboard.returned))) := by
  have hinv := shell_inv h
  obtain ⟨r, hr, hshows⟩ := hinv.screen
  refine ⟨fun e => ?_, fun hpc => ?_, hinv.keyboard.fifo, hinv.window⟩
  · cases e with
    | irq sc => exact ⟨_, rfl⟩
    | step =>
      obtain ⟨s', hstep, -⟩ := hinv.step
      exact ⟨s', hstep⟩
  · rw [hpc] at hr
    cases hr

/-- With the letters h and i typed. -/
theorem shell_shows_keys_hi : ∃ s : Terminal, s.keyboard.returned = [0x23, 0x17] ∧
    Window s.console (typedSheet (started bootConsole []) [0x68, 0x69]) := by
  obtain ⟨s₀, h₀, hwaits₀, hnone⟩ := exists_waiting
  obtain ⟨s₁, hlead₁, hinv₁, hwaits₁, hone⟩ := (shell_inv h₀).takes hwaits₀ 0x23
  obtain ⟨s₂, hlead₂, -, hwaits₂, htwo⟩ := hinv₁.takes hwaits₁ 0x17
  have hreturned : s₂.keyboard.returned = [0x23, 0x17] := by rw [htwo, hone, hnone]; rfl
  have hwindow := (shell_shows_keys ((hlead₁.trans hlead₂).reachableIf h₀)).2.2.2 hwaits₂.1
  rw [hreturned, show keysOf [0x23, 0x17] = [0x68, 0x69] by decide] at hwindow
  exact ⟨s₂, hreturned, hwindow⟩

/-- While no scancode comes in, at most 326 steps of the task put every accepted key on the screen, after which the task
waits. -/
theorem shell_catches_up (h : (shellSystem boot ops).Reachable s) :
    ∃ n ≤ 326, ∃ s', (shellSystem boot ops).runIf (fun _ _ => True) s (List.replicate n .step) = some s' ∧ s'.Waits ∧
      Window s'.console (typedSheet (started boot ops) (keysOf s.keyboard.accepted)) := by
  have hinv := shell_inv h
  have hrank : s.rank ≤ 326 := by
    have hcount : s.keyboard.ring.count < bufSize := Nat.mod_lt _ (by decide)
    have hpc : s.pc.rank s.keyboard.pc ≤ 16 := by
      cases s.pc <;> simp only [ShellPc.rank] <;> first | omega | (split <;> omega)
    unfold bufSize at hcount
    unfold Terminal.rank
    omega
  obtain ⟨n, hn, s', hrun, hwaits, hinv', haccepted⟩ := hinv.settles hrank
  refine ⟨n, hn, s', hrun, hwaits, ?_⟩
  rw [← haccepted, ← hinv'.all_returned hwaits]
  exact hinv'.window hwaits.1

/-- Two scancodes come in before the task has begun. -/
theorem shell_catches_up_hi : ∃ n ≤ 326, ∃ s', (shellSystem bootConsole []).runIf (fun _ _ => True)
    { bootTerminal with keyboard := keyIrq 0x17 (keyIrq 0x23 bootKeyboard) } (List.replicate n .step) = some s' ∧
      Window s'.console (typedSheet (started bootConsole []) [0x68, 0x69]) := by
  have hone : (shellSystem bootConsole []).next bootTerminal (.irq 0x23) =
    some { bootTerminal with keyboard := keyIrq 0x23 bootKeyboard } := rfl
  have htwo : (shellSystem bootConsole []).next { bootTerminal with keyboard := keyIrq 0x23 bootKeyboard } (.irq 0x17) =
    some { bootTerminal with keyboard := keyIrq 0x17 (keyIrq 0x23 bootKeyboard) } := rfl
  obtain ⟨n, hn, s', hrun, -, hwindow⟩ :=
    shell_catches_up (.step (.step (.init bootTerminal_init) trivial hone) trivial htwo)
  have haccepted : keysOf (keyIrq 0x17 (keyIrq 0x23 bootKeyboard)).accepted = [0x68, 0x69] := by decide +kernel
  exact ⟨n, hn, s', hrun, haccepted ▸ hwindow⟩

end

end Novium.Shell
