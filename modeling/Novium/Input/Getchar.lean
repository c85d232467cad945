import Novium.Input.Keyboard
import Mathlib.Algebra.Ring.Parity

/-! `keyboard_getchar` of `drivers/input/keyboard.c`: both shift keys and Caps Lock work on one
flag. A letter comes out in the right case as long as that flag is what the keys say it is. -/

namespace Novium.Input

/-- By scancode; 0 is no key. -/
def kbdLayout : List Char :=
  [Char.ofNat 0, Char.ofNat 27,
    '1', '2', '3', '4', '5', '6', '7', '8', '9', '0', '-', '=', Char.ofNat 8, Char.ofNat 9,
    'q', 'w', 'e', 'r', 't', 'y', 'u', 'i', 'o', 'p', '[', ']', Char.ofNat 10, Char.ofNat 0,
    'a', 's', 'd', 'f', 'g', 'h', 'j', 'k', 'l', ';', Char.ofNat 39, Char.ofNat 96, Char.ofNat 0, Char.ofNat 92,
    'z', 'x', 'c', 'v', 'b', 'n', 'm', ',', '.', '/', Char.ofNat 0, Char.ofNat 0, Char.ofNat 0, ' ']

def kbdLayoutShift : List Char :=
  [Char.ofNat 0, Char.ofNat 27,
    '!', '@', '#', '$', '%', '^', '&', '*', '(', ')', '_', '+', Char.ofNat 8, Char.ofNat 9,
    'Q', 'W', 'E', 'R', 'T', 'Y', 'U', 'I', 'O', 'P', Char.ofNat 123, Char.ofNat 125, Char.ofNat 10, Char.ofNat 0,
    'A', 'S', 'D', 'F', 'G', 'H', 'J', 'K', 'L', ':', Char.ofNat 34, '~', Char.ofNat 0, '|',
    'Z', 'X', 'C', 'V', 'B', 'N', 'M', '<', '>', '?', Char.ofNat 0, Char.ofNat 0, Char.ofNat 0, ' ']

/-- The body of the loop for a scancode that has been popped: the flag behind it, and the key to return. -/
def decode (shiftHeld : Bool) (sc : UInt8) : Bool × Option Char :=
  if sc &&& 0x80 ≠ 0 then
    if sc &&& 0x7F = 0x2A ∨ sc &&& 0x7F = 0x36 then (false, none) else (shiftHeld, none)
  else if sc = 0x2A ∨ sc = 0x36 then (true, none)
  else if sc = 0x3A then (!shiftHeld, none)
  else
    let layout := if shiftHeld then kbdLayoutShift else kbdLayout
    if sc.toNat ≥ kbdLayout.length then (shiftHeld, none)
    else
      let key := layout.getD sc.toNat (Char.ofNat 0)
      if key = Char.ofNat 0 then (shiftHeld, none) else (shiftHeld, some key)

/-- The character, what is left of the results of `keyboard_pop`, and the flag. `none` among the results is a -1, at
which the loop halts until the next interrupt. -/
def keyboardGetchar (shiftHeld : Bool) : List (Option UInt8) → Option (Char × List (Option UInt8) × Bool)
  | [] => none
  | none :: pops => keyboardGetchar shiftHeld pops
  | some sc :: pops =>
    match decode shiftHeld sc with
    | (held, some key) => some (key, pops, held)
    | (held, none) => keyboardGetchar held pops

/-- What up to `n` calls return, one after the other, until a call waits for more. -/
def getchars : ℕ → Bool → List (Option UInt8) → List Char
  | 0, _, _ => []
  | n + 1, shiftHeld, pops =>
    match keyboardGetchar shiftHeld pops with
    | none => []
    | some (key, pops, held) => key :: getchars n held pops

/-- All that is returned from the start of the driver on. -/
def typed (pops : List (Option UInt8)) : List Char := getchars pops.length false pops

def leftShift : UInt8 := 0x2A
def rightShift : UInt8 := 0x36
def capsLock : UInt8 := 0x3A

def isMake (sc : UInt8) : Bool := sc = leftShift || sc = rightShift
def isBreak (sc : UInt8) : Bool := sc = leftShift ||| 0x80 || sc = rightShift ||| 0x80

/-- The key with the given make code is down. -/
def held (make : UInt8) (scs : List (Option UInt8)) : Bool :=
  scs.foldl (fun down x => if x = some make then true else if x = some (make ||| 0x80) then false else down) false

def shiftDown (scs : List (Option UInt8)) : Bool := held leftShift scs || held rightShift scs

def capsOn (scs : List (Option UInt8)) : Bool := decide (Odd (scs.count (some capsLock)))

def isLetterKey (sc : UInt8) : Bool := (kbdLayout.getD sc.toNat (Char.ofNat 0)).isLower

/-- Behind `scs` the letter key gives a character in the case that the modifier keys ask for. -/
def CaseFollows (scs : List (Option UInt8)) (key : UInt8) : Prop :=
  ∃ c, (typed (scs ++ [some key])).getLast? = some c ∧ c.isUpper = (shiftDown scs ^^ capsOn scs)

def NoShift (scs : List (Option UInt8)) : Prop := ∀ sc, some sc ∈ scs → isMake sc = false ∧ isBreak sc = false

/-- Before the last scancode of a shift key Caps Lock is on if that scancode is a release that leaves the other shift key
down, and only then. -/
def ShiftSettled (scs : List (Option UInt8)) : Prop :=
  ∀ before sc after, scs = before ++ some sc :: after → (isMake sc || isBreak sc) = true → NoShift after →
    capsOn before = (isBreak sc && shiftDown (before ++ [some sc]))

def flagAfter (f : Bool) (scs : List (Option UInt8)) : Bool :=
  scs.foldl (fun f x => match x with
    | none => f
    | some sc => (decode f sc).1) f

theorem decode_flag (f : Bool) (sc : UInt8) :
    (decode f sc).1 = if isMake sc then true else if isBreak sc then false else if sc = capsLock then !f else f := by
  have key : ∀ f : Bool, ∀ i : Fin 256, (decode f (UInt8.ofNat i)).1 = if isMake (UInt8.ofNat i) then true
      else if isBreak (UInt8.ofNat i) then false else if UInt8.ofNat i = capsLock then !f else f := by decide +kernel
  have hsc : UInt8.ofNat sc.toNat = sc := UInt8.ofNat_toNat
  have := key f ⟨sc.toNat, sc.toNat_lt⟩
  rwa [hsc] at this

theorem decode_letter (f : Bool) {sc : UInt8} (h : isLetterKey sc = true) :
    ∃ c, decode f sc = (f, some c) ∧ c.isUpper = f := by
  have key : ∀ f : Bool, ∀ i : Fin 256, isLetterKey (UInt8.ofNat i) = true →
      (decode f (UInt8.ofNat i)).1 = f ∧ ((decode f (UInt8.ofNat i)).2.map Char.isUpper) = some f := by decide +kernel
  have hsc : UInt8.ofNat sc.toNat = sc := UInt8.ofNat_toNat
  have hi := key f ⟨sc.toNat, sc.toNat_lt⟩
  rw [hsc] at hi
  obtain ⟨hflag, hkey⟩ := hi h
  obtain ⟨c, hc, hup⟩ := Option.map_eq_some_iff.mp hkey
  exact ⟨c, Prod.ext hflag hc, hup⟩

theorem getchars_none (n : ℕ) (f : Bool) (pops : List (Option UInt8)) : getchars n f (none :: pops) = getchars n f pops := by
  cases n with
  | zero => rfl
  | succ n => simp only [getchars, keyboardGetchar]

theorem getchars_letter {key : UInt8} (hkey : isLetterKey key = true) (scs : List (Option UInt8)) :
    ∀ (f : Bool) (n : ℕ), scs.length < n → ∃ c, (getchars n f (scs ++ [some key])).getLast? = some c ∧
      c.isUpper = flagAfter f scs := by
  induction scs with
  | nil =>
    intro f n hn
    obtain ⟨c, hdec, hup⟩ := decode_letter f hkey
    obtain ⟨m, rfl⟩ : ∃ m, n = m + 1 := ⟨n - 1, by simp at hn; omega⟩
    refine ⟨c, ?_, hup⟩
    have hrest : getchars m f [] = [] := by cases m <;> rfl
    simp [getchars, keyboardGetchar, hdec, hrest]
  | cons x scs ih =>
    intro f n hn
    obtain ⟨m, rfl⟩ : ∃ m, n = m + 1 := ⟨n - 1, by simp at hn; omega⟩
    have hm : scs.length < m := by simpa using hn
    cases x with
    | none =>
      rw [List.cons_append, getchars_none]
      exact ih f (m + 1) (by omega)
    | some sc =>
      cases hdec : decode f sc with
      | mk held r =>
        have hflag : flagAfter f (some sc :: scs) = flagAfter held scs := by simp [flagAfter, hdec]
        rw [hflag]
        cases r with
        | none =>
          have hskip : getchars (m + 1) f (some sc :: (scs ++ [some key])) = getchars (m + 1) held (scs ++ [some key]) := by
            simp only [getchars, keyboardGetchar, hdec]
          rw [List.cons_append, hskip]
          exact ih held (m + 1) (by omega)
        | some k =>
          obtain ⟨c, hlast, hup⟩ := ih held m hm
          refine ⟨c, ?_, hup⟩
          have hcons : getchars (m + 1) f (some sc :: (scs ++ [some key])) = k :: getchars m held (scs ++ [some key]) := by
            simp only [getchars, keyboardGetchar, hdec]
          rw [List.cons_append, hcons, List.getLast?_cons, hlast]
          rfl

theorem caseFollows_iff {key : UInt8} (hkey : isLetterKey key = true) (scs : List (Option UInt8)) :
    CaseFollows scs key ↔ flagAfter false scs = (shiftDown scs ^^ capsOn scs) := by
  obtain ⟨c, hlast, hup⟩ := getchars_letter hkey scs false (scs ++ [some key]).length (by simp)
  rw [CaseFollows, typed, hlast, ← hup]
  constructor
  · intro h
    obtain ⟨c', hc', hcase⟩ := h
    cases hc'
    exact hcase
  · exact fun h => ⟨c, rfl, h⟩

theorem capsOn_append (xs ys : List (Option UInt8)) : capsOn (xs ++ ys) = (capsOn xs ^^ capsOn ys) := by
  unfold capsOn
  rw [List.count_append]
  by_cases hx : Odd (xs.count (some capsLock))
  · by_cases hy : Odd (ys.count (some capsLock)) <;> simp [Nat.odd_add, hx, hy, ← Nat.not_odd_iff_even]
  · by_cases hy : Odd (ys.count (some capsLock)) <;> simp [Nat.odd_add, hx, hy, ← Nat.not_odd_iff_even]

theorem capsOn_singleton (sc : UInt8) : capsOn [some sc] = decide (sc = capsLock) := by
  unfold capsOn
  rw [List.count_singleton]
  by_cases h : sc = capsLock <;> simp [h]

theorem NoShift.tail {x : Option UInt8} {scs : List (Option UInt8)} (h : NoShift (x :: scs)) : NoShift scs :=
  fun sc hsc => h sc (List.mem_cons_of_mem x hsc)

theorem flagAfter_noShift {scs : List (Option UInt8)} (h : NoShift scs) (f : Bool) :
    flagAfter f scs = (f ^^ capsOn scs) := by
  induction scs generalizing f with
  | nil => simp [flagAfter, capsOn]
  | cons x scs ih =>
    rw [show x :: scs = [x] ++ scs from rfl, capsOn_append]
    cases x with
    | none => simpa [flagAfter, capsOn] using ih h.tail f
    | some sc =>
      obtain ⟨hmake, hbreak⟩ := h sc (by simp)
      have hflag : flagAfter f ([some sc] ++ scs) = flagAfter (decode f sc).1 scs := rfl
      rw [hflag, ih h.tail, decode_flag, hmake, hbreak, capsOn_singleton]
      by_cases hcaps : sc = capsLock <;> simp [hcaps]

theorem held_noShift {make : UInt8} (hmake : make = leftShift ∨ make = rightShift) {ys : List (Option UInt8)}
    (h : NoShift ys) (xs : List (Option UInt8)) : held make (xs ++ ys) = held make xs := by
  unfold held
  rw [List.foldl_append]
  generalize xs.foldl _ false = down
  induction ys with
  | nil => rfl
  | cons y ys ih =>
    have hy : ∀ sc, y = some sc → isMake sc = false ∧ isBreak sc = false := fun sc hsc => h sc (by simp [hsc])
    have hstep : (if y = some make then true else if y = some (make ||| 0x80) then false else down) = down := by
      rw [if_neg, if_neg]
      · intro hb
        have := (hy _ hb).2
        rcases hmake with rfl | rfl <;> exact absurd this (by decide)
      · intro hm
        have := (hy _ hm).1
        rcases hmake with rfl | rfl <;> exact absurd this (by decide)
    rw [List.foldl_cons, hstep]
    exact ih h.tail

theorem shiftDown_noShift {ys : List (Option UInt8)} (h : NoShift ys) (xs : List (Option UInt8)) :
    shiftDown (xs ++ ys) = shiftDown xs := by
  rw [shiftDown, held_noShift (Or.inl rfl) h, held_noShift (Or.inr rfl) h, shiftDown]

theorem shiftDown_make {sc : UInt8} (h : isMake sc = true) (before : List (Option UInt8)) :
    shiftDown (before ++ [some sc]) = true := by
  simp only [isMake, Bool.or_eq_true, decide_eq_true_eq] at h
  unfold shiftDown held
  rcases h with rfl | rfl <;> simp

theorem last_shift (scs : List (Option UInt8)) : NoShift scs ∨
    ∃ before sc after, scs = before ++ some sc :: after ∧ (isMake sc || isBreak sc) = true ∧ NoShift after := by
  induction scs with
  | nil => exact Or.inl fun sc hsc => by cases hsc
  | cons x scs ih =>
    rcases ih with hno | ⟨before, sc, after, rfl, hsc, hafter⟩
    · by_cases hx : ∃ sc, x = some sc ∧ (isMake sc || isBreak sc) = true
      · obtain ⟨sc, rfl, hsc⟩ := hx
        exact Or.inr ⟨[], sc, scs, rfl, hsc, hno⟩
      · refine Or.inl fun sc hsc => ?_
        rcases List.mem_cons.mp hsc with h | h
        · rw [← Bool.or_eq_false_iff, ← Bool.not_eq_true]
          exact fun hs => hx ⟨sc, h.symm, hs⟩
        · exact hno sc h
    · exact Or.inr ⟨x :: before, sc, after, rfl, hsc, hafter⟩

/-- The flag agrees with the keys exactly if Caps Lock was right at the last shift scancode. -/
theorem flag_iff {before after : List (Option UInt8)} {sc : UInt8} (hsc : (isMake sc || isBreak sc) = true)
    (hafter : NoShift after) :
    flagAfter false (before ++ some sc :: after) =
        (shiftDown (before ++ some sc :: after) ^^ capsOn (before ++ some sc :: after)) ↔
      capsOn before = (isBreak sc && shiftDown (before ++ [some sc])) := by
  have hcaps : decide (sc = capsLock) = false := by
    rw [decide_eq_false_iff_not]
    rintro rfl
    exact absurd hsc (by decide)
  have hflag : flagAfter false (before ++ some sc :: after) = (isMake sc ^^ capsOn after) := by
    have hlast : flagAfter false (before ++ some sc :: after) =
        flagAfter (decode (flagAfter false before) sc).1 after := by simp [flagAfter]
    rw [hlast, flagAfter_noShift hafter, decode_flag]
    cases hm : isMake sc with
    | true => rfl
    | false => simp [show isBreak sc = true by simpa [hm] using hsc]
  have hsplit : before ++ some sc :: after = (before ++ [some sc]) ++ after := by simp
  rw [hflag, hsplit, shiftDown_noShift hafter, capsOn_append, capsOn_append, capsOn_singleton, hcaps]
  cases hm : isMake sc with
  | true =>
    have hb : isBreak sc = false := by
      simp only [isMake, Bool.or_eq_true, decide_eq_true_eq] at hm
      rcases hm with rfl | rfl <;> decide
    rw [shiftDown_make hm, hb]
    cases capsOn before <;> cases capsOn after <;> decide
  | false =>
    have hb : isBreak sc = true := by simpa [hm] using hsc
    rw [hb]
    cases capsOn before <;> cases capsOn after <;> cases shiftDown (before ++ [some sc]) <;> decide

/-- A letter follows the modifier keys exactly if Caps Lock, at the last scancode of a shift key, was what the flag takes
it for behind that scancode. -/
theorem letter_case_iff {key : UInt8} (hkey : isLetterKey key = true) (scs : List (Option UInt8)) :
    CaseFollows scs key ↔ ShiftSettled scs := by
  rw [caseFollows_iff hkey]
  constructor
  · intro h before sc after heq hsc hafter
    subst heq
    exact (flag_iff hsc hafter).mp h
  · intro h
    rcases last_shift scs with hno | ⟨before, sc, after, rfl, hsc, hafter⟩
    · have hup : shiftDown scs = false := shiftDown_noShift hno []
      rw [flagAfter_noShift hno, hup]
    · exact (flag_iff hsc hafter).mpr (h before sc after rfl hsc hafter)

/-- Both shift keys down, then Caps Lock: the letter is in lower case, and rightly so. -/
theorem letter_case_both : ShiftSettled [some leftShift, some rightShift, some capsLock] :=
  (letter_case_iff (show isLetterKey 0x1E = true by decide) _).mp ⟨'a', by decide, by decide⟩

/-- A shift key that is still down behind the release of the other one, and Caps Lock behind a shifted letter, do not
count. -/
theorem letter_case_wrong :
    ¬CaseFollows [some leftShift, some rightShift, some (rightShift ||| 0x80)] 0x1E ∧
      ¬CaseFollows [some capsLock, some leftShift, some 0x1F, some (leftShift ||| 0x80)] 0x1E := by
  rw [caseFollows_iff (by decide), caseFollows_iff (by decide)]
  decide

end Novium.Input
