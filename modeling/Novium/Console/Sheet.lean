import Novium.Console.Vga

/-! The endless sheet of 80 columns that the console is a window on, and what the
parts of the driver do to the cells of video memory and to the cursor. -/

namespace Novium.Console

/-- A character and its attribute. -/
abbrev Cell := UInt8 × UInt8

def blank : Cell := (space, consoleAttribute)

/-- Cells and positions are counted from the start of the sheet. -/
structure Sheet where
  cells : ℕ → Cell
  cursor : ℕ
  /-- The first row in the window. -/
  top : ℕ
  prompt : ℕ
  echo : Bool

namespace Sheet

/-- The window moves on when the cursor would leave its 25th row. -/
def follow (r : Sheet) : Sheet := if r.cursor ≥ 80 * (r.top + 25) then { r with top := r.top + 1 } else r

def startLine (r : Sheet) : Sheet := follow { r with cursor := (r.cursor / 80 + 1) * 80 }

def advance (c : UInt8) (r : Sheet) : Sheet :=
  follow { r with cells := Function.update r.cells r.cursor (c, consoleAttribute), cursor := r.cursor + 1 }

/-- A row filled while echoing is followed by the marker. -/
def put (c : UInt8) (r : Sheet) : Sheet :=
  let r := r.advance c
  if r.echo ∧ r.cursor % 80 = 0 then (r.advance 0x3e).advance 0x20 else r

def erase (r : Sheet) : Sheet :=
  if r.cursor = max r.prompt (80 * r.top) then r
  else { r with cells := Function.update r.cells (r.cursor - 1) blank, cursor := r.cursor - 1 }

def putchar (r : Sheet) (c : UInt8) : Sheet :=
  if c = newline then r.startLine
  else if c = tab then (List.replicate 4 space).foldl (fun r c => r.put c) r
  else if c = backspace then r.erase
  else r.put c

def putAll (cs : List UInt8) (r : Sheet) : Sheet := cs.foldl putchar r

def setPrompt (r : Sheet) : Sheet := { r.putAll marker with prompt := (r.putAll marker).cursor }

def clear (r : Sheet) : Sheet := ⟨fun _ => blank, 0, 0, 0, r.echo⟩

end Sheet

/-- The bytes of a string before its null byte. -/
def text (str : List UInt8) : List UInt8 := str.takeWhile (· ≠ 0)

def u32Text (value : BitVec 32) (base : ℕ) (digits : ℕ → UInt8) : List UInt8 :=
  ((u32Digits base value.toNat).map digits).reverse

/-- What one conversion of `kprintf` prints, and the argument it leaves for the next. -/
def conversionText (args : VaList) (i : ℕ) (c : UInt8) : List UInt8 × ℕ :=
  let value := args.words i
  if c = 0x63 then ([UInt8.ofNat value.toNat], i + 1)
  else if c = 0x73 then (text (args.strings value), i + 1)
  else if c = 0x64 ∨ c = 0x69 then
    if value.toInt < 0 then (0x2d :: u32Text (-value) 10 lowerDigits, i + 1)
    else (u32Text value 10 lowerDigits, i + 1)
  else if c = 0x75 then (u32Text value 10 lowerDigits, i + 1)
  else if c = 0x78 then (u32Text value 16 lowerDigits, i + 1)
  else if c = 0x58 then (u32Text value 16 upperDigits, i + 1)
  else ([c], i)

def kprintfText (args : VaList) : Bool → ℕ → List UInt8 → List UInt8
  | _, _, [] => []
  | false, i, c :: fmt =>
    if c = 0 then [] else if c = 0x25 then kprintfText args true i fmt else c :: kprintfText args false i fmt
  | true, i, c :: fmt =>
    if c = 0 then []
    else (conversionText args i c).1 ++ kprintfText args false (conversionText args i c).2 fmt

namespace Page

def cell (p : Page) (i : ℤ) : Cell := (p.bytes (i * 2), p.bytes (i * 2 + 1))

theorem store_bytes (p : Page) (o : ℤ) (b : UInt8) (x : ℤ) :
    (p.store o b).bytes x = if x = o then b else p.bytes x := by
  unfold store
  by_cases h : x = o
  · simp [h]
  · simp [h]

theorem store_stray {p : Page} {o : ℤ} (h0 : 0 ≤ o) (h1 : o < 4000) (b : UInt8) :
    (p.store o b).stray = p.stray := by
  simp [store, h0, h1]

theorem putCell_cell (p : Page) (i : ℤ) (c : UInt8) (j : ℤ) :
    (p.putCell i c).cell j = if j = i then (c, consoleAttribute) else p.cell j := by
  unfold cell putCell
  simp only [store_bytes]
  by_cases h : j = i
  · subst h
    rw [if_neg (by omega), if_pos rfl, if_pos rfl, if_pos rfl]
  · rw [if_neg (by omega), if_neg (by omega), if_neg (by omega), if_neg (by omega), if_neg h]

theorem putCell_stray {p : Page} {i : ℤ} (h0 : 0 ≤ i) (h1 : i < 2000) (c : UInt8) :
    (p.putCell i c).stray = p.stray := by
  rw [putCell, store_stray (by omega) (by omega), store_stray (by omega) (by omega)]

theorem copyUp_bytes (len : ℕ) {d s : ℤ} (hlt : d < s) (p : Page) (x : ℤ) :
    (copyUp d s len p).bytes x = if d ≤ x ∧ x < d + len then p.bytes (x + (s - d)) else p.bytes x := by
  induction len generalizing d s p with
  | zero =>
    rw [if_neg (by simp)]
    rfl
  | succ len ih =>
    rw [copyUp, ih (by omega)]
    simp only [store_bytes]
    push_cast
    by_cases hx : x = d
    · subst hx
      rw [if_neg (by omega), if_pos rfl, if_pos (by omega), show x + (s - x) = s by omega]
    · by_cases hin : d ≤ x ∧ x < d + (len + 1)
      · rw [if_pos (by omega), if_pos hin, if_neg (by omega), show x + (s + 1 - (d + 1)) = x + (s - d) by omega]
      · rw [if_neg (by omega), if_neg hin, if_neg hx]

theorem copyUp_stray (len : ℕ) {d : ℤ} (s : ℤ) (p : Page) (h0 : 0 ≤ d) (h1 : d + len ≤ 4000) :
    (copyUp d s len p).stray = p.stray := by
  induction len generalizing d s p with
  | zero => rfl
  | succ len ih =>
    push_cast at h1
    rw [copyUp, ih _ _ (by omega) (by omega), store_stray h0 (by omega)]

theorem memmove_cell (p : Page) {j : ℤ} (h0 : 0 ≤ j) (h1 : j < 1920) :
    (p.memmove 0 (consoleWidth * 2) 3840).cell j = p.cell (j + 80) := by
  unfold cell
  rw [memmove, if_pos (by decide), copyUp_bytes 3840 (by decide), copyUp_bytes 3840 (by decide), if_pos, if_pos]
  · simp only [consoleWidth]
    congr 2 <;> omega
  · omega
  · omega

theorem memmove_stray (p : Page) : (p.memmove 0 (consoleWidth * 2) 3840).stray = p.stray := by
  rw [memmove, if_pos (by decide), copyUp_stray 3840 _ p (by decide) (by decide)]

theorem blankRow_cell (p : Page) (n : ℕ) (j : ℤ) :
    (p.blankRow 3840 n).cell j = if 1920 ≤ j ∧ j < 1920 + n then blank else p.cell j := by
  induction n with
  | zero =>
    rw [if_neg (by simp)]
    rfl
  | succ n ih =>
    have hput : p.blankRow 3840 (n + 1) = (p.blankRow 3840 n).putCell (1920 + n) space := by
      rw [blankRow, putCell, show (3840 : ℤ) + n * 2 = (1920 + n) * 2 by omega]
    rw [hput, putCell_cell, ih]
    push_cast
    by_cases hj : j = 1920 + n
    · rw [if_pos hj, if_pos (by omega)]
      rfl
    · rw [if_neg hj]
      by_cases hin : 1920 ≤ j ∧ j < 1920 + (n : ℤ)
      · rw [if_pos hin, if_pos (by omega)]
      · rw [if_neg hin, if_neg (by omega)]

theorem blankRow_stray (p : Page) {n : ℕ} (hn : n ≤ 80) : (p.blankRow 3840 n).stray = p.stray := by
  induction n with
  | zero => rfl
  | succ n ih => rw [blankRow, store_stray (by omega) (by omega), store_stray (by omega) (by omega), ih (by omega)]

theorem scrollUp_cell (p : Page) {j : ℤ} (h0 : 0 ≤ j) (h1 : j < 2000) :
    p.scrollUp.cell j = if j < 1920 then p.cell (j + 80) else blank := by
  rw [scrollUp, blankRow_cell]
  by_cases hj : j < 1920
  · rw [if_neg (by omega), if_pos hj, memmove_cell p h0 hj]
  · rw [if_pos (by omega), if_neg hj]

theorem scrollUp_stray (p : Page) : p.scrollUp.stray = p.stray := by
  rw [scrollUp, blankRow_stray _ le_rfl, memmove_stray]

theorem memset_bytes (len : ℕ) (d : ℤ) (c : UInt8) (p : Page) (x : ℤ) :
    (p.memset d c len).bytes x = if d ≤ x ∧ x < d + len then c else p.bytes x := by
  induction len generalizing d p with
  | zero =>
    rw [if_neg (by simp)]
    rfl
  | succ len ih =>
    rw [memset, ih]
    simp only [store_bytes]
    push_cast
    by_cases hx : x = d
    · subst hx
      rw [if_neg (by omega), if_pos rfl, if_pos (by omega)]
    · by_cases hin : d ≤ x ∧ x < d + (len + 1)
      · rw [if_pos (by omega), if_pos hin]
      · rw [if_neg (by omega), if_neg hin, if_neg hx]

theorem memset_stray (len : ℕ) {d : ℤ} (c : UInt8) (p : Page) (h0 : 0 ≤ d) (h1 : d + len ≤ 4000) :
    (p.memset d c len).stray = p.stray := by
  induction len generalizing d p with
  | zero => rfl
  | succ len ih =>
    push_cast at h1
    rw [memset, ih _ (by omega) (by omega), store_stray h0 (by omega)]

theorem setAttributes_bytes (n : ℕ) (p : Page) (i : ℤ) :
    (p.setAttributes n).bytes (i * 2) = p.bytes (i * 2) ∧
      (p.setAttributes n).bytes (i * 2 + 1) =
        if 0 ≤ i ∧ i < n then consoleAttribute else p.bytes (i * 2 + 1) := by
  induction n with
  | zero =>
    rw [if_neg (by simp)]
    exact ⟨rfl, rfl⟩
  | succ n ih =>
    rw [setAttributes, store_bytes, store_bytes, if_neg (by omega), ih.1, ih.2]
    refine ⟨rfl, ?_⟩
    push_cast
    by_cases hi : i = n
    · rw [if_pos (by omega), if_pos (by omega)]
    · rw [if_neg (by omega)]
      by_cases hin : 0 ≤ i ∧ i < (n : ℤ)
      · rw [if_pos hin, if_pos (by omega)]
      · rw [if_neg hin, if_neg (by omega)]

theorem setAttributes_stray (p : Page) {n : ℕ} (hn : n ≤ 2000) : (p.setAttributes n).stray = p.stray := by
  induction n with
  | zero => rfl
  | succ n ih => rw [setAttributes, store_stray (by omega) (by omega), ih (by omega)]

theorem clear_cell (p : Page) {j : ℤ} (h0 : 0 ≤ j) (h1 : j < 2000) : p.clear.cell j = blank := by
  obtain ⟨hchar, hattr⟩ := setAttributes_bytes 2000 (p.memset 0 0x20 4000) j
  rw [memset_bytes, if_pos (by omega)] at hchar
  rw [if_pos (by omega)] at hattr
  rw [cell, clear, hchar, hattr]
  rfl

theorem clear_stray (p : Page) : p.clear.stray = p.stray := by
  rw [clear, setAttributes_stray _ le_rfl, memset_stray 4000 _ p (by decide) (by decide)]

end Page

end Novium.Console
