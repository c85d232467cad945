import Novium.Console.Runs

/-! The line that is typed behind a prompt as a list of bytes, and the sheet of the console that it stands on. Until a
newline comes, a byte changes the sheet as it changes the line, and nothing in front of the line. -/

namespace Novium.Shell

open Novium.Console

/-- The bytes behind a prompt at position `p`, and the first row in the window, which the cursor is in. -/
structure Line (p : ℕ) where
  text : List UInt8
  top : ℕ
  above : 80 * top ≤ p + text.length
  below : p + text.length < 80 * (top + 25)

namespace Line

section

variable {p : ℕ} (l : Line p)

/-- The first row in the window with one byte more. -/
def topBehind : ℕ := if 80 * (l.top + 25) ≤ p + (l.text.length + 1) then l.top + 1 else l.top

theorem push_above (c : UInt8) : 80 * l.topBehind ≤ p + (l.text ++ [c]).length := by
  have habove := l.above
  simp only [topBehind, List.length_append, List.length_singleton]
  split_ifs <;> omega

theorem push_below (c : UInt8) : p + (l.text ++ [c]).length < 80 * (l.topBehind + 25) := by
  have hbelow := l.below
  simp only [topBehind, List.length_append, List.length_singleton]
  split_ifs <;> omega

def push (c : UInt8) : Line p := ⟨l.text ++ [c], l.topBehind, l.push_above c, l.push_below c⟩

/-- A row filled by what is typed is followed by the marker, which becomes part of the line. -/
def insert (c : UInt8) : Line p :=
  if (p + (l.push c).text.length) % 80 = 0 then ((l.push c).push 0x3e).push 0x20 else l.push c

/-- The last byte can be taken back if it is in the window. -/
def Erasable : Prop := p + l.text.length ≠ max p (80 * l.top)

instance : Decidable l.Erasable := inferInstanceAs (Decidable (_ ≠ _))

theorem erase_above (h : l.Erasable) : 80 * l.top ≤ p + l.text.dropLast.length := by
  have habove := l.above
  unfold Erasable at h
  rw [List.length_dropLast]
  omega

theorem erase_below : p + l.text.dropLast.length < 80 * (l.top + 25) := by
  have hbelow := l.below
  rw [List.length_dropLast]
  omega

def erase : Line p := if h : l.Erasable then ⟨l.text.dropLast, l.top, l.erase_above h, l.erase_below⟩ else l

def edit (c : UInt8) : Line p :=
  if c = tab then (List.replicate 4 space).foldl insert l
  else if c = backspace then l.erase
  else l.insert c

/-- The line on the sheet, behind what stood there before it. -/
def sheet (before : ℕ → Cell) (echo : Bool) : Sheet where
  cells i := if i < p then before i else (l.text[i - p]?).elim blank (·, consoleAttribute)
  cursor := p + l.text.length
  top := l.top
  prompt := p
  echo := echo

@[simp] theorem sheet_cursor (before : ℕ → Cell) (echo : Bool) : (l.sheet before echo).cursor = p + l.text.length := rfl

@[simp] theorem sheet_top (before : ℕ → Cell) (echo : Bool) : (l.sheet before echo).top = l.top := rfl

@[simp] theorem sheet_prompt (before : ℕ → Cell) (echo : Bool) : (l.sheet before echo).prompt = p := rfl

@[simp] theorem sheet_echo (before : ℕ → Cell) (echo : Bool) : (l.sheet before echo).echo = echo := rfl

theorem sheet_before (before : ℕ → Cell) (echo : Bool) {i : ℕ} (hi : i < p) :
    (l.sheet before echo).cells i = before i := if_pos hi

end

section

variable {p : ℕ} {l : Line p} {before : ℕ → Cell}

theorem sheet_push (echo : Bool) (c : UInt8) : (l.sheet before echo).advance c = (l.push c).sheet before echo := by
  have hcells : Function.update (l.sheet before echo).cells (p + l.text.length) (c, consoleAttribute) =
      ((l.push c).sheet before echo).cells := by
    funext i
    simp only [Function.update_apply, sheet, push, List.getElem?_append]
    by_cases hi : i < p
    · rw [if_neg (by omega), if_pos hi, if_pos hi]
    by_cases hend : i = p + l.text.length
    · rw [if_pos hend, if_neg hi, if_neg (by omega), show i - p - l.text.length = 0 by omega]
      rfl
    · rw [if_neg hend, if_neg hi, if_neg hi]
      by_cases hin : i - p < l.text.length
      · rw [if_pos hin]
      · rw [if_neg hin, List.getElem?_eq_none (by omega), List.getElem?_eq_none (by simp only [List.length_singleton]; omega)]
  have hlength : p + (l.push c).text.length = p + l.text.length + 1 := by
    rw [push, List.length_append, List.length_singleton, ← Nat.add_assoc]
  unfold Sheet.advance Sheet.follow
  simp only [sheet_cursor, sheet_top, sheet_prompt, sheet_echo, hcells, ge_iff_le]
  have htop : (l.push c).top = if 80 * (l.top + 25) ≤ p + l.text.length + 1 then l.top + 1 else l.top := rfl
  split_ifs at htop ⊢ <;> simp only [sheet, hlength, htop]

theorem sheet_insert (c : UInt8) : (l.sheet before true).put c = (l.insert c).sheet before true := by
  unfold Sheet.put insert
  simp only [sheet_push]
  split_ifs with hmark hfull hfull
  · rfl
  · exact absurd hmark.2 hfull
  · exact absurd ⟨rfl, hfull⟩ hmark
  · rfl

theorem sheet_erase (echo : Bool) : (l.sheet before echo).erase = l.erase.sheet before echo := by
  have hkept : (l.sheet before echo).cursor = max (l.sheet before echo).prompt (80 * (l.sheet before echo).top) ↔
      ¬l.Erasable := not_not.symm
  unfold Sheet.erase erase
  by_cases hers : l.Erasable
  · have hpos : p < p + l.text.length := by
      have habove := l.above
      unfold Erasable at hers
      omega
    rw [if_neg (fun h => hkept.mp h hers), dif_pos hers]
    simp only [sheet, Sheet.mk.injEq, and_true]
    refine ⟨?_, by rw [List.length_dropLast]; omega⟩
    funext i
    simp only [Function.update_apply, List.getElem?_dropLast]
    by_cases hi : i < p
    · rw [if_neg (by omega), if_pos hi, if_pos hi]
    by_cases hend : i = p + l.text.length - 1
    · rw [if_pos hend, if_neg hi, if_neg (by omega)]
      rfl
    · rw [if_neg hend, if_neg hi, if_neg hi]
      by_cases hin : i - p < l.text.length - 1
      · rw [if_pos hin]
      · rw [if_neg hin, List.getElem?_eq_none (by omega)]
  · rw [if_pos (hkept.mpr hers), dif_neg hers]

theorem sheet_edit {c : UInt8} (hc : c ≠ newline) : (l.sheet before true).putchar c = (l.edit c).sheet before true := by
  have hspaces : ∀ (cs : List UInt8) (l : Line p),
      cs.foldl (fun r c => r.put c) (l.sheet before true) = (cs.foldl insert l).sheet before true := by
    intro cs
    induction cs with
    | nil => exact fun _ => rfl
    | cons c cs ih =>
      intro l
      rw [List.foldl_cons, sheet_insert, ih]
      rfl
  unfold Sheet.putchar edit
  rw [if_neg hc]
  split_ifs
  · exact hspaces _ l
  · exact sheet_erase true
  · exact sheet_insert c

/-- A key in a line that needs no marker. -/
def plainEdit (text : List UInt8) (c : UInt8) : List UInt8 :=
  if c = tab then text ++ List.replicate 4 space
  else if c = backspace then text.dropLast
  else text ++ [c]

theorem insert_short (hp : p % 80 = 2) (hshort : l.text.length + 1 < 78) (c : UInt8) :
    (l.insert c).text = l.text ++ [c] ∧ (l.insert c).top = l.top := by
  have hbelow := l.below
  have hlength : (l.push c).text.length = l.text.length + 1 := List.length_append
  have htop : (l.push c).top = l.top := if_neg (by omega)
  rw [insert, if_neg (by omega)]
  exact ⟨rfl, htop⟩

theorem spaces_short (hp : p % 80 = 2) {cs : List UInt8} (hshort : (l.text ++ cs).length < 78) :
    (cs.foldl insert l).text = l.text ++ cs ∧ (cs.foldl insert l).top = l.top := by
  induction cs generalizing l with
  | nil => exact ⟨l.text.append_nil.symm, rfl⟩
  | cons c cs ih =>
    rw [List.length_append, List.length_cons] at hshort
    obtain ⟨htext, htop⟩ := insert_short (l := l) hp (by omega) c
    have hfits : ((l.insert c).text ++ cs).length < 78 := by
      rw [htext, List.length_append, List.length_append, List.length_singleton]
      omega
    obtain ⟨htexts, htops⟩ := ih hfits
    rw [List.foldl_cons]
    exact ⟨by rw [htexts, htext, List.append_assoc, List.singleton_append], htops.trans htop⟩

theorem edit_short (hp : p % 80 = 2) (htop : 80 * l.top ≤ p) {c : UInt8} (hshort : (plainEdit l.text c).length < 78) :
    (l.edit c).text = plainEdit l.text c ∧ (l.edit c).top = l.top := by
  unfold plainEdit at hshort ⊢
  unfold edit
  split_ifs at hshort ⊢
  · exact spaces_short hp hshort
  · by_cases hers : l.Erasable
    · rw [erase, dif_pos hers]
      exact ⟨rfl, rfl⟩
    · have hnone : l.text = [] := List.length_eq_zero_iff.mp (by unfold Erasable at hers; omega)
      rw [erase, dif_neg hers, hnone]
      exact ⟨rfl, rfl⟩
  · rw [List.length_append, List.length_singleton] at hshort
    exact insert_short hp hshort c

theorem edits_short (hp : p % 80 = 2) (htop : 80 * l.top ≤ p) {line : List UInt8}
    (hshort : ∀ begun, begun <+: line → (begun.foldl plainEdit l.text).length < 78) :
    (line.foldl edit l).text = line.foldl plainEdit l.text := by
  induction line generalizing l with
  | nil => rfl
  | cons c line ih =>
    obtain ⟨htext, hsame⟩ := edit_short hp htop (hshort [c] ⟨line, rfl⟩)
    rw [List.foldl_cons, List.foldl_cons, ih (hsame ▸ htop), htext]
    intro begun hbegun
    rw [htext]
    exact hshort (c :: begun) (List.cons_prefix_cons.mpr ⟨rfl, hbegun⟩)

end

end Line

section

variable {r r' r'' : Sheet}

/-- The cursor is in the window and not before the prompt, and nothing stands behind it. -/
structure Tidy (r : Sheet) : Prop where
  above : 80 * r.top ≤ r.cursor
  below : r.cursor < 80 * (r.top + 25)
  prompt : r.prompt ≤ r.cursor
  rest : ∀ i, r.cursor ≤ i → r.cells i = blank

theorem fresh_tidy (echo : Bool) : Tidy (Sheet.fresh echo) :=
  ⟨Nat.zero_le _, Nat.zero_lt_succ 1999, le_rfl, fun _ _ => rfl⟩

namespace Tidy

theorem follow (habove : 80 * r.top ≤ r.cursor) (hbelow : r.cursor < 80 * (r.top + 26)) (hprompt : r.prompt ≤ r.cursor)
    (hrest : ∀ i, r.cursor ≤ i → r.cells i = blank) : Tidy r.follow := by
  unfold Sheet.follow
  split_ifs with hscroll
  · exact ⟨by simp only; omega, by simp only; omega, hprompt, hrest⟩
  · exact ⟨habove, by omega, hprompt, hrest⟩

theorem advance (h : Tidy r) (c : UInt8) : Tidy (r.advance c) := by
  have habove := h.above
  have hbelow := h.below
  have hprompt := h.prompt
  refine follow (by simp only; omega) (by simp only; omega) (by simp only; omega) fun i hi => ?_
  simp only at hi ⊢
  rw [Function.update_of_ne (by omega)]
  exact h.rest i (by omega)

theorem startLine (h : Tidy r) : Tidy r.startLine := by
  have habove := h.above
  have hbelow := h.below
  have hprompt := h.prompt
  exact follow (by simp only; omega) (by simp only; omega) (by simp only; omega)
    fun i hi => h.rest i (by simp only at hi; omega)

theorem erase (h : Tidy r) : Tidy r.erase := by
  have habove := h.above
  have hbelow := h.below
  have hprompt := h.prompt
  unfold Sheet.erase
  split_ifs with hkept
  · exact h
  · refine ⟨by simp only; omega, by simp only; omega, by simp only; omega, fun i hi => ?_⟩
    simp only at hi ⊢
    by_cases hend : i = r.cursor - 1
    · rw [hend, Function.update_self]
    · rw [Function.update_of_ne hend]
      exact h.rest i (by omega)

theorem put (h : Tidy r) (c : UInt8) : Tidy (r.put c) := by
  unfold Sheet.put
  simp only
  split_ifs
  · exact ((h.advance c).advance _).advance _
  · exact h.advance c

theorem spaces (h : Tidy r) (cs : List UInt8) : Tidy (cs.foldl (fun r c => r.put c) r) := by
  induction cs generalizing r with
  | nil => exact h
  | cons c cs ih => exact ih (h.put c)

theorem putchar (h : Tidy r) (c : UInt8) : Tidy (r.putchar c) := by
  unfold Sheet.putchar
  split_ifs
  · exact h.startLine
  · exact h.spaces _
  · exact h.erase
  · exact h.put c

theorem putAll (h : Tidy r) (cs : List UInt8) : Tidy (r.putAll cs) := by
  induction cs generalizing r with
  | nil => exact h
  | cons c cs ih => exact ih (h.putchar c)

theorem setPrompt (h : Tidy r) : Tidy r.setPrompt :=
  ⟨(h.putAll marker).above, (h.putAll marker).below, le_rfl, (h.putAll marker).rest⟩

theorem call (h : Tidy r) (op : Op) : Tidy (op.follow r) := by
  cases op with
  | clear => exact fresh_tidy r.echo
  | putchar c => exact h.putchar c
  | write str => exact h.putAll _
  | prompt => exact h.setPrompt
  | kprintf fmt args => exact h.putAll _
  | setEcho on => exact ⟨h.above, h.below, h.prompt, h.rest⟩

theorem calls (h : Tidy r) (ops : List Op) : Tidy (ops.foldl Op.follow r) := by
  induction ops generalizing r with
  | nil => exact h
  | cons op ops ih => exact ih (h.call op)

end Tidy

/-- A line with nothing in it yet, behind a marker at the start of a row. -/
def Prompted (r : Sheet) : Prop :=
  r.prompt % 80 = 2 ∧ ∃ l : Line r.prompt, l.text = [] ∧ r = l.sheet r.cells false

theorem Tidy.emptyLine (h : Tidy r) (hp : r.prompt = r.cursor) :
    r = (⟨[], r.top, h.above, h.below⟩ : Line r.cursor).sheet r.cells r.echo := by
  have hcells : r.cells = fun i => if i < r.cursor then r.cells i else blank := by
    funext i
    split_ifs with hi
    · rfl
    · exact h.rest i (not_lt.mp hi)
  obtain ⟨cells, cursor, top, prompt, echo⟩ := r
  obtain rfl : prompt = cursor := hp
  exact congrArg (fun cells => Sheet.mk cells prompt top prompt echo) hcells

theorem advance_echo (c : UInt8) : (r.advance c).echo = r.echo := by
  unfold Sheet.advance Sheet.follow
  split_ifs <;> rfl

theorem put_echo (c : UInt8) : (r.put c).echo = r.echo := by
  unfold Sheet.put
  simp only
  split_ifs
  · rw [advance_echo, advance_echo, advance_echo]
  · exact advance_echo c

theorem spaces_echo (cs : List UInt8) : (cs.foldl (fun r c => r.put c) r).echo = r.echo := by
  induction cs generalizing r with
  | nil => rfl
  | cons c cs ih => exact ih.trans (put_echo c)

theorem putchar_echo (c : UInt8) : (r.putchar c).echo = r.echo := by
  unfold Sheet.putchar
  split_ifs
  · unfold Sheet.startLine Sheet.follow
    split_ifs <;> rfl
  · exact spaces_echo _
  · unfold Sheet.erase
    split_ifs <;> rfl
  · exact put_echo c

theorem putAll_echo (cs : List UInt8) : (r.putAll cs).echo = r.echo := by
  induction cs generalizing r with
  | nil => rfl
  | cons c cs ih => exact ih.trans (putchar_echo c)

theorem putAll_marker (h : r.echo = false) : r.putAll marker = (r.advance 0x3e).advance 0x20 := by
  have hput : ∀ (r : Sheet) (c : UInt8), r.echo = false → r.put c = r.advance c := by
    intro r c hr
    unfold Sheet.put
    simp only
    rw [if_neg (fun h => by rw [advance_echo, hr] at h; cases h.1)]
  have hfirst : r.putchar 0x3e = r.advance 0x3e := hput r _ h
  have hsecond : (r.advance 0x3e).putchar 0x20 = (r.advance 0x3e).advance 0x20 := hput _ _ ((advance_echo _).trans h)
  rw [Sheet.putAll, marker, List.foldl_cons, hfirst, List.foldl_cons, hsecond]
  rfl

theorem Tidy.prompted (h : Tidy r) (hecho : r.echo = false) (hcol : r.cursor % 80 = 0) : Prompted r.setPrompt := by
  have hmark : r.setPrompt.cursor = r.cursor + 2 := by
    show (r.putAll marker).cursor = _
    rw [putAll_marker hecho, advance_cursor, advance_cursor]
  have hoff : r.setPrompt.echo = false := (putAll_echo marker).trans hecho
  have hline := h.setPrompt.emptyLine rfl
  rw [hoff] at hline
  have hprompt : r.setPrompt.prompt = r.cursor + 2 := hmark
  exact ⟨by omega, _, rfl, hline⟩

/-- What the shell does with a key, as calls of the console. -/
def keyCalls (c : UInt8) : List Op :=
  [.setEcho true, .putchar c, .setEcho false] ++ if c = newline then [.prompt] else []

def typeKey (r : Sheet) (c : UInt8) : Sheet := (keyCalls c).foldl Op.follow r

/-- The prompt has not gone back, and what stood before it stands there. -/
structure Grows (r r' : Sheet) : Prop where
  prompt : r.prompt ≤ r'.prompt
  cells : ∀ i < r.prompt, r'.cells i = r.cells i

namespace Grows

theorem refl (r : Sheet) : Grows r r := ⟨le_rfl, fun _ _ => rfl⟩

theorem trans (h : Grows r r') (h' : Grows r' r'') : Grows r r'' :=
  ⟨Nat.le_trans h.prompt h'.prompt, fun i hi => (h'.cells i (Nat.lt_of_lt_of_le hi h.prompt)).trans (h.cells i hi)⟩

end Grows

theorem typeKey_line {p : ℕ} (l : Line p) (before : ℕ → Cell) {c : UInt8} (hc : c ≠ newline) :
    typeKey (l.sheet before false) c = (l.edit c).sheet before false := by
  have hput : (l.sheet before true).putchar c = (l.edit c).sheet before true := l.sheet_edit hc
  simp only [typeKey, keyCalls, if_neg hc, List.append_nil, List.foldl_cons, List.foldl_nil, Op.follow]
  exact congrArg (fun r : Sheet => { r with echo := false }) hput

theorem typeKeys_line {p : ℕ} (l : Line p) (before : ℕ → Cell) {line : List UInt8} (hline : newline ∉ line) :
    line.foldl typeKey (l.sheet before false) = (line.foldl Line.edit l).sheet before false := by
  induction line generalizing l with
  | nil => rfl
  | cons c line ih =>
    obtain ⟨hc, hrest⟩ := not_or.mp (List.mem_cons.not.mp hline)
    rw [List.foldl_cons, typeKey_line l before (Ne.symm hc), ih _ hrest]
    rfl

theorem advance_grows (c : UInt8) (h : r.prompt ≤ r.cursor) : Grows r (r.advance c) := by
  have hcells : (r.advance c).cells = Function.update r.cells r.cursor (c, consoleAttribute) := by
    unfold Sheet.advance Sheet.follow
    split_ifs <;> rfl
  have hprompt : (r.advance c).prompt = r.prompt := by
    unfold Sheet.advance Sheet.follow
    split_ifs <;> rfl
  exact ⟨Nat.le_of_eq hprompt.symm, fun i hi => by rw [hcells, Function.update_of_ne (by omega)]⟩

theorem Tidy.setPrompt_grows (h : Tidy r) (hecho : r.echo = false) : Grows r r.setPrompt := by
  have hmark := (advance_grows 0x3e h.prompt).trans (advance_grows 0x20 (h.advance 0x3e).prompt)
  rw [← putAll_marker hecho] at hmark
  exact hmark.trans ⟨(h.putAll marker).prompt, fun _ _ => rfl⟩

theorem typeKey_newline (h : Tidy r) (hecho : r.echo = false) :
    Prompted (typeKey r newline) ∧ Grows r (typeKey r newline) := by
  have hturn : typeKey r newline = ({ r.startLine with echo := false } : Sheet).setPrompt := by
    obtain ⟨cells, cursor, top, prompt, echo⟩ := r
    obtain rfl : echo = false := hecho
    simp only [typeKey, keyCalls, if_true, List.cons_append, List.nil_append, List.foldl_cons, List.foldl_nil, Op.follow,
      Sheet.putchar, Sheet.startLine, Sheet.follow]
    split_ifs <;> rfl
  have hcursor : r.startLine.cursor = (r.cursor / 80 + 1) * 80 := by
    unfold Sheet.startLine Sheet.follow
    split_ifs <;> rfl
  have hsame : Grows r { r.startLine with echo := false } := by
    unfold Sheet.startLine Sheet.follow
    split_ifs <;> exact ⟨le_rfl, fun _ _ => rfl⟩
  have htidy : Tidy { r.startLine with echo := false } := h.startLine.call (.setEcho false)
  rw [hturn]
  exact ⟨htidy.prompted rfl (by simp only; omega), hsame.trans (htidy.setPrompt_grows rfl)⟩

end

end Novium.Shell
