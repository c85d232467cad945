import Novium.Console.Window

/-! Every call of the console puts a text on it byte by byte, and follows the sheet. -/

namespace Novium.Console

def putAll (n : ℕ) (cs : List UInt8) (s : State) : Option State := cs.foldlM (fun s c => consolePutchar n c s) s

theorem putAll_cons (n : ℕ) (c : UInt8) (cs : List UInt8) (s : State) :
    putAll n (c :: cs) s = (consolePutchar n c s).bind (putAll n cs) := rfl

theorem putAll_append (n : ℕ) (cs ds : List UInt8) (s : State) :
    putAll n (cs ++ ds) s = (putAll n cs s).bind (putAll n ds) := by
  simp only [putAll, List.foldlM_append]
  rfl

theorem putAll_singleton (n : ℕ) (c : UInt8) (s : State) : putAll n [c] s = consolePutchar n c s := by
  rw [putAll_cons]
  exact Option.bind_fun_some _

theorem consoleWrite_eq (n : ℕ) (str : List UInt8) (s : State) : consoleWrite n str s = putAll n (text str) s := by
  induction str generalizing s with
  | nil => rfl
  | cons c str ih =>
    rw [consoleWrite, writeLoop, text]
    by_cases hc : c = 0
    · simp [hc, putAll]
    · rw [if_neg hc, List.takeWhile_cons_of_pos (by simpa using hc), putAll_cons]
      exact congrArg _ (funext ih)

theorem kprintfConversion_eq (n : ℕ) (args : VaList) (i : ℕ) (c : UInt8) (s : State) :
    kprintfConversion n args i c s =
      (putAll n (conversionText args i c).1 s).map (·, (conversionText args i c).2) := by
  unfold kprintfConversion conversionText
  simp only
  split_ifs
  · rw [putAll_singleton]
  · rw [consoleWrite_eq]
  · rw [putAll_cons, Option.map_bind]
    rfl
  · rfl
  · rfl
  · rfl
  · rfl
  · rw [putAll_singleton]

theorem kprintfLoop_eq (n : ℕ) (args : VaList) (percent : Bool) (i : ℕ) (fmt : List UInt8) (s : State) :
    kprintfLoop n args percent i fmt s = putAll n (kprintfText args percent i fmt) s := by
  induction fmt generalizing percent i s with
  | nil => cases percent <;> rfl
  | cons c fmt ih =>
    cases percent with
    | false =>
      rw [kprintfLoop, kprintfText]
      split_ifs
      · rfl
      · exact ih true i s
      · rw [putAll_cons]
        exact congrArg _ (funext (ih false i))
    | true =>
      rw [kprintfLoop, kprintfText]
      split_ifs
      · rfl
      · rw [kprintfConversion_eq, putAll_append, Option.bind_map]
        exact congrArg _ (funext fun s' => ih false _ s')

section

variable {s : State} {r : Sheet}

def Plain (c : UInt8) : Prop := c ≠ newline ∧ c ≠ tab ∧ c ≠ backspace

instance (c : UInt8) : Decidable (Plain c) := inferInstanceAs (Decidable (_ ∧ _ ∧ _))

theorem consolePutchar_plain (n : ℕ) {c : UInt8} (hc : Plain c) (s : State) :
    consolePutchar (n + 1) c s =
      if (putByte c s).consoleLineEcho ∧ (putByte c s).cursor.tmod consoleWidth = 0 then
        consoleWrite n marker (putByte c s)
      else some (putByte c s) := by
  rw [consolePutchar, if_neg hc.1, if_neg hc.2.1, if_neg hc.2.2]
  rfl

@[simp] theorem advance_cursor (c : UInt8) (r : Sheet) : (r.advance c).cursor = r.cursor + 1 := by
  unfold Sheet.advance Sheet.follow
  split_ifs <;> rfl

theorem Shows.filled_iff (h : Shows s r) :
    (s.consoleLineEcho = true ∧ s.cursor.tmod consoleWidth = 0) ↔ (r.echo = true ∧ r.cursor % 80 = 0) := by
  have hcur := h.cursor
  have habove := h.above
  rw [h.echo, show consoleWidth = 80 from rfl, Int.tmod_eq_emod_of_nonneg (by omega)]
  refine and_congr_right fun _ => ?_
  omega

theorem Shows.putchar_short (h : Shows s r) (n : ℕ) {c : UInt8} (hc : Plain c) (hrow : (r.cursor + 1) % 80 ≠ 0) :
    consolePutchar (n + 1) c s = some (Console.putByte c s) ∧ Shows (Console.putByte c s) (r.advance c) := by
  have hput := h.putByte c
  refine ⟨?_, hput⟩
  rw [consolePutchar_plain n hc, if_neg]
  rw [hput.filled_iff, advance_cursor]
  exact fun hf => hrow hf.2

theorem Shows.write_marker (h : Shows s r) (n : ℕ) (hrow : r.cursor % 80 = 0) :
    ∃ s', consoleWrite (n + 1) marker s = some s' ∧ Shows s' ((r.advance 0x3e).advance 0x20) := by
  obtain ⟨h1, hs1⟩ := h.putchar_short n (c := 0x3e) (by decide) (by omega)
  obtain ⟨h2, hs2⟩ := hs1.putchar_short n (c := 0x20) (by decide) (by rw [advance_cursor]; omega)
  refine ⟨_, ?_, hs2⟩
  rw [consoleWrite_eq, show text marker = [0x3e, 0x20] by decide, putAll_cons, h1, Option.bind_some, putAll_singleton, h2]

theorem Shows.put (h : Shows s r) (n : ℕ) {c : UInt8} (hc : Plain c) :
    ∃ s', consolePutchar (n + 2) c s = some s' ∧ Shows s' (r.put c) := by
  have hput := h.putByte c
  rw [consolePutchar_plain (n + 1) hc]
  unfold Sheet.put
  by_cases hf : (r.advance c).echo = true ∧ (r.advance c).cursor % 80 = 0
  · rw [if_pos (hput.filled_iff.mpr hf), if_pos hf]
    exact hput.write_marker n hf.2
  · rw [if_neg (fun h => hf (hput.filled_iff.mp h)), if_neg hf]
    exact ⟨_, rfl, hput⟩

theorem Shows.spaces (h : Shows s r) (n k : ℕ) :
    ∃ s', putAll (n + 2) (List.replicate k space) s = some s' ∧
      Shows s' ((List.replicate k space).foldl (fun r c => r.put c) r) := by
  induction k generalizing s r with
  | zero => exact ⟨s, rfl, h⟩
  | succ k ih =>
    obtain ⟨s₁, h1, hs1⟩ := h.put n (c := space) (by decide)
    obtain ⟨s', h2, hs2⟩ := ih hs1
    refine ⟨s', ?_, hs2⟩
    rw [List.replicate_succ, putAll_cons, h1]
    exact h2

theorem Shows.putchar (h : Shows s r) (n : ℕ) (c : UInt8) :
    ∃ s', consolePutchar (n + 3) c s = some s' ∧ Shows s' (r.putchar c) := by
  unfold Sheet.putchar
  by_cases hnl : c = newline
  · rw [consolePutchar, if_pos hnl, if_pos hnl]
    exact ⟨_, rfl, h.startLine⟩
  · by_cases htab : c = tab
    · rw [consolePutchar, if_neg hnl, if_pos htab, if_neg hnl, if_pos htab]
      exact h.spaces n 4
    · by_cases hbs : c = backspace
      · rw [consolePutchar, if_neg hnl, if_neg htab, if_pos hbs, if_neg hnl, if_neg htab, if_pos hbs]
        exact ⟨_, rfl, h.eraseByte⟩
      · rw [if_neg hnl, if_neg htab, if_neg hbs]
        exact h.put (n + 1) ⟨hnl, htab, hbs⟩

theorem Shows.putAll (h : Shows s r) (n : ℕ) (cs : List UInt8) :
    ∃ s', putAll (n + 3) cs s = some s' ∧ Shows s' (r.putAll cs) := by
  induction cs generalizing s r with
  | nil => exact ⟨s, rfl, h⟩
  | cons c cs ih =>
    obtain ⟨s₁, h1, hs1⟩ := h.putchar n c
    obtain ⟨s', h2, hs2⟩ := ih hs1
    refine ⟨s', ?_, hs2⟩
    rw [putAll_cons, h1]
    exact h2

end

inductive Op where
  | clear
  | putchar (c : UInt8)
  | write (str : List UInt8)
  | prompt
  | kprintf (fmt : List UInt8) (args : VaList)
  /-- An assignment to `console_line_echo` by its owner. -/
  | setEcho (on : Bool)

namespace Op

def run (n : ℕ) (s : State) : Op → Option State
  | clear => some (consoleClear s)
  | putchar c => consolePutchar n c s
  | write str => consoleWrite n str s
  | prompt => consolePrompt n s
  | kprintf fmt args => Console.kprintf n fmt args s
  | setEcho on => some { s with consoleLineEcho := on }

def follow (r : Sheet) : Op → Sheet
  | clear => r.clear
  | putchar c => r.putchar c
  | write str => r.putAll (text str)
  | prompt => r.setPrompt
  | kprintf fmt args => r.putAll (kprintfText args false 0 fmt)
  | setEcho on => { r with echo := on }

end Op

/-- `console_clear`, with nothing written outside the page so far. -/
def opened (boot : State) : State := consoleClear { boot with video := { boot.video with stray := false } }

def Sheet.fresh (echo : Bool) : Sheet := ⟨fun _ => blank, 0, 0, 0, echo⟩

theorem opened_shows (boot : State) : Shows (opened boot) (Sheet.fresh boot.consoleLineEcho) :=
  consoleClear_shows _ (Sheet.fresh boot.consoleLineEcho) rfl rfl

theorem Shows.anchor {s : State} {r : Sheet} (h : Shows s r) :
    Shows { s with userCmdlineStart := s.cursor } { r with prompt := r.cursor } := by
  have hcur := h.cursor
  have habove := h.above
  refine ⟨⟨h.cells, hcur, ?_⟩, h.echo, h.hardware, h.inside, habove, h.below, le_rfl, h.rest⟩
  simp only
  omega

theorem Shows.run {s : State} {r : Sheet} (h : Shows s r) (n : ℕ) (op : Op) :
    ∃ s', op.run (n + 3) s = some s' ∧ Shows s' (op.follow r) := by
  cases op with
  | clear => exact ⟨_, rfl, consoleClear_shows s r h.inside h.echo⟩
  | putchar c => exact h.putchar n c
  | write str =>
    simp only [Op.run, consoleWrite_eq]
    exact h.putAll n (text str)
  | prompt =>
    obtain ⟨s', h1, hs⟩ := h.putAll n marker
    refine ⟨{ s' with userCmdlineStart := s'.cursor }, ?_, hs.anchor⟩
    have htext : kprintfText ⟨fun _ => 0, fun _ => []⟩ false 0 marker = marker := by decide
    simp only [Op.run, consolePrompt, kprintf, kprintfLoop_eq, htext, h1]
    rfl
  | kprintf fmt args =>
    simp only [Op.run, kprintf, kprintfLoop_eq]
    exact h.putAll n _
  | setEcho on =>
    exact ⟨_, rfl, ⟨⟨h.cells, h.cursor, h.start⟩, rfl, h.hardware, h.inside, h.above, h.below, h.prompt, h.rest⟩⟩

theorem Shows.runs {s : State} {r : Sheet} (h : Shows s r) (n : ℕ) (ops : List Op) :
    ∃ s', ops.foldlM (Op.run (n + 3)) s = some s' ∧ Shows s' (ops.foldl Op.follow r) := by
  induction ops generalizing s r with
  | nil => exact ⟨s, rfl, h⟩
  | cons op ops ih =>
    obtain ⟨s₁, h1, hs1⟩ := h.run n op
    obtain ⟨s', h2, hs2⟩ := ih hs1
    refine ⟨s', ?_, hs2⟩
    rw [List.foldlM_cons, h1]
    exact h2

/-- After `console_clear` and any calls, which all return, the screen is the window of
the sheet that the same calls leave. -/
theorem console_window (n : ℕ) (boot : State) (ops : List Op) :
    ∃ s, ops.foldlM (Op.run (n + 3)) (opened boot) = some s ∧
      Window s (ops.foldl Op.follow (Sheet.fresh boot.consoleLineEcho)) := by
  obtain ⟨s, h1, hs⟩ := (opened_shows boot).runs n ops
  exact ⟨s, h1, hs.toWindow⟩

/-- A backspace writes at most the cell before the cursor, which is not before the
anchor. -/
theorem eraseByte_keeps (s : State) {i : ℤ} (hi : i < s.userCmdlineStart) :
    (eraseByte s).video.cell i = s.video.cell i := by
  unfold eraseByte
  split_ifs with hgo
  · have hvideo : ∀ (pos : ℤ) (s : State), (consoleSetCursor pos s).video = s.video := fun _ _ => rfl
    simp only [hvideo]
    rw [Page.putCell_cell, if_neg (by omega)]
  · rfl

/-- After `console_clear` and any calls the anchor and the cursor are in order and in
the page, no byte was written outside it, the hardware cursor is the cursor, and a
backspace keeps the cells before the anchor. The calls nest three deep at most. -/
theorem console_bounds (n : ℕ) (boot : State) (ops : List Op) :
    ∃ s, ops.foldlM (Op.run (n + 3)) (opened boot) = some s ∧
      0 ≤ s.userCmdlineStart ∧ s.userCmdlineStart ≤ s.cursor ∧ s.cursor ≤ 1999 ∧
      s.video.stray = false ∧ (s.hardwareCursor : ℤ) = s.cursor ∧
      ∃ s', consolePutchar (n + 3) backspace s = some s' ∧
        ∀ i < s.userCmdlineStart, s'.video.cell i = s.video.cell i := by
  obtain ⟨s, h1, hs⟩ := (opened_shows boot).runs n ops
  have hcur := hs.cursor
  have hstart := hs.start
  have habove := hs.above
  have hbelow := hs.below
  have hprompt := hs.prompt
  refine ⟨s, h1, by omega, by omega, by omega, hs.inside, hs.hardware, eraseByte s, rfl, fun i hi => ?_⟩
  exact eraseByte_keeps s hi

end Novium.Console
