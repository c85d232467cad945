import Novium.Console.Sheet

/-! The console shows the window of the sheet. Each part of the driver is followed by
the same part of the reference, with the scroll where the window moves on. -/

namespace Novium.Console

/-- The cursor moved to a cell of the page, and nothing else that is on the screen. -/
structure Placed (s : State) (pos : ℤ) (s' : State) : Prop where
  cursor : s'.cursor = pos
  hardware : (s'.hardwareCursor : ℤ) = pos
  video : s'.video = s.video
  start : s'.userCmdlineStart = s.userCmdlineStart
  echo : s'.consoleLineEcho = s.consoleLineEcho

theorem hardwareCursor_update (pos : ℤ) (s : State) (h0 : 0 ≤ pos) (h1 : pos < 2000) :
    ((updateHardwareCursor pos s).hardwareCursor : ℤ) = pos := by
  have hlo : (updateHardwareCursor pos s).crtc 0x0F = UInt8.ofNat (pos % 256).toNat := rfl
  have hhi : (updateHardwareCursor pos s).crtc 0x0E = UInt8.ofNat (pos / 256 % 256).toNat := rfl
  rw [State.hardwareCursor, hlo, hhi, UInt8.toNat_ofNat', UInt8.toNat_ofNat']
  omega

theorem consoleSetCursor_placed (s : State) (pos : ℤ) (h0 : 0 ≤ pos) (h1 : pos < 2000) :
    Placed s pos (consoleSetCursor pos s) := by
  have hpos : (if pos < 0 then 0 else if pos ≥ consoleCells then consoleCells - 1 else pos) = pos := by
    have hcells : consoleCells = 2000 := by decide
    rw [if_neg (by omega), if_neg (by omega)]
  unfold consoleSetCursor
  simp only [hpos]
  exact ⟨rfl, hardwareCursor_update pos _ h0 h1, rfl, rfl, rfl⟩

/-- What a scroll leaves: the rows moved up, a blank last row with the cursor at its
start, and the anchor moved up with its row. -/
structure Scrolled (s s' : State) : Prop where
  cells : ∀ j : ℤ, 0 ≤ j → j < 2000 → s'.video.cell j = if j < 1920 then s.video.cell (j + 80) else blank
  stray : s'.video.stray = s.video.stray
  cursor : s'.cursor = 1920
  hardware : (s'.hardwareCursor : ℤ) = 1920
  start : s'.userCmdlineStart = max (s.userCmdlineStart - 80) 0
  echo : s'.consoleLineEcho = s.consoleLineEcho

theorem consoleScroll_scrolled (s : State) : Scrolled s (consoleScroll s) := by
  have hlast : consoleWidth * (consoleHeight - 1) = 1920 := by decide
  have hw : consoleWidth = 80 := rfl
  obtain ⟨hc, hh, hv, hs, he⟩ :=
    consoleSetCursor_placed { s with video := s.video.scrollUp } 1920 (by decide) (by decide)
  have hcells := fun (j : ℤ) (h0 : 0 ≤ j) (h1 : j < 2000) => s.video.scrollUp_cell h0 h1
  unfold consoleScroll
  simp only [hlast]
  simp only [hs, hw]
  by_cases hstart : s.userCmdlineStart ≥ 80
  · rw [if_pos hstart]
    exact ⟨by simpa only [hv] using hcells, by simp only [hv, Page.scrollUp_stray], hc, hh, by simp only; omega, he⟩
  · rw [if_neg hstart]
    exact ⟨by simpa only [hv] using hcells, by simp only [hv, Page.scrollUp_stray], hc, hh, by simp only; omega, he⟩

/-- The screen is rows `top .. top + 24` of the sheet. -/
structure Window (s : State) (r : Sheet) : Prop where
  cells : ∀ i : ℕ, i < 2000 → s.video.cell i = r.cells (80 * r.top + i)
  cursor : s.cursor = (r.cursor : ℤ) - 80 * r.top
  start : s.userCmdlineStart = max ((r.prompt : ℤ) - 80 * r.top) 0

/-- The window, with what keeps it one: the cursor is in it and not before the prompt,
and the sheet is blank below it. -/
structure Shows (s : State) (r : Sheet) : Prop extends Window s r where
  echo : s.consoleLineEcho = r.echo
  hardware : (s.hardwareCursor : ℤ) = s.cursor
  inside : s.video.stray = false
  above : 80 * r.top ≤ r.cursor
  below : r.cursor < 80 * (r.top + 25)
  prompt : r.prompt ≤ r.cursor
  rest : ∀ i, 80 * (r.top + 25) ≤ i → r.cells i = blank

section

variable {s : State} {r : Sheet}

theorem Shows.place {s' : State} (h : Shows s r) {pos : ℕ} (hp : Placed s (pos - 80 * r.top) s')
    (habove : 80 * r.top ≤ pos) (hbelow : pos < 80 * (r.top + 25)) (hprompt : r.prompt ≤ pos) :
    Shows s' { r with cursor := pos } where
  cells := by rw [hp.video]; exact h.cells
  cursor := hp.cursor
  start := hp.start.trans h.start
  echo := hp.echo.trans h.echo
  hardware := hp.hardware.trans hp.cursor.symm
  inside := by rw [hp.video]; exact h.inside
  above := habove
  below := hbelow
  prompt := hprompt
  rest := h.rest

theorem Shows.scroll {s' : State} (h : Shows s r) (hs : Scrolled s s') :
    Shows s' { r with cursor := 80 * (r.top + 25), top := r.top + 1 } where
  cells := by
    intro i hi
    show s'.video.cell i = r.cells (80 * (r.top + 1) + i)
    rw [hs.cells i (by omega) (by omega)]
    by_cases hlast : (i : ℤ) < 1920
    · have hold := h.cells (i + 80) (by omega)
      rw [if_pos hlast, show (i : ℤ) + 80 = ((i + 80 : ℕ) : ℤ) by omega, hold]
      exact congrArg r.cells (by omega)
    · rw [if_neg hlast]
      exact (h.rest _ (by omega)).symm
  cursor := by
    rw [hs.cursor]
    simp only
    omega
  start := by
    rw [hs.start, h.start]
    simp only
    omega
  echo := hs.echo.trans h.echo
  hardware := hs.hardware.trans hs.cursor.symm
  inside := hs.stray.trans h.inside
  above := by simp only; omega
  below := by simp only; omega
  prompt := le_trans h.prompt (le_of_lt h.below)
  rest := fun i hi => h.rest i (by simp only at hi; omega)

theorem Shows.putCell (h : Shows s r) {i : ℕ} (hi : 80 * r.top ≤ i) (hle : i ≤ r.cursor) (c : UInt8) :
    Shows { s with video := s.video.putCell (i - 80 * r.top) c }
      { r with cells := Function.update r.cells i (c, consoleAttribute) } where
  cells := by
    intro j hj
    rw [Page.putCell_cell]
    by_cases hji : (j : ℤ) = i - 80 * r.top
    · rw [if_pos hji]
      simp only
      rw [show 80 * r.top + j = i by omega, Function.update_self]
    · rw [if_neg hji]
      simp only
      rw [Function.update_of_ne (by omega)]
      exact h.cells j hj
  cursor := h.cursor
  start := h.start
  echo := h.echo
  hardware := h.hardware
  inside := by
    have hb := h.below
    rw [Page.putCell_stray (by omega) (by omega)]
    exact h.inside
  above := h.above
  below := h.below
  prompt := h.prompt
  rest := by
    intro j hj
    have hb := h.below
    simp only at hj ⊢
    rw [Function.update_of_ne (by omega)]
    exact h.rest j hj

theorem Shows.putByte (h : Shows s r) (c : UInt8) : Shows (putByte c s) (r.advance c) := by
  have hcells : consoleCells = 2000 := by decide
  have hcur := h.cursor
  have habove := h.above
  have hbelow := h.below
  have hput := h.putCell habove le_rfl c
  rw [← hcur] at hput
  unfold Console.putByte Sheet.advance Sheet.follow
  simp only [hcells]
  by_cases hlast : s.cursor + 1 ≥ 2000
  · rw [if_pos hlast, if_pos (by omega), show r.cursor + 1 = 80 * (r.top + 25) by omega]
    exact hput.scroll (consoleScroll_scrolled _)
  · have hpos : s.cursor + 1 = ((r.cursor + 1 : ℕ) : ℤ) - 80 * r.top := by omega
    rw [if_neg hlast, if_neg (by omega), hpos]
    refine hput.place (consoleSetCursor_placed _ _ ?_ ?_) ?_ ?_ (le_trans h.prompt (Nat.le_succ _))
    · simp only; omega
    · simp only; omega
    · simp only; omega
    · simp only; omega

theorem Shows.startLine (h : Shows s r) : Shows (startLine s) r.startLine := by
  have hcells : consoleCells = 2000 := by decide
  have hw : consoleWidth = 80 := rfl
  have hcur := h.cursor
  have habove := h.above
  have hbelow := h.below
  have hprompt := h.prompt
  have hnext : (s.cursor.tdiv 80 + 1) * 80 = (((r.cursor / 80 + 1) * 80 : ℕ) : ℤ) - 80 * r.top := by
    rw [Int.tdiv_eq_ediv_of_nonneg (by omega)]
    omega
  unfold Console.startLine Sheet.startLine Sheet.follow
  simp only [hcells, hw, hnext]
  by_cases hlast : (((r.cursor / 80 + 1) * 80 : ℕ) : ℤ) - 80 * r.top ≥ 2000
  · rw [if_pos hlast, if_pos (by omega), show (r.cursor / 80 + 1) * 80 = 80 * (r.top + 25) by omega]
    exact h.scroll (consoleScroll_scrolled s)
  · rw [if_neg hlast, if_neg (by omega)]
    refine h.place (consoleSetCursor_placed s _ ?_ ?_) ?_ ?_ ?_
    · omega
    · omega
    · omega
    · omega
    · omega

theorem Shows.eraseByte (h : Shows s r) : Shows (eraseByte s) r.erase := by
  have hcur := h.cursor
  have hstart := h.start
  have habove := h.above
  have hbelow := h.below
  have hprompt := h.prompt
  unfold Console.eraseByte Sheet.erase
  by_cases hgo : s.cursor > s.userCmdlineStart
  · rw [if_pos hgo, if_neg (by omega)]
    have hpos : s.cursor - 1 = ((r.cursor - 1 : ℕ) : ℤ) - 80 * r.top := by omega
    simp only [hpos]
    have hput := h.putCell (i := r.cursor - 1) (by omega) (by omega) space
    obtain ⟨hc, hh, hv, hs, he⟩ := consoleSetCursor_placed
      { s with
        video := s.video.putCell (((r.cursor - 1 : ℕ) : ℤ) - 80 * r.top) space
        cursor := ((r.cursor - 1 : ℕ) : ℤ) - 80 * r.top }
      (((r.cursor - 1 : ℕ) : ℤ) - 80 * r.top) (by omega) (by omega)
    refine hput.place ⟨hc, hh, hv, hs, he⟩ ?_ ?_ ?_
    · simp only; omega
    · simp only; omega
    · simp only; omega
  · rw [if_neg hgo, if_pos (by omega)]
    exact h

end

theorem consoleClear_shows (s : State) (r : Sheet) (hs : s.video.stray = false) (he : s.consoleLineEcho = r.echo) :
    Shows (consoleClear s) r.clear := by
  obtain ⟨hc, hh, hv, -, hecho⟩ := consoleSetCursor_placed
    (outb 0x3D5 0x0F (outb 0x3D4 0x0B (outb 0x3D5 0x0E (outb 0x3D4 0x0A { s with video := s.video.clear }))))
    0 (by decide) (by decide)
  have hvideo : (consoleClear s).video = s.video.clear := hv
  refine ⟨⟨fun i hi => ?_, hc, rfl⟩, hecho.trans he, hh.trans hc.symm, ?_, by simp [Sheet.clear], by simp [Sheet.clear],
    by simp [Sheet.clear], fun i _ => rfl⟩
  · rw [hvideo, Page.clear_cell _ (by omega) (by omega)]
    rfl
  · rw [hvideo, Page.clear_stray]
    exact hs

end Novium.Console
