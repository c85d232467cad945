import Mathlib.Data.List.Induction
import Mathlib.Data.List.Infix
import Novium.Shell.Task

/-! What the user can still change on the screen: the line behind the last prompt, key by key, and nothing before it. -/

namespace Novium.Shell

open Novium.Lib Novium.Input Novium.Console

section

variable {start r : Sheet} {keys : List UInt8}

/-- A line stands at the end of the sheet. -/
def Lined (r : Sheet) : Prop := ∃ (p : ℕ) (l : Line p) (before : ℕ → Cell), r = l.sheet before false

theorem Prompted.lined (h : Prompted r) : Lined r := by
  obtain ⟨-, l, -, hr⟩ := h
  exact ⟨r.prompt, l, r.cells, hr⟩

theorem Lined.typeKey (h : Lined r) (htidy : Tidy r) (c : UInt8) : Lined (typeKey r c) ∧ Grows r (typeKey r c) := by
  obtain ⟨p, l, before, rfl⟩ := h
  by_cases hc : c = newline
  · subst hc
    obtain ⟨hprompted, hgrows⟩ := typeKey_newline htidy rfl
    exact ⟨hprompted.lined, hgrows⟩
  · rw [typeKey_line l before hc]
    exact ⟨⟨p, _, before, rfl⟩, Nat.le_refl p, fun i hi =>
      ((l.edit c).sheet_before before false hi).trans (l.sheet_before before false hi).symm⟩

theorem greeting_prompted (h : Tidy start) (hecho : start.echo = false) : Prompted (start.putAll greeting).setPrompt := by
  have hlast : greeting = greeting.dropLast ++ [newline] := by decide
  have hrow : (start.putAll greeting).cursor = ((start.putAll greeting.dropLast).cursor / 80 + 1) * 80 := by
    have henter : start.putAll greeting = (start.putAll greeting.dropLast).startLine := by
      conv_lhs => rw [hlast, Sheet.putAll, List.foldl_append]
      rfl
    rw [henter]
    unfold Sheet.startLine Sheet.follow
    split_ifs <;> rfl
  exact (h.putAll greeting).prompted ((putAll_echo greeting).trans hecho) (by omega)

theorem typedSheet_tidy (h : Tidy start) (keys : List UInt8) : Tidy (typedSheet start keys) := by
  induction keys using List.reverseRecOn with
  | nil => exact (h.putAll greeting).setPrompt
  | append_singleton keys c ih =>
    rw [typedSheet_append]
    exact ih.calls (keyCalls c)

theorem typedSheet_lined (h : Tidy start) (hecho : start.echo = false) (keys : List UInt8) :
    Lined (typedSheet start keys) := by
  induction keys using List.reverseRecOn with
  | nil => exact (greeting_prompted h hecho).lined
  | append_singleton keys c ih =>
    rw [typedSheet_append]
    exact (ih.typeKey (typedSheet_tidy h keys) c).1

theorem typedSheet_grows (h : Tidy start) (hecho : start.echo = false) (keys more : List UInt8) :
    Grows (typedSheet start keys) (typedSheet start (keys ++ more)) := by
  induction more using List.reverseRecOn with
  | nil =>
    rw [List.append_nil]
    exact .refl _
  | append_singleton more c ih =>
    rw [← List.append_assoc, typedSheet_append]
    exact ih.trans ((typedSheet_lined h hecho _).typeKey (typedSheet_tidy h _) c).2

theorem typedSheet_prompted (h : Tidy start) (hecho : start.echo = false)
    (hkeys : keys = [] ∨ keys.getLast? = some newline) : Prompted (typedSheet start keys) := by
  obtain rfl | hlast := hkeys
  · exact greeting_prompted h hecho
  · obtain ⟨keys, rfl⟩ := List.getLast?_eq_some_iff.mp hlast
    rw [typedSheet_append]
    have hoff : (typedSheet start keys).echo = false := by
      obtain ⟨p, l, before, hline⟩ := typedSheet_lined h hecho keys
      rw [hline]
      rfl
    exact (typeKey_newline (typedSheet_tidy h keys) hoff).1

end

section

variable {boot : Console.State} {ops : List Op} {s s' : Terminal}

theorem started_tidy (boot : Console.State) (ops : List Op) : Tidy (started boot ops) := (fresh_tidy _).calls ops

theorem started_echo (h : (shellSystem boot ops).Reachable s) : (started boot ops).echo = false := by
  refine h.invariant (I := fun _ => (started boot ops).echo = false) (fun s₀ hinit => ?_) fun _ _ _ hs _ => hs
  obtain ⟨console, hrun, hshows⟩ := (opened_shows boot).runs 0 ops
  obtain rfl : console = s₀.console := Option.some.inj (hrun.symm.trans hinit.1)
  exact hshows.echo.symm.trans hinit.2.1

theorem keyboardPop_returned (k : Keyboard) : k.returned <+: (keyboardPop k).returned := by
  unfold keyboardPop
  split
  · split_ifs <;> exact List.prefix_rfl
  · exact List.prefix_rfl
  · exact List.prefix_append _ _

theorem shellTask_keyboard (h : shellTask s = some s') :
    s'.keyboard = s.keyboard ∨ s'.keyboard = keyboardPop s.keyboard := by
  have hcall : ∀ {op : Op} {pc : ShellPc}, s.call op pc = some s' → s'.keyboard = s.keyboard := by
    intro op pc h
    obtain ⟨console, -, rfl⟩ := Option.map_eq_some_iff.mp h
    rfl
  unfold shellTask at h
  split at h
  · exact .inl (hcall h)
  · exact .inl (hcall h)
  · cases h
    unfold Terminal.getchar
    split
    · split <;> exact .inr rfl
    · exact .inr rfl
  · cases h
    exact .inl rfl
  · cases h
    exact .inl rfl
  · exact .inl (hcall h)
  · exact .inl (hcall h)
  · exact .inl (hcall h)
  · cases h
    exact .inl rfl

theorem leads_returned {ok : Terminal → ShellEvent → Prop} (h : (shellSystem boot ops).Leads ok s s') :
    s.keyboard.returned <+: s'.keyboard.returned := by
  refine h.invariant (I := fun t => s.keyboard.returned <+: t.keyboard.returned) (fun t e t' ht _ hn => ?_) List.prefix_rfl
  cases e with
  | irq sc =>
    cases hn
    exact ht
  | step =>
    obtain hsame | hpop := shellTask_keyboard hn
    · rwa [hsame]
    · rw [hpop]
      exact ht.trans (keyboardPop_returned _)

theorem keysOf_append (xs ys : List UInt8) : keysOf xs <+: keysOf (xs ++ ys) := by
  induction ys using List.reverseRecOn with
  | nil => exact ⟨[], by rw [List.append_nil, List.append_nil]⟩
  | append_singleton ys y ih =>
    rw [← List.append_assoc, keysOf_snoc]
    exact ih.trans (List.prefix_append _ _)

/-- Whenever the task asks for a key, the keys since the last Enter stand behind the prompt of that Enter, which is at the
start of a row, as the line that they edit: the screen is the window of that line behind the sheet of the earlier keys. A
line of fewer than 78 bytes is what the keys without the erased ones make it. -/
theorem shell_line {before line : List UInt8} (h : (shellSystem boot ops).Reachable s) (hpc : s.pc = .getchar)
    (hkeys : keysOf s.keyboard.returned = before ++ line) (hbefore : before = [] ∨ before.getLast? = some newline)
    (hline : newline ∉ line) :
    (typedSheet (started boot ops) before).prompt % 80 = 2 ∧
      ∃ l : Line (typedSheet (started boot ops) before).prompt, l.text = [] ∧
        Window s.console ((line.foldl Line.edit l).sheet (typedSheet (started boot ops) before).cells false) ∧
        ((∀ begun, begun <+: line → (begun.foldl Line.plainEdit []).length < 78) →
          (line.foldl Line.edit l).text = line.foldl Line.plainEdit []) := by
  obtain ⟨hp, l, htext, hsheet⟩ := typedSheet_prompted (started_tidy boot ops) (started_echo h) hbefore
  have hwindow := (shell_inv h).window hpc
  have hedited : typedSheet (started boot ops) (before ++ line) =
      (line.foldl Line.edit l).sheet (typedSheet (started boot ops) before).cells false := by
    rw [typedSheet_append, ← typeKeys_line l _ hline, ← hsheet]
  rw [hkeys, hedited] at hwindow
  refine ⟨hp, l, htext, hwindow, fun hshort => ?_⟩
  have habove := l.above
  rw [htext, List.length_nil, Nat.add_zero] at habove
  rw [← htext] at hshort ⊢
  exact Line.edits_short hp habove hshort

/-- The letters h and i, of which the second is erased. -/
theorem shell_line_erased : ∃ (s : Terminal) (l : Line (typedSheet (started bootConsole []) []).prompt),
    s.keyboard.returned = [0x23, 0x17, 0x0e] ∧ l.text = [] ∧
      Window s.console (([0x68, 0x69, backspace].foldl Line.edit l).sheet (typedSheet (started bootConsole []) []).cells false) ∧
      ([0x68, 0x69, backspace].foldl Line.edit l).text = [0x68] := by
  obtain ⟨s₀, h₀, hwaits₀, hnone⟩ := exists_waiting
  obtain ⟨s₁, hlead₁, hinv₁, hwaits₁, hone⟩ := (shell_inv h₀).takes hwaits₀ 0x23
  obtain ⟨s₂, hlead₂, hinv₂, hwaits₂, htwo⟩ := hinv₁.takes hwaits₁ 0x17
  obtain ⟨s₃, hlead₃, -, hwaits₃, hthree⟩ := hinv₂.takes hwaits₂ 0x0e
  have hreturned : s₃.keyboard.returned = [0x23, 0x17, 0x0e] := by rw [hthree, htwo, hone, hnone]; rfl
  have hkeys : keysOf s₃.keyboard.returned = [] ++ [0x68, 0x69, backspace] := by rw [hreturned]; decide +kernel
  obtain ⟨-, l, hempty, hwindow, hshort⟩ :=
    shell_line ((hlead₁.trans (hlead₂.trans hlead₃)).reachableIf h₀) hwaits₃.1 hkeys (.inl rfl) (by decide)
  have hall : ∀ begun ∈ [0x68, 0x69, backspace].inits, (begun.foldl Line.plainEdit []).length < 78 := by decide
  exact ⟨s₃, l, hreturned, hempty, hwindow, hshort fun begun hbegun => hall begun ((List.mem_inits _ _).mpr hbegun)⟩

/-- From one time at which the task asks for a key to any later one, the prompt does not go back, and nothing that stands
before it on the sheet changes. -/
theorem shell_history (h : (shellSystem boot ops).Reachable s) (hpc : s.pc = .getchar)
    (hlead : (shellSystem boot ops).Leads (fun _ _ => True) s s') (hpc' : s'.pc = .getchar) :
    let r := typedSheet (started boot ops) (keysOf s.keyboard.returned)
    let r' := typedSheet (started boot ops) (keysOf s'.keyboard.returned)
    Window s.console r ∧ Window s'.console r' ∧ r.prompt ≤ r'.prompt ∧ ∀ i < r.prompt, r'.cells i = r.cells i := by
  obtain ⟨more, hmore⟩ := leads_returned hlead
  obtain ⟨keys, hkeys⟩ := keysOf_append s.keyboard.returned more
  have hgrows := typedSheet_grows (started_tidy boot ops) (started_echo h) (keysOf s.keyboard.returned) keys
  rw [hkeys, hmore] at hgrows
  exact ⟨(shell_inv h).window hpc, (shell_inv (hlead.reachableIf h)).window hpc', hgrows.prompt, hgrows.cells⟩

/-- An h, and then Enter and an i. -/
theorem shell_history_enter : ∃ s s' : Terminal, s.keyboard.returned = [0x23] ∧ s'.keyboard.returned = [0x23, 0x1c, 0x17] ∧
    Window s.console (typedSheet (started bootConsole []) [0x68]) ∧
      Window s'.console (typedSheet (started bootConsole []) [0x68, newline, 0x69]) ∧
      ∀ i < (typedSheet (started bootConsole []) [0x68]).prompt,
        (typedSheet (started bootConsole []) [0x68, newline, 0x69]).cells i =
          (typedSheet (started bootConsole []) [0x68]).cells i := by
  obtain ⟨s₀, h₀, hwaits₀, hnone⟩ := exists_waiting
  obtain ⟨s₁, hlead₁, hinv₁, hwaits₁, hone⟩ := (shell_inv h₀).takes hwaits₀ 0x23
  obtain ⟨s₂, hlead₂, hinv₂, hwaits₂, htwo⟩ := hinv₁.takes hwaits₁ 0x1c
  obtain ⟨s₃, hlead₃, -, hwaits₃, hthree⟩ := hinv₂.takes hwaits₂ 0x17
  have hreturned : s₁.keyboard.returned = [0x23] := by rw [hone, hnone]; rfl
  have hreturned' : s₃.keyboard.returned = [0x23, 0x1c, 0x17] := by rw [hthree, htwo, hreturned]; rfl
  have hkeys : keysOf [0x23] = [0x68] := by decide +kernel
  have hkeys' : keysOf [0x23, 0x1c, 0x17] = [0x68, newline, 0x69] := by decide +kernel
  obtain ⟨hwindow, hwindow', -, hcells⟩ :=
    shell_history (hlead₁.reachableIf h₀) hwaits₁.1 (hlead₂.trans hlead₃) hwaits₃.1
  rw [hreturned, hkeys] at hwindow hcells
  rw [hreturned', hkeys'] at hwindow' hcells
  exact ⟨s₁, s₃, hreturned, hreturned', hwindow, hwindow', hcells⟩

end

end Novium.Shell
