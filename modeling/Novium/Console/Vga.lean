import Mathlib.Data.Int.Basic
import Mathlib.Logic.Function.Basic
import Mathlib.Tactic.Common

/-! `drivers/video/vga_console.c` with the parts of `lib/string.c` and `lib/stdio.c`
that it and its callers use. Video memory is the bytes at their distance from
`0xB8000`, of which the first 4000 are the text page; a store outside the page is
remembered in `stray`. `console_putchar` and `console_write` call each other: the
fuel is the depth of these calls, and `none` that it did not suffice. -/

namespace Novium.Console

def consoleWidth : ℤ := 80
def consoleHeight : ℤ := 25
def consoleCells : ℤ := consoleWidth * consoleHeight

def consoleAttribute : UInt8 := 0x07

def space : UInt8 := 0x20
def newline : UInt8 := 0x0a
def tab : UInt8 := 0x09
def backspace : UInt8 := 0x08

def marker : List UInt8 := [0x3e, 0x20]

structure Page where
  bytes : ℤ → UInt8
  /-- Some byte was written outside the text page. -/
  stray : Bool

namespace Page

def store (offset : ℤ) (b : UInt8) (p : Page) : Page :=
  { bytes := Function.update p.bytes offset b
    stray := p.stray || !decide (0 ≤ offset ∧ offset < 4000) }

/-- The two bytes of a cell. -/
def putCell (i : ℤ) (c : UInt8) (p : Page) : Page := (p.store (i * 2) c).store (i * 2 + 1) consoleAttribute

def memset (dest : ℤ) (c : UInt8) : ℕ → Page → Page
  | 0, p => p
  | len + 1, p => memset (dest + 1) c len (p.store dest c)

/-- `while (len--) *d++ = *s++` -/
def copyUp (d s : ℤ) : ℕ → Page → Page
  | 0, p => p
  | len + 1, p => copyUp (d + 1) (s + 1) len (p.store d (p.bytes s))

def copyDown (d s : ℤ) : ℕ → Page → Page
  | 0, p => p
  | len + 1, p => copyDown (d - 1) (s - 1) len (p.store (d - 1) (p.bytes (s - 1)))

def memmove (dest src : ℤ) (len : ℕ) (p : Page) : Page :=
  if dest < src then copyUp dest src len p
  else if dest > src then copyDown (dest + len) (src + len) len p
  else p

/-- The first `n` cells of the row that starts at the byte `row`. -/
def blankRow (row : ℤ) : ℕ → Page → Page
  | 0, p => p
  | n + 1, p => ((blankRow row n p).store (row + n * 2) space).store (row + n * 2 + 1) consoleAttribute

def scrollUp (p : Page) : Page := (p.memmove 0 (consoleWidth * 2) 3840).blankRow 3840 80

/-- The attributes of the first `n` cells. -/
def setAttributes : ℕ → Page → Page
  | 0, p => p
  | n + 1, p => (setAttributes n p).store (n * 2 + 1) consoleAttribute

def clear (p : Page) : Page := (p.memset 0 0x20 4000).setAttributes 2000

end Page

structure State where
  video : Page
  cursor : ℤ
  userCmdlineStart : ℤ
  consoleLineEcho : Bool
  /-- The register that port `0x3D4` has selected, and the registers of the controller. -/
  crtcIndex : UInt8
  crtc : UInt8 → UInt8

def outb (port : ℕ) (value : UInt8) (s : State) : State :=
  if port = 0x3D4 then { s with crtcIndex := value }
  else if port = 0x3D5 then { s with crtc := Function.update s.crtc s.crtcIndex value }
  else s

def updateHardwareCursor (pos : ℤ) (s : State) : State :=
  let s := outb 0x3D4 0x0F s
  let s := outb 0x3D5 (UInt8.ofNat (pos % 256).toNat) s
  let s := outb 0x3D4 0x0E s
  outb 0x3D5 (UInt8.ofNat (pos / 256 % 256).toNat) s

/-- Where the controller shows the cursor. -/
def State.hardwareCursor (s : State) : ℕ := (s.crtc 0x0E).toNat * 256 + (s.crtc 0x0F).toNat

def consoleSetCursor (position : ℤ) (s : State) : State :=
  let position := if position < 0 then 0 else if position ≥ consoleCells then consoleCells - 1 else position
  updateHardwareCursor position { s with cursor := position }

def consoleScroll (s : State) : State :=
  let s := consoleSetCursor (consoleWidth * (consoleHeight - 1)) { s with video := s.video.scrollUp }
  if s.userCmdlineStart ≥ consoleWidth then { s with userCmdlineStart := s.userCmdlineStart - consoleWidth }
  else { s with userCmdlineStart := 0 }

/-- `while (*str) console_putchar(*str++)`; the end of the list is a null byte too. -/
def writeLoop (put : UInt8 → State → Option State) : List UInt8 → State → Option State
  | [], s => some s
  | c :: str, s => if c = 0 then some s else (put c s).bind (writeLoop put str)

/-- The byte at the cursor, and the cursor behind it. -/
def putByte (c : UInt8) (s : State) : State :=
  let s := { s with video := s.video.putCell s.cursor c }
  if s.cursor + 1 ≥ consoleCells then consoleScroll s else consoleSetCursor (s.cursor + 1) s

def startLine (s : State) : State :=
  let next := (s.cursor.tdiv consoleWidth + 1) * consoleWidth
  if next ≥ consoleCells then consoleScroll s else consoleSetCursor next s

def eraseByte (s : State) : State :=
  if s.cursor > s.userCmdlineStart then
    let s := { s with cursor := s.cursor - 1 }
    let s := { s with video := s.video.putCell s.cursor space }
    consoleSetCursor s.cursor s
  else s

def consolePutchar : ℕ → UInt8 → State → Option State
  | 0, _, _ => none
  | n + 1, c, s =>
    if c = newline then some (startLine s)
    else if c = tab then
      (List.replicate 4 space).foldlM (fun s c => consolePutchar n c s) s
    else if c = backspace then some (eraseByte s)
    else
      let s := putByte c s
      if s.consoleLineEcho ∧ s.cursor.tmod consoleWidth = 0 then writeLoop (consolePutchar n) marker s
      else some s

def consoleWrite (n : ℕ) (str : List UInt8) (s : State) : Option State := writeLoop (consolePutchar n) str s

/-- The digits that `print_u32` collects, least significant first. -/
def u32Digits (base value : ℕ) : List ℕ :=
  if _h : 1 < base ∧ 0 < value / base then value % base :: u32Digits base (value / base) else [value % base]
termination_by value
decreasing_by
  have hv : 0 < value := Nat.pos_of_ne_zero fun e => by simp [e] at _h
  exact Nat.div_lt_self hv _h.1

def printU32 (n : ℕ) (value : BitVec 32) (base : ℕ) (digits : ℕ → UInt8) (s : State) : Option State :=
  ((u32Digits base value.toNat).map digits).reverse.foldlM (fun s c => consolePutchar n c s) s

def lowerDigits (d : ℕ) : UInt8 := if d < 10 then UInt8.ofNat (0x30 + d) else UInt8.ofNat (0x61 + (d - 10))
def upperDigits (d : ℕ) : UInt8 := if d < 10 then UInt8.ofNat (0x30 + d) else UInt8.ofNat (0x41 + (d - 10))

/-- The words behind the format on the stack, which `va_arg` takes in order, and the
strings that such a word may point to. -/
structure VaList where
  words : ℕ → BitVec 32
  strings : BitVec 32 → List UInt8

/-- One conversion; the number of words it takes is 1, or 0 where it prints a character
of the format. -/
def kprintfConversion (n : ℕ) (args : VaList) (i : ℕ) (c : UInt8) (s : State) : Option (State × ℕ) :=
  let value := args.words i
  if c = 0x63 then (consolePutchar n (UInt8.ofNat value.toNat) s).map (·, i + 1)
  else if c = 0x73 then (consoleWrite n (args.strings value) s).map (·, i + 1)
  else if c = 0x64 ∨ c = 0x69 then
    if value.toInt < 0 then do
      let s ← consolePutchar n 0x2d s
      (printU32 n (-value) 10 lowerDigits s).map (·, i + 1)
    else (printU32 n value 10 lowerDigits s).map (·, i + 1)
  else if c = 0x75 then (printU32 n value 10 lowerDigits s).map (·, i + 1)
  else if c = 0x78 then (printU32 n value 16 lowerDigits s).map (·, i + 1)
  else if c = 0x58 then (printU32 n value 16 upperDigits s).map (·, i + 1)
  else (consolePutchar n c s).map (·, i)

/-- The loop of `kprintf` from the `i`-th argument on; the flag says that the byte
before was the `%` of a conversion. -/
def kprintfLoop (n : ℕ) (args : VaList) : Bool → ℕ → List UInt8 → State → Option State
  | _, _, [], s => some s
  | false, i, c :: fmt, s =>
    if c = 0 then some s
    else if c = 0x25 then kprintfLoop n args true i fmt s
    else (consolePutchar n c s).bind (kprintfLoop n args false i fmt)
  | true, i, c :: fmt, s =>
    if c = 0 then some s
    else (kprintfConversion n args i c s).bind fun r => kprintfLoop n args false r.2 fmt r.1

def kprintf (n : ℕ) (fmt : List UInt8) (args : VaList) (s : State) : Option State := kprintfLoop n args false 0 fmt s

def consolePrompt (n : ℕ) (s : State) : Option State := do
  let s ← kprintf n marker ⟨fun _ => 0, fun _ => []⟩ s
  some { s with userCmdlineStart := s.cursor }

def consoleClear (s : State) : State :=
  let s := { s with video := s.video.clear }
  let s := outb 0x3D4 0x0A s
  let s := outb 0x3D5 0x0E s
  let s := outb 0x3D4 0x0B s
  let s := outb 0x3D5 0x0F s
  let s := consoleSetCursor 0 s
  { s with userCmdlineStart := 0 }

end Novium.Console
