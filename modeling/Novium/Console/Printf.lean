import Novium.Console.Runs
import Novium.Lib.Word
import Mathlib.Data.Nat.Digits.Lemmas

/-! `kprintf` against a reference. Here `lib/stdio.c` is taken with the bounds of what it reads
and writes: a string ends with its null byte, `print_u32` has a buffer of 16 bytes, and `none`
is an access outside. A call comes to the bytes that it passes to `console_putchar`. -/

namespace Novium.Console

open Novium.Lib

def percent : UInt8 := 0x25

def decimalTable : List UInt8 := [0x30, 0x31, 0x32, 0x33, 0x34, 0x35, 0x36, 0x37, 0x38, 0x39]

def lowerTable : List UInt8 := decimalTable ++ [0x61, 0x62, 0x63, 0x64, 0x65, 0x66]

def upperTable : List UInt8 := decimalTable ++ [0x41, 0x42, 0x43, 0x44, 0x45, 0x46]

/-- The loop that fills the buffer, with the number of bytes that are left in it. -/
def fillDigits (base : ℕ) (digits : List UInt8) : ℕ → ℕ → List UInt8 → Option (List UInt8)
  | 0, _, _ => none
  | room + 1, value, buf => do
    let digit ← digits[value % base]?
    let buf := buf ++ [digit]
    if value / base > 0 then fillDigits base digits room (value / base) buf else some buf

/-- The buffer is printed from its end. -/
def printU32Bytes (value base : ℕ) (digits : List UInt8) : Option (List UInt8) :=
  (fillDigits base digits 16 value []).map List.reverse

def consoleWriteBytes : List UInt8 → Option (List UInt8)
  | [] => none
  | c :: str => if c = 0 then some [] else (consoleWriteBytes str).map (c :: ·)

/-- The bytes of one conversion, and the argument that is next. -/
def conversionBytes (args : VaList) (i : ℕ) (c : UInt8) : Option (List UInt8 × ℕ) :=
  let value := args.words i
  if c = 0x63 then some ([UInt8.ofNat value.toNat], i + 1)
  else if c = 0x73 then (consoleWriteBytes (args.strings value)).map (·, i + 1)
  else if c = 0x64 ∨ c = 0x69 then
    if value.toInt < 0 then
      (printU32Bytes (u32 ((-(value.toInt + 1)).toNat + 1)) 10 decimalTable).map (0x2d :: ·, i + 1)
    else (printU32Bytes value.toNat 10 decimalTable).map (·, i + 1)
  else if c = 0x75 then (printU32Bytes value.toNat 10 decimalTable).map (·, i + 1)
  else if c = 0x78 then (printU32Bytes value.toNat 16 lowerTable).map (·, i + 1)
  else if c = 0x58 then (printU32Bytes value.toNat 16 upperTable).map (·, i + 1)
  else if c = percent then some ([percent], i)
  else some ([c], i)

/-- The loop of `kprintf` at a place in the format. -/
def kprintfBytes (args : VaList) : ℕ → List UInt8 → Option (List UInt8)
  | _, [] => none
  | _, [c] => if c = 0 then some [] else none
  | i, c :: k :: fmt =>
    if c = 0 then some []
    else if c ≠ percent then (kprintfBytes args i (k :: fmt)).map (c :: ·)
    else if k = 0 then some []
    else do
      let (bytes, i) ← conversionBytes args i k
      (kprintfBytes args i fmt).map (bytes ++ ·)

/-- A byte of the format that stands for itself, or a conversion. -/
inductive Piece where
  | lit (c : UInt8)
  | conv (c : UInt8)
  deriving DecidableEq, Repr

/-- The format without its null byte; a `%` at the end is dropped. -/
def pieces : List UInt8 → List Piece
  | [] => []
  | [c] => if c = percent then [] else [.lit c]
  | c :: k :: fmt => if c = percent then .conv k :: pieces fmt else .lit c :: pieces (k :: fmt)

/-- The digits of a number, most significant first, and a single 0 for 0. -/
def numeral (base v : ℕ) : List ℕ := if v = 0 then [0] else (Nat.digits base v).reverse

structure Canonical (base v : ℕ) (ds : List ℕ) : Prop where
  digits : ∀ d ∈ ds, d < base
  value : Nat.ofDigits base ds.reverse = v
  shortest : ∀ rest, ds = 0 :: rest → rest = []
  nonempty : ds ≠ []

/-- The text of a conversion that takes an argument. -/
def argText (strings : BitVec 32 → List UInt8) (c : UInt8) (value : BitVec 32) : Option (List UInt8) :=
  if c = 0x63 then some [UInt8.ofNat value.toNat]
  else if c = 0x73 then some (text (strings value))
  else if c = 0x64 ∨ c = 0x69 then
    some ((if value.toInt < 0 then [0x2d] else []) ++ (numeral 10 value.toInt.natAbs).map lowerDigits)
  else if c = 0x75 then some ((numeral 10 value.toNat).map lowerDigits)
  else if c = 0x78 then some ((numeral 16 value.toNat).map lowerDigits)
  else if c = 0x58 then some ((numeral 16 value.toNat).map upperDigits)
  else none

/-- What the pieces come to, from the `i`-th argument on: any other conversion is its own character. -/
def expansion (args : VaList) : ℕ → List Piece → List UInt8
  | _, [] => []
  | i, .lit c :: ps => c :: expansion args i ps
  | i, .conv c :: ps =>
    match argText args.strings c (args.words i) with
    | some bytes => bytes ++ expansion args (i + 1) ps
    | none => c :: expansion args i ps

/-- The arguments that the `%s` of the pieces take are strings. -/
def StringArgs (args : VaList) : ℕ → List Piece → Prop
  | _, [] => True
  | i, .lit _ :: ps => StringArgs args i ps
  | i, .conv c :: ps =>
    (c = 0x73 → 0 ∈ args.strings (args.words i)) ∧
      StringArgs args (if (argText args.strings c (args.words i)).isSome then i + 1 else i) ps

theorem numeral_small {base v : ℕ} (h : v < base) : numeral base v = [v] := by
  unfold numeral
  split_ifs with h0
  · rw [h0]
  · rw [Nat.digits_of_lt base v h0 h, List.reverse_singleton]

theorem numeral_step {base v : ℕ} (hb : 1 < base) (h : 0 < v / base) :
    numeral base v = numeral base (v / base) ++ [v % base] := by
  have hv : 0 < v := Nat.pos_of_ne_zero fun e => by simp [e] at h
  unfold numeral
  rw [if_neg hv.ne', if_neg h.ne', Nat.digits_def' hb hv, List.reverse_cons]

theorem ofDigits_numeral (base v : ℕ) : Nat.ofDigits base (numeral base v).reverse = v := by
  unfold numeral
  split_ifs with h0
  · simp [h0]
  · rw [List.reverse_reverse, Nat.ofDigits_digits]

theorem numeral_canonical {base : ℕ} (hb : 1 < base) (v : ℕ) : Canonical base v (numeral base v) := by
  refine ⟨?_, ofDigits_numeral base v, ?_, ?_⟩
  · unfold numeral
    split_ifs
    · simp
      omega
    · intro d hd
      exact Nat.digits_lt_base hb (List.mem_reverse.mp hd)
  · unfold numeral
    split_ifs with h0
    · intro rest h
      simpa using h.symm
    · -- the first digit of the numeral is the last of `Nat.digits`
      intro rest h
      have hlast := Nat.getLast_digit_ne_zero base h0
      have hrev : Nat.digits base v = rest.reverse ++ [0] := by
        rw [← List.reverse_cons, ← h, List.reverse_reverse]
      simp only [hrev, List.getLast_append_singleton] at hlast
      exact absurd rfl hlast
  · unfold numeral
    split_ifs with h0
    · simp
    · simpa using Nat.digits_ne_nil_iff_ne_zero.mpr h0

theorem u32Digits_eq {base : ℕ} (hb : 1 < base) (v : ℕ) : u32Digits base v = (numeral base v).reverse := by
  induction v using Nat.strongRecOn with
  | ind v ih =>
    rw [u32Digits]
    by_cases h : 0 < v / base
    · have hv : 0 < v := Nat.pos_of_ne_zero fun e => by simp [e] at h
      rw [dif_pos ⟨hb, h⟩, ih _ (Nat.div_lt_self hv hb), numeral_step hb h]
      simp
    · have hlt : v < base := by
        by_contra hge
        exact h (Nat.div_pos (by omega) (by omega))
      rw [dif_neg (fun hh => h hh.2), numeral_small hlt, Nat.mod_eq_of_lt hlt, List.reverse_singleton]

theorem u32Text_eq {base : ℕ} (hb : 1 < base) (value : BitVec 32) (digit : ℕ → UInt8) :
    u32Text value base digit = (numeral base value.toNat).map digit := by
  rw [u32Text, u32Digits_eq hb, List.map_reverse, List.reverse_reverse]

/-- The table of digits is long enough for the base. -/
def Covers (digits : List UInt8) (base : ℕ) (digit : ℕ → UInt8) : Prop :=
  ∀ d < base, digits[d]? = some (digit d)

theorem decimalTable_covers : Covers decimalTable 10 lowerDigits := by
  unfold Covers
  decide

theorem lowerTable_covers : Covers lowerTable 16 lowerDigits := by
  unfold Covers
  decide

theorem upperTable_covers : Covers upperTable 16 upperDigits := by
  unfold Covers
  decide

/-- The room that is left must hold the digits that are left. -/
theorem fillDigits_eq {base : ℕ} (hb : 1 < base) {digits : List UInt8} {digit : ℕ → UInt8}
    (ht : Covers digits base digit) (room value : ℕ) (buf : List UInt8) (hv : value < base ^ room) (hr : 0 < room) :
    fillDigits base digits room value buf = some (buf ++ ((numeral base value).map digit).reverse) := by
  induction room generalizing value buf with
  | zero => omega
  | succ room ih =>
    have hd := ht (value % base) (Nat.mod_lt _ (by omega))
    simp only [fillDigits, hd, Option.bind_eq_bind, Option.bind_some]
    by_cases h : 0 < value / base
    · have hq : value / base < base ^ room := by
        apply Nat.div_lt_of_lt_mul
        rwa [pow_succ, Nat.mul_comm] at hv
      have hroom : 0 < room := by
        apply Nat.pos_of_ne_zero
        intro e
        simp only [e, pow_zero, Nat.lt_one_iff] at hq
        omega
      rw [if_pos h, ih _ _ hq hroom, numeral_step hb h]
      simp
    · have hlt : value < base := by
        by_contra hge
        exact h (Nat.div_pos (by omega) (by omega))
      rw [if_neg h, numeral_small hlt, Nat.mod_eq_of_lt hlt]
      simp

theorem printU32Bytes_eq {base : ℕ} (hb : 10 ≤ base) {digits : List UInt8} {digit : ℕ → UInt8}
    (ht : Covers digits base digit) {value : ℕ} (hv : value < 2 ^ 32) :
    printU32Bytes value base digits = some ((numeral base value).map digit) := by
  have hroom : value < base ^ 16 := by
    calc value < 10 ^ 16 := by omega
      _ ≤ base ^ 16 := Nat.pow_le_pow_left hb 16
  rw [printU32Bytes, fillDigits_eq (by omega) ht 16 value [] hroom (by omega)]
  simp

/-- The magnitude that `%d` prints; for the smallest value, `-(val + 1)` does not overflow. -/
theorem magnitude_eq {value : BitVec 32} (h : value.toInt < 0) :
    u32 ((-(value.toInt + 1)).toNat + 1) = value.toInt.natAbs ∧ (-value).toNat = value.toInt.natAbs := by
  have hlo := value.le_toInt
  have hi := BitVec.toInt_eq_toNat_cond value
  have hb := value.isLt
  constructor
  · unfold u32
    omega
  · rw [BitVec.toNat_neg]
    split_ifs at hi <;> omega

theorem consoleWriteBytes_eq {str : List UInt8} (h : 0 ∈ str) : consoleWriteBytes str = some (text str) := by
  induction str with
  | nil => simp at h
  | cons c str ih =>
    rw [consoleWriteBytes, text]
    by_cases hc : c = 0
    · simp [hc]
    · have hmem : 0 ∈ str := by simpa [Ne.symm hc] using h
      rw [if_neg hc, List.takeWhile_cons_of_pos (by simpa using hc), ih hmem]
      rfl

theorem conversionText_eq (args : VaList) (i : ℕ) (c : UInt8) :
    conversionText args i c =
      match argText args.strings c (args.words i) with
      | some bytes => (bytes, i + 1)
      | none => ([c], i) := by
  unfold conversionText argText
  simp only [u32Text_eq (show 1 < 10 by decide), u32Text_eq (show 1 < 16 by decide)]
  split_ifs with hc hs hd hneg
  · rfl
  · rfl
  · rw [(magnitude_eq hneg).2]
    rfl
  · have hnat : (args.words i).toInt.natAbs = (args.words i).toNat := by
      have hi := BitVec.toInt_eq_toNat_cond (args.words i)
      have hb := (args.words i).isLt
      split_ifs at hi <;> omega
    rw [hnat]
    rfl
  · rfl
  · rfl
  · rfl
  · rfl

theorem conversionBytes_eq (args : VaList) (i : ℕ) (c : UInt8)
    (hs : c = 0x73 → 0 ∈ args.strings (args.words i)) :
    conversionBytes args i c = some (conversionText args i c) := by
  have hlt := (args.words i).isLt
  unfold conversionBytes conversionText
  simp only [u32Text_eq (show 1 < 10 by decide), u32Text_eq (show 1 < 16 by decide)]
  split_ifs with hc hstr hd hneg hu hx hX hp
  · rfl
  · rw [consoleWriteBytes_eq (hs hstr)]
    rfl
  · have hmag := magnitude_eq hneg
    have hsmall : (-args.words i).toNat < 2 ^ 32 := (-args.words i).isLt
    rw [hmag.1, ← hmag.2, printU32Bytes_eq (by decide) decimalTable_covers hsmall]
    rfl
  · rw [printU32Bytes_eq (by decide) decimalTable_covers hlt]
    rfl
  · rw [printU32Bytes_eq (by decide) decimalTable_covers hlt]
    rfl
  · rw [printU32Bytes_eq (by decide) lowerTable_covers hlt]
    rfl
  · rw [printU32Bytes_eq (by decide) upperTable_covers hlt]
    rfl
  · rw [hp]
  · rfl

variable {args : VaList}

theorem expansion_conv (i : ℕ) (c : UInt8) (ps : List Piece) :
    expansion args i (.conv c :: ps) =
      (conversionText args i c).1 ++ expansion args (conversionText args i c).2 ps := by
  rw [expansion, conversionText_eq]
  cases argText args.strings c (args.words i) <;> rfl

theorem StringArgs.conv {i : ℕ} {c : UInt8} {ps : List Piece} (h : StringArgs args i (.conv c :: ps)) :
    (c = 0x73 → 0 ∈ args.strings (args.words i)) ∧ StringArgs args (conversionText args i c).2 ps := by
  refine ⟨h.1, ?_⟩
  have hrest := h.2
  rw [conversionText_eq]
  cases he : argText args.strings c (args.words i) <;> simpa [he] using hrest

theorem kprintfBytes_eq (fmt : List UInt8) (i : ℕ) (hfmt : 0 ∉ fmt) (hstr : StringArgs args i (pieces fmt)) :
    kprintfBytes args i (fmt ++ [0]) = some (expansion args i (pieces fmt)) := by
  induction fmt using pieces.induct generalizing i with
  | case1 => rfl
  | case2 => rfl
  | case3 c hc =>
    have h0 : c ≠ 0 := by simpa [eq_comm] using hfmt
    simp [kprintfBytes, pieces, expansion, hc, h0]
  | case4 k fmt ih =>
    simp only [List.mem_cons, not_or] at hfmt
    simp only [pieces, if_true] at hstr ⊢
    obtain ⟨hs, hrest⟩ := hstr.conv
    have htail := ih (conversionText args i k).2 hfmt.2.2 hrest
    simp only [List.cons_append, kprintfBytes]
    rw [if_neg (by decide), if_neg (by simp), if_neg (Ne.symm hfmt.2.1), conversionBytes_eq args i k hs]
    simp [htail, expansion_conv]
  | case5 c k fmt hc ih =>
    simp only [List.mem_cons, not_or] at hfmt
    simp only [pieces, if_neg hc] at hstr ⊢
    have htail := ih i (by simpa using hfmt.2) hstr
    simp only [List.cons_append] at htail ⊢
    rw [kprintfBytes, if_neg (Ne.symm hfmt.1), if_pos hc, htail]
    rfl

theorem kprintfText_eq (fmt rest : List UInt8) (i : ℕ) (hfmt : 0 ∉ fmt) :
    kprintfText args false i (fmt ++ 0 :: rest) = expansion args i (pieces fmt) := by
  induction fmt using pieces.induct generalizing i with
  | case1 => rfl
  | case2 => rfl
  | case3 c hc =>
    have h0 : c ≠ 0 := by simpa [eq_comm] using hfmt
    have hp : c ≠ 0x25 := hc
    simp [kprintfText, pieces, expansion, hc, hp, h0]
  | case4 k fmt ih =>
    simp only [List.mem_cons, not_or] at hfmt
    simp only [pieces, if_true, List.cons_append, kprintfText]
    rw [if_neg (by decide), if_pos (show percent = 0x25 from rfl), if_neg (Ne.symm hfmt.2.1), ih _ hfmt.2.2,
      expansion_conv]
  | case5 c k fmt hc ih =>
    simp only [List.mem_cons, not_or] at hfmt
    have hp : c ≠ 0x25 := hc
    simp only [pieces, if_neg hc]
    rw [List.cons_append, kprintfText, if_neg (Ne.symm hfmt.1), if_neg hp, ih i (by simpa using hfmt.2)]
    rfl

/-- `kprintf` prints the expansion of its format. Every read is in the format or in an argument,
and the numerals, which are the canonical ones, fit the buffer. -/
theorem kprintf_reference (args : VaList) (fmt : List UInt8) (hfmt : 0 ∉ fmt)
    (hstr : StringArgs args 0 (pieces fmt)) :
    kprintfBytes args 0 (fmt ++ [0]) = some (expansion args 0 (pieces fmt)) ∧
      (∀ (rest : List UInt8) (n : ℕ) (s : State),
        kprintf n (fmt ++ 0 :: rest) args s = putAll n (expansion args 0 (pieces fmt)) s) ∧
      ∀ v, Canonical 10 v (numeral 10 v) ∧ Canonical 16 v (numeral 16 v) := by
  refine ⟨kprintfBytes_eq fmt 0 hfmt hstr, ?_, fun v => ?_⟩
  · intro rest n s
    rw [kprintf, kprintfLoop_eq, kprintfText_eq fmt rest 0 hfmt]
  · exact ⟨numeral_canonical (by decide) v, numeral_canonical (by decide) v⟩

/-- `kprintf("%d:%s%%%", -2147483648, "ok")` -/
theorem kprintf_reference_min :
    let args : VaList := ⟨fun i => if i = 0 then 0x80000000 else 0x1000, fun _ => [0x6f, 0x6b, 0, 0x21]⟩
    let fmt : List UInt8 := [0x25, 0x64, 0x3a, 0x25, 0x73, 0x25, 0x25, 0x25]
    kprintfBytes args 0 (fmt ++ [0]) = some (expansion args 0 (pieces fmt)) ∧
      expansion args 0 (pieces fmt) =
        [0x2d, 0x32, 0x31, 0x34, 0x37, 0x34, 0x38, 0x33, 0x36, 0x34, 0x38, 0x3a, 0x6f, 0x6b, 0x25] := by
  intro args fmt
  have h := (kprintf_reference args fmt (by decide) (by simp [fmt, pieces, StringArgs, percent, args])).1
  refine ⟨h, Option.some.inj (h.symm.trans ?_)⟩
  decide +kernel

end Novium.Console
