/-
Numerals: numbers as scripts write and print them.

A numeral is decimal or hexadecimal, an integer or a floating-point number, and
may stand between blanks and after a sign.  Hexadecimal integers wrap at 64 bits;
decimal integers that do not fit are floating-point numbers.  Integers print in
decimal and doubles with fourteen significant digits, with `.0` where the text
would read as an integer.

* `number?` — the number that a byte string spells;
* `printed` — the text of a number;
* `toInteger?`, `toFloat?` — the integer and the double that a value stands for,
  strings included.
-/
import StoryPack.Script.Value
import StoryPack.Number.Integral
import StoryPack.Number.Places

namespace StoryPack.Script.Numeral

open Bytes (byte)

/-- Space, tab, line feed, vertical tab, form feed and carriage return. -/
@[inline] def isBlank (c : UInt8) : Bool := c == 32 || (9 ≤ c && c ≤ 13)

/-- A decimal digit. -/
@[inline] def isDigit (c : UInt8) : Bool := 48 ≤ c && c ≤ 57

/-- The value of a hexadecimal digit, if the byte is one. -/
@[inline] def hexValue? (c : UInt8) : Option Nat := Bytes.hexValue? c

/-- The first position from `i` that holds no blank. -/
def blanks (b : ByteArray) (i : Nat) : Nat :=
  if h : i < b.size then if isBlank b[i] then blanks b (i + 1) else i else i
termination_by b.size - i

/-- A run of decimal digits appended to `n`: the number and the position after it. -/
def decimals (b : ByteArray) (i n : Nat) : Nat × Nat :=
  if h : i < b.size then
    if isDigit b[i] then decimals b (i + 1) (n * 10 + (b[i].toNat - 48)) else (n, i)
  else (n, i)
termination_by b.size - i

/-- A run of hexadecimal digits appended to `n`. -/
def hexadecimals (b : ByteArray) (i n : Nat) : Nat × Nat :=
  if h : i < b.size then
    match hexValue? b[i] with
    | some d => hexadecimals b (i + 1) (n * 16 + d)
    | none => (n, i)
  else (n, i)
termination_by b.size - i

/-- An optional sign: whether it is a minus, and the position after it. -/
def sign (b : ByteArray) (i : Nat) : Bool × Nat :=
  if byte b i == 45 then (true, i + 1)
  else if byte b i == 43 then (false, i + 1)
  else (false, i)

/-- Whether `0x` stands at a position. -/
def isHex (b : ByteArray) (i : Nat) : Bool :=
  byte b i == 48 && (byte b (i + 1) == 120 || byte b (i + 1) == 88)

/-- The integer that a byte string spells. -/
def integer? (b : ByteArray) : Option Int64 :=
  let (negative, i) := sign b (blanks b 0)
  let hex := isHex b i
  let start := if hex then i + 2 else i
  let (n, j) := if hex then hexadecimals b start 0 else decimals b start 0
  if j == start || blanks b j != b.size then none
  else if hex then
    some (Int64.ofInt (if negative then -(n : Int) else n))
  else int64? (if negative then -(n : Int) else n)

/-- An exponent after digits, when digits follow its mark: its value and the position after it. -/
def exponent (b : ByteArray) (i : Nat) (lower upper : UInt8) : Int × Nat :=
  if byte b i == lower || byte b i == upper then
    let (negative, j) := sign b (i + 1)
    let (e, k) := decimals b j 0
    if k == j then (0, i) else (if negative then -(e : Int) else e, k)
  else (0, i)

/-- The digits of a number with an optional point: the digits, how many stand after the point, how
many there are in all, and the position after them. -/
def pointed (b : ByteArray) (i : Nat) (run : ByteArray → Nat → Nat → Nat × Nat) :
    Nat × Nat × Nat × Nat :=
  let (n, j) := run b i 0
  if byte b j == 46 then
    let (m, k) := run b (j + 1) n
    (m, k - (j + 1), (j - i) + (k - (j + 1)), k)
  else (n, 0, j - i, j)

/-- The floating-point number that a byte string spells. -/
def float? (b : ByteArray) : Option Float :=
  let (negative, i) := sign b (blanks b 0)
  let (magnitude, stop) : Option Float × Nat :=
    if isHex b i then
      let (n, places, count, j) := pointed b (i + 2) hexadecimals
      if count == 0 then (none, i)
      else
        let (e, k) := exponent b j 112 80
        (some (Dyadic.toFloat ⟨false, n, e - 4 * (places : Int)⟩), k)
    else
      let (n, places, count, j) := pointed b i decimals
      if count == 0 then (none, i)
      else
        let (e, k) := exponent b j 101 69
        (some (floatOfDecimal n (e - (places : Int))), k)
  match magnitude with
  | some x => if blanks b stop == b.size then some (if negative then -x else x) else none
  | none => none

/-- The number that a byte string spells. -/
def number? (b : ByteArray) : Option Value :=
  match integer? b with
  | some i => some (.int i)
  | none => (float? b).map .float

/-- The text of a double: fourteen significant digits, and `.0` when it would read as an integer. -/
def printedFloat (x : Float) : String :=
  match Double.of x with
  | .nan => "-nan"
  | .infinite negative => if negative then "-inf" else "inf"
  | .finite d =>
    let s := (if d.negative then "-" else "") ++ Places.general d 14 false
    if s.toList.all (fun c => c.isDigit || c == '-') then s ++ ".0" else s

/-- The text of an integer. -/
def printedInt (i : Int64) : String := toString i.toInt

/-- The text of a number; `none` for other values. -/
def printed? : Value → Option ByteArray
  | .int i => some (printedInt i).toUTF8
  | .float x => some (printedFloat x).toUTF8
  | _ => none

/-- The integer that a double is, if it is one of 64 bits. -/
def floatToInteger? (x : Float) : Option Int64 := (integerOf? x).bind int64?

/-- The number that a value stands for: numbers, and strings that spell one. -/
def ofValue? : Value → Option Value
  | .int i => some (.int i)
  | .float x => some (.float x)
  | .str s => number? s
  | _ => none

/-- The integer that a value stands for. -/
def toInteger? (v : Value) : Option Int64 :=
  match ofValue? v with
  | some (.int i) => some i
  | some (.float x) => floatToInteger? x
  | _ => none

/-- The double that a value stands for. -/
def toFloat? (v : Value) : Option Float :=
  match ofValue? v with
  | some (.int i) => some (floatOfInt64 i)
  | some (.float x) => some x
  | _ => none

end StoryPack.Script.Numeral
