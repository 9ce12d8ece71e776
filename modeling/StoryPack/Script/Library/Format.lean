/-
Formatted text.

A format is a byte string with directives.  A directive has flags, a width and a
precision, and ends with the letter of a conversion; each letter allows some of
the flags.

* `Format.Directive` — a directive taken apart;
* `Format.apply` — what `string.format` gives.
-/
import StoryPack.Script.Library.Argument
import StoryPack.Number.Places

namespace StoryPack.Script.Format

open Bytes (byte)
open StoryPack.Script.Action

/-- The flags, the width and the precision of a directive. -/
structure Directive where
  left : Bool := false
  plus : Bool := false
  space : Bool := false
  alternate : Bool := false
  zero : Bool := false
  width : Nat := 0
  precision : Option Nat := none

/-- Whether a byte may stand between the percent sign and the letter. -/
def isModifier (c : UInt8) : Bool :=
  c == 45 || c == 43 || c == 32 || c == 35 || c == 46 || (48 ≤ c && c ≤ 57)

/-- How many modifiers stand at a position. -/
def modifiers (f : ByteArray) (i n : Nat) : Nat :=
  if h : i + n < f.size then if isModifier f[i + n] then modifiers f i (n + 1) else n else n
termination_by f.size - (i + n)
decreasing_by omega

/-- Reads flags out of those allowed. -/
def flags (spec : ByteArray) (allowed : List UInt8) : (fuel : Nat) → Nat → Directive →
    Nat × Directive
  | 0, i, d => (i, d)
  | fuel + 1, i, d =>
    let c := byte spec i
    if i < spec.size && allowed.contains c then
      flags spec allowed fuel (i + 1)
        (if c == 45 then { d with left := true }
        else if c == 43 then { d with plus := true }
        else if c == 32 then { d with space := true }
        else if c == 35 then { d with alternate := true }
        else { d with zero := true })
    else (i, d)

/-- Reads at most two digits. -/
def twoDigits (spec : ByteArray) (i : Nat) : Nat × Nat :=
  let digit (k : Nat) : Bool := 48 ≤ byte spec k && byte spec k ≤ 57
  if digit i then
    let n := (byte spec i).toNat - 48
    if digit (i + 1) then (n * 10 + ((byte spec (i + 1)).toNat - 48), i + 2) else (n, i + 1)
  else (0, i)

/-- Takes a directive apart, from after its percent sign to its letter; `none` when it is not in
order. -/
def parse? (spec : ByteArray) (allowed : List UInt8) (precise : Bool) : Option Directive :=
  let (i, d) := flags spec allowed (spec.size + 1) 0 {}
  let (i, d) : Nat × Directive :=
    if byte spec i == 48 then (i, d)
    else
      let (w, i) := twoDigits spec i
      let d := { d with width := w }
      if byte spec i == 46 && precise then
        let (p, i) := twoDigits spec (i + 1)
        (i, { d with precision := some p })
      else (i, d)
  let c := byte spec i
  if (65 ≤ c && c ≤ 90) || (97 ≤ c && c ≤ 122) then some d else none

/-- Pads a text to the width of a directive; zeros come after the sign. -/
def pad (d : Directive) (lead body : String) (zeros : Bool) : String :=
  let n := lead.length + body.length
  if n ≥ d.width then lead ++ body
  else
    let fill := d.width - n
    if d.left then lead ++ body ++ String.ofList (List.replicate fill ' ')
    else if zeros && d.zero then lead ++ String.ofList (List.replicate fill '0') ++ body
    else String.ofList (List.replicate fill ' ') ++ lead ++ body

/-- The sign of a number. -/
def signText (d : Directive) (negative : Bool) : String :=
  if negative then "-" else if d.plus then "+" else if d.space then " " else ""

/-- Digits brought to the precision; zero has no digits at precision zero. -/
def digitsText (d : Directive) (digits : String) : String :=
  match d.precision with
  | some 0 => if digits == "0" then "" else digits
  | some p => Places.zeros (p - digits.length) ++ digits
  | none => digits

/-- A number in octal digits. -/
def octal (n : Nat) : String := String.ofList (Nat.toDigits 8 n)

/-- An integer by its letter. -/
def integerText (d : Directive) (letter : UInt8) (i : Int64) : String :=
  let zeros := d.precision.isNone
  if letter == 100 || letter == 105 then
    pad d (signText d (i < 0)) (digitsText d (toString i.toInt.natAbs)) zeros
  else
    let n := i.toUInt64.toNat
    if letter == 117 then pad d "" (digitsText d (toString n)) zeros
    else if letter == 111 then
      let s := digitsText d (octal n)
      let s := if d.alternate && !s.startsWith "0" then "0" ++ s else s
      pad d "" s zeros
    else
      let s := digitsText d (Bytes.hexNat n 1)
      let lead := if d.alternate && n != 0 then "0x" else ""
      if letter == 88 then pad d lead.toUpper s.toUpper zeros else pad d lead s zeros

/-- A double by its letter. -/
def floatText (d : Directive) (letter : UInt8) (x : Float) : String :=
  let upper := 65 ≤ letter && letter ≤ 90
  let up (s : String) : String := if upper then s.toUpper else s
  match Double.of x with
  | .nan => pad { d with zero := false } (signText d true) (up "nan") false
  | .infinite negative => pad { d with zero := false } (signText d negative) (up "inf") false
  | .finite v =>
    let places := d.precision.getD 6
    let lower := if upper then letter + 32 else letter
    let body :=
      if lower == 102 then Places.fixed v places d.alternate
      else if lower == 101 then Places.scientific v places d.alternate
      else if lower == 103 then Places.general v places d.alternate
      else Places.hexadecimal v d.precision d.alternate
    if lower == 97 then
      -- the leading 0x stands before padding zeros
      let rest := String.ofList (body.toList.drop 2)
      pad d (up (signText d v.negative ++ "0x")) (up rest) true
    else pad d (signText d v.negative) (up body) true

/-- A byte in quotes. -/
def quotedByte (c : UInt8) (next : UInt8) : List UInt8 :=
  if c == 34 || c == 92 || c == 10 then [92, c]
  else if c < 32 || c == 127 then
    let digits := toString c.toNat
    let digits :=
      if 48 ≤ next && next ≤ 57 then Places.padded c.toNat 3 else digits
    92 :: digits.toUTF8.toList
  else [c]

/-- A string in quotes. -/
def quoted (s : ByteArray) : ByteArray :=
  let body := s.size.fold (fun i _ (acc : ByteArray) =>
    (quotedByte (byte s i) (if i + 1 < s.size then byte s (i + 1) else 0)).foldl ByteArray.push acc)
    (Bytes.single 34)
  body.push 34

/-- A value as a literal that reads back. -/
def literal (v : Value) (n : Nat) : Action ByteArray :=
  match v with
  | .str s => pure (quoted s)
  | .int i =>
    pure (if i == Int64.minValue then "0x8000000000000000" else toString i.toInt).toUTF8
  | .float x =>
    pure (match Double.of x with
      | .nan => "(0/0)"
      | .infinite negative => if negative then "-1e9999" else "1e9999"
      | .finite _ => floatText {} 97 x).toUTF8
  | .nil => pure "nil".toUTF8
  | .bool b => pure (if b then "true" else "false").toUTF8
  | _ => badArgument n "value has no literal form"

/-- A byte string padded with blanks. -/
def padBytes (d : Directive) (b : ByteArray) : ByteArray :=
  if b.size ≥ d.width then b
  else
    let fill := Bytes.replicate (d.width - b.size) 32
    if d.left then b ++ fill else fill ++ b

/-- Fails because a directive is not in order. -/
def badDirective {α : Type} (spec : ByteArray) : Action α :=
  fail (.located 1 ("invalid conversion specification: '%".toUTF8 ++ spec ++ "'".toUTF8))

/-- The flags `-+ #0`. -/
def floatFlags : List UInt8 := [45, 43, 32, 35, 48]

/-- One directive, whose text after the percent sign is `spec`, applied to argument `n`. -/
def directive (args : List Value) (n : Nat) (spec : ByteArray) (letter : UInt8) :
    Action ByteArray := do
  let take (allowed : List UInt8) (precise : Bool) : Action Directive :=
    match parse? spec allowed precise with
    | some d => pure d
    | none => badDirective spec
  if letter == 99 then do
    let i ← Argument.integer args n
    let d ← take [45] false
    pure (padBytes d (Bytes.single i.toUInt64.toUInt8))
  else if letter == 100 || letter == 105 || letter == 117 || letter == 111 || letter == 120 ||
      letter == 88 then do
    let i ← Argument.integer args n
    let d ← take
      (if letter == 100 || letter == 105 then [45, 43, 48, 32]
      else if letter == 117 then [45, 48] else [45, 35, 48]) true
    pure (integerText d letter i).toUTF8
  else if [97, 65, 102, 101, 69, 103, 71].contains letter then do
    let x ← Argument.number args n
    let d ← take floatFlags true
    pure (floatText d letter x).toUTF8
  else if letter == 112 then do
    let d ← take [45] false
    let v := Argument.get args n
    let place ← read fun h => h.place v
    let s :=
      match v with
      | .table _ | .function _ | .fault _ => "0x" ++ Bytes.hexNat place 12
      | .str b => "0x" ++ Bytes.hexNat (0x562000000000 + (hash b).toNat % 0x100000 * 16) 12
      | _ => "(null)"
    pure (padBytes d s.toUTF8)
  else if letter == 113 then
    if spec.size > 1 then raise "specifier '%q' cannot have modifiers"
    else literal (Argument.get args n) n
  else if letter == 115 then do
    let s ← Operation.shown (Argument.get args n)
    if spec.size == 1 then pure s
    else
      Argument.check (Bytes.indexOf? s (· == 0) 0).isNone n "string contains zeros"
      let d ← take [45] true
      if d.precision.isNone && (Bytes.indexOf? spec (· == 46) 0).isNone && s.size ≥ 100 then pure s
      else pure (padBytes d (match d.precision with | some p => s.extract 0 p | none => s))
  else
    fail (.located 1 ("invalid conversion '%".toUTF8 ++ spec ++ "' to 'format'".toUTF8))

/-- Goes through a format from position `i` on; `n` arguments have been used. -/
def go (args : List Value) (f : ByteArray) : (fuel : Nat) → (i n : Nat) → ByteArray →
    Action ByteArray
  | 0, _, _, acc => pure acc
  | fuel + 1, i, n, acc =>
    if i ≥ f.size then pure acc
    else if byte f i != 37 then go args f fuel (i + 1) n (acc.push (byte f i))
    else if byte f (i + 1) == 37 then go args f fuel (i + 2) n (acc.push 37)
    else do
      let n := n + 1
      if n > args.length then badArgument n "no value"
      else
        let count := modifiers f (i + 1) 0
        if count + 1 ≥ 22 then raise "invalid format string to 'format'"
        else
          let spec := f.extract (i + 1) (i + 1 + count + 1)
          let piece ← directive args n spec (byte f (i + 1 + count))
          go args f fuel (i + 1 + count + 1) n (acc ++ piece)

/-- Formats the arguments after the first by the first. -/
def apply (args : List Value) : Action (List Value) := do
  let f ← Argument.string args 1
  let s ← go args f (f.size + 1) 0 1 ByteArray.empty
  pure [← string s]

end StoryPack.Script.Format
