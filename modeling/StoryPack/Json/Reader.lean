/-
Reading JSON.

A reader takes the bytes and a position and gives a result and the position
after it, or a fault of one of three kinds: the text is malformed, it ends too
early, or it is well formed and unfit for what is read.  The first fault that
the left-to-right reading meets is the one reported.

* `Json.read` — one value, nested at most as deep as asked;
* `Json.skip` — passes over one value of any depth, whose numbers may lie out of
  range and whose text need not be UTF-8;
* `Json.number` — a number: an integer below 2^64 in magnitude rules, otherwise
  a double got from at most nineteen digits by powers of ten.
-/
import StoryPack.Json.Basic
import StoryPack.Text.Utf8

namespace StoryPack.Json

/-- The three kinds of fault. -/
inductive Fault where
  /-- The text breaks the grammar. -/
  | malformed
  /-- The text ends before the value does. -/
  | truncated
  /-- A well-formed value has the wrong type or range, or a field comes twice. -/
  | unfit
deriving Repr, DecidableEq

/-- The category name of a fault. -/
def Fault.category : Fault → String
  | .malformed => "syntax"
  | .truncated => "eof"
  | .unfit => "data"

/-- The byte at a position; `0` stands for the end. -/
@[inline] def peek (b : ByteArray) (i : Nat) : UInt8 := Bytes.byte b i

/-- Space, tab, line feed and carriage return. -/
def isBlank (c : UInt8) : Bool := c == 32 || c == 10 || c == 9 || c == 13

/-- The first position from `i` that holds no blank. -/
def blanks (b : ByteArray) (i : Nat) : Nat :=
  if h : i < b.size then if isBlank b[i] then blanks b (i + 1) else i else i
termination_by b.size - i

/-- A decimal digit. -/
@[inline] def isDigit (c : UInt8) : Bool := 48 ≤ c && c ≤ 57

/-- The rest of a word such as `null`. -/
def word (b : ByteArray) (i : Nat) : List Char → Except Fault Nat
  | [] => .ok i
  | c :: rest =>
    if i ≥ b.size then .error .truncated
    else if (peek b i).toNat == c.toNat then word b (i + 1) rest
    else .error .malformed

/-! ### Numbers -/

/-- A number as read. -/
inductive Number where
  | int (i : Int)
  | float (x : Float)

/-- The double nearest to `10^n`. -/
def powerOfTen (n : Nat) : Float := floatOfDecimal 1 n

/-- `significand · 10^e` by multiplying or dividing by powers of ten; too large is malformed. -/
def scaleByTen (significand : Nat) (e : Int) : Except Fault Float :=
  go 20 (UInt64.ofNat significand).toFloat e
where
  go : Nat → Float → Int → Except Fault Float
    | 0, f, _ => .ok f
    | fuel + 1, f, e =>
      if e.natAbs ≤ 308 then
        if 0 ≤ e then
          let g := f * powerOfTen e.natAbs
          if g.isInf then .error .malformed else .ok g
        else .ok (f / powerOfTen e.natAbs)
      else if f == 0.0 then .ok f
      else if 0 ≤ e then .error .malformed
      else go fuel (f / powerOfTen 308) (e + 308)

/-- The first position from `i` that holds no digit. -/
def digitsEnd (b : ByteArray) (i : Nat) : Nat :=
  if h : i < b.size then if isDigit b[i] then digitsEnd b (i + 1) else i else i
termination_by b.size - i

/-- Whether `n · 10 + d` fits 64 bits. -/
@[inline] def fits (n d : Nat) : Bool := n * 10 + d < 0x10000000000000000

/-- Takes digits while the number fits 64 bits: the number, and how many digits it took. -/
def takeDigits (b : ByteArray) (i : Nat) (n count : Nat) : Nat × Nat × Nat :=
  if h : i < b.size then
    if isDigit b[i] then
      let d := b[i].toNat - 48
      if fits n d then takeDigits b (i + 1) (n * 10 + d) (count + 1) else (n, count, i)
    else (n, count, i)
  else (n, count, i)
termination_by b.size - i

/-- Gives a sign to a double. -/
def signed (negative : Bool) (x : Float) : Float := if negative then -x else x

/-- The largest exponent that is counted exactly. -/
def exponentCap : Nat := 0x7fffffff

/-- The digits of an exponent as a number, `none` when past the cap. -/
def takeExponent (b : ByteArray) (i : Nat) (n : Nat) : Option Nat :=
  if h : i < b.size then
    if isDigit b[i] then
      let n' := n * 10 + (b[i].toNat - 48)
      if n' > exponentCap then none else takeExponent b (i + 1) n'
    else some n
  else some n
termination_by b.size - i

/-- An exponent, from its `e` on. -/
def exponent (b : ByteArray) (i : Nat) (negative : Bool) (significand : Nat) (start : Int) :
    Except Fault (Float × Nat) :=
  let i := i + 1
  let minus := peek b i == 45
  let i := if minus || peek b i == 43 then i + 1 else i
  if i ≥ b.size then .error .truncated
  else if !isDigit (peek b i) then .error .malformed
  else
    let stop := digitsEnd b i
    match takeExponent b i 0 with
    | none =>
      if significand != 0 && !minus then .error .malformed
      else .ok (signed negative 0.0, stop)
    | some e => do
      let x ← scaleByTen significand (if minus then start - e else start + e)
      .ok (signed negative x, stop)

/-- An optional exponent after digits. -/
def afterDigits (b : ByteArray) (i : Nat) (negative : Bool) (significand : Nat) (e : Int) :
    Except Fault (Float × Nat) :=
  if peek b i == 101 || peek b i == 69 then exponent b i negative significand e
  else do
    let x ← scaleByTen significand e
    .ok (signed negative x, i)

/-- Places, from the point on. -/
def places (b : ByteArray) (i : Nat) (negative : Bool) (significand : Nat) (e : Int) :
    Except Fault (Float × Nat) :=
  let i := i + 1
  let (n, count, j) := takeDigits b i significand 0
  if isDigit (peek b j) then
    -- the next digit would not fit: the rest is ignored
    afterDigits b (digitsEnd b j) negative n (e - count)
  else if count == 0 then
    if i < b.size then .error .malformed else .error .truncated
  else afterDigits b j negative n (e - count)

/-- What follows the digits of the integer part. -/
def afterInteger (b : ByteArray) (i : Nat) (negative : Bool) (n : Nat) :
    Except Fault (Number × Nat) :=
  let c := peek b i
  if c == 46 then do
    let (x, j) ← places b i negative n 0
    .ok (.float x, j)
  else if c == 101 || c == 69 then do
    let (x, j) ← exponent b i negative n 0
    .ok (.float x, j)
  else if !negative then .ok (.int n, i)
  else if n == 0 || n > 0x8000000000000000 then .ok (.float (-(UInt64.ofNat n).toFloat), i)
  else .ok (.int (-(n : Int)), i)

/-- A number, from after its minus sign on. -/
def number (b : ByteArray) (i : Nat) (negative : Bool) : Except Fault (Number × Nat) :=
  if i ≥ b.size then .error .truncated
  else
    let c := peek b i
    if c == 48 then
      if isDigit (peek b (i + 1)) then .error .malformed else afterInteger b (i + 1) negative 0
    else if isDigit c then
      let (n, _, j) := takeDigits b i 0 0
      if isDigit (peek b j) then
        -- too long for 64 bits: the further digits only count
        let k := digitsEnd b j
        if peek b k == 46 then do
          let (x, l) ← places b k negative n ((k - j : Nat) : Int)
          .ok (.float x, l)
        else do
          let (x, l) ← afterDigits b k negative n ((k - j : Nat) : Int)
          .ok (.float x, l)
      else afterInteger b j negative n
    else .error .malformed

/-! ### Text -/

/-- Four hexadecimal digits. -/
def hexEscape (b : ByteArray) (i : Nat) : Except Fault Nat :=
  if i + 4 > b.size then .error .truncated
  else
    match Bytes.hexValue? (peek b i), Bytes.hexValue? (peek b (i + 1)),
        Bytes.hexValue? (peek b (i + 2)), Bytes.hexValue? (peek b (i + 3)) with
    | some h, some k, some l, some m => .ok (((h * 16 + k) * 16 + l) * 16 + m)
    | _, _, _, _ => .error .malformed

/-- The character that a simple escape stands for. -/
def simpleEscape? (c : UInt8) : Option UInt8 :=
  if c == 34 || c == 92 || c == 47 then some c
  else if c == 98 then some 8
  else if c == 102 then some 12
  else if c == 110 then some 10
  else if c == 114 then some 13
  else if c == 116 then some 9
  else none

/-- A code point escape, from after its `u` on. -/
def codePoint (b : ByteArray) (i : Nat) : Except Fault (Char × Nat) := do
  let n ← hexEscape b i
  let i := i + 4
  if 0xdc00 ≤ n && n ≤ 0xdfff then .error .malformed
  else if n < 0xd800 || 0xdbff < n then .ok (Char.ofNat n, i)
  else if i ≥ b.size then .error .truncated
  else if peek b i != 92 then .error .malformed
  else if i + 1 ≥ b.size then .error .truncated
  else if peek b (i + 1) != 117 then .error .malformed
  else
    let m ← hexEscape b (i + 2)
    if m < 0xdc00 || 0xdfff < m then .error .malformed
    else .ok (Char.ofNat ((n - 0xd800) * 1024 + (m - 0xdc00) + 0x10000), i + 6)

/-- The bytes of a text up to its closing quote, from after the opening one. -/
def stringBytes (b : ByteArray) : (fuel : Nat) → (i : Nat) → ByteArray →
    Except Fault (ByteArray × Nat)
  | 0, _, _ => .error .truncated
  | fuel + 1, i, acc =>
    if i ≥ b.size then .error .truncated
    else
      let c := peek b i
      if c == 34 then .ok (acc, i + 1)
      else if c < 32 then .error .malformed
      else if c != 92 then stringBytes b fuel (i + 1) (acc.push c)
      else if i + 1 ≥ b.size then .error .truncated
      else
        let e := peek b (i + 1)
        if e == 117 then
          match codePoint b (i + 2) with
          | .error f => .error f
          | .ok (ch, j) => stringBytes b fuel j (acc ++ ch.toString.toUTF8)
        else
          match simpleEscape? e with
          | some x => stringBytes b fuel (i + 2) (acc.push x)
          | none => .error .malformed

/-- A text, from after its opening quote. -/
def string (b : ByteArray) (i : Nat) : Except Fault (String × Nat) := do
  let (bytes, j) ← stringBytes b (b.size + 1 - i) i ByteArray.empty
  match Utf8.text? bytes with
  | some s => .ok (s, j)
  | none => .error .malformed

/-! ### Values -/

mutual

/-- One value at `i`, nested at most `depth` containers deep. -/
def value (b : ByteArray) : (fuel : Nat) → (depth : Nat) → (i : Nat) → Except Fault (Json × Nat)
  | 0, _, _ => .error .malformed
  | fuel + 1, depth, i =>
    let i := blanks b i
    if i ≥ b.size then .error .truncated
    else
      let c := peek b i
      if c == 110 then do
        let j ← word b (i + 1) ['u', 'l', 'l']
        .ok (.null, j)
      else if c == 116 then do
        let j ← word b (i + 1) ['r', 'u', 'e']
        .ok (.bool true, j)
      else if c == 102 then do
        let j ← word b (i + 1) ['a', 'l', 's', 'e']
        .ok (.bool false, j)
      else if c == 45 || isDigit c then do
        match ← (if c == 45 then number b (i + 1) true else number b i false) with
        | (.int n, j) => .ok (.int n, j)
        | (.float x, j) => .ok (.float x, j)
      else if c == 34 then do
        let (s, j) ← string b (i + 1)
        .ok (.str s, j)
      else if c == 91 then
        if depth == 0 then .error .malformed
        else do
          let (items, j) ← items b fuel (depth - 1) (i + 1) true []
          .ok (.arr items, j)
      else if c == 123 then
        if depth == 0 then .error .malformed
        else do
          let (pairs, j) ← pairs b fuel (depth - 1) (i + 1) true []
          .ok (ofMembers pairs, j)
      else .error .malformed

/-- The items of an array up to its bracket. -/
def items (b : ByteArray) : (fuel : Nat) → (depth : Nat) → (i : Nat) → (first : Bool) →
    List Json → Except Fault (List Json × Nat)
  | 0, _, _, _, _ => .error .malformed
  | fuel + 1, depth, i, first, acc =>
    let i := blanks b i
    if i ≥ b.size then .error .truncated
    else if peek b i == 93 then .ok (acc.reverse, i + 1)
    else if first then do
      let (j, k) ← value b fuel depth i
      items b fuel depth k false (j :: acc)
    else if peek b i == 44 then
      let i := blanks b (i + 1)
      if i ≥ b.size then .error .truncated
      else if peek b i == 93 then .error .malformed
      else do
        let (j, k) ← value b fuel depth i
        items b fuel depth k false (j :: acc)
    else .error .malformed

/-- The members of an object up to its brace. -/
def pairs (b : ByteArray) : (fuel : Nat) → (depth : Nat) → (i : Nat) → (first : Bool) →
    List (String × Json) → Except Fault (List (String × Json) × Nat)
  | 0, _, _, _, _ => .error .malformed
  | fuel + 1, depth, i, first, acc =>
    let i := blanks b i
    if i ≥ b.size then .error .truncated
    else if peek b i == 125 then .ok (acc.reverse, i + 1)
    else if first then
      if peek b i == 34 then do
        let (m, k) ← pair b fuel depth (i + 1)
        pairs b fuel depth k false (m :: acc)
      else .error .malformed
    else if peek b i == 44 then
      let i := blanks b (i + 1)
      if i ≥ b.size then .error .truncated
      else if peek b i == 34 then do
        let (m, k) ← pair b fuel depth (i + 1)
        pairs b fuel depth k false (m :: acc)
      else .error .malformed
    else .error .malformed

/-- One member, from after the opening quote of its name. -/
def pair (b : ByteArray) : (fuel : Nat) → (depth : Nat) → (i : Nat) →
    Except Fault ((String × Json) × Nat)
  | 0, _, _ => .error .malformed
  | fuel + 1, depth, i => do
    let (name, i) ← string b i
    let i := blanks b i
    if i ≥ b.size then .error .truncated
    else if peek b i != 58 then .error .malformed
    else do
      let (j, k) ← value b fuel depth (i + 1)
      .ok ((name, j), k)

end

/-- Nothing but blanks may follow. -/
def ended (b : ByteArray) (i : Nat) : Except Fault PUnit :=
  if blanks b i < b.size then .error .malformed else .ok ⟨⟩

/-- The one value that a text spells, nested at most `depth` containers deep. -/
def read (b : ByteArray) (depth : Nat) : Except Fault Json := do
  let (j, i) ← value b (3 * b.size + 8) depth 0
  ended b i
  .ok j

/-- The nesting that is read by default. -/
def defaultDepth : Nat := 127

/-! ### Skipping -/

/-- Passes over a text, from after its opening quote. -/
def skipString (b : ByteArray) : (fuel : Nat) → (i : Nat) → Except Fault Nat
  | 0, _ => .error .truncated
  | fuel + 1, i =>
    if i ≥ b.size then .error .truncated
    else
      let c := peek b i
      if c == 34 then .ok (i + 1)
      else if c < 32 then .error .malformed
      else if c != 92 then skipString b fuel (i + 1)
      else if i + 1 ≥ b.size then .error .truncated
      else
        let e := peek b (i + 1)
        if e == 117 then
          match hexEscape b (i + 2) with
          | .error f => .error f
          | .ok _ => skipString b fuel (i + 6)
        else if (simpleEscape? e).isSome then skipString b fuel (i + 2)
        else .error .malformed

/-- Passes over an exponent, from its `e` on. -/
def skipExponent (b : ByteArray) (i : Nat) : Except Fault Nat :=
  let i := i + 1
  let i := if peek b i == 43 || peek b i == 45 then i + 1 else i
  if isDigit (peek b i) then .ok (digitsEnd b i) else .error .malformed

/-- Passes over a number, from after its minus sign. -/
def skipNumber (b : ByteArray) (i : Nat) : Except Fault Nat :=
  let c := peek b i
  if !isDigit c then .error .malformed
  else if c == 48 && isDigit (peek b (i + 1)) then .error .malformed
  else
    let i := if c == 48 then i + 1 else digitsEnd b i
    let c := peek b i
    if c == 46 then
      if !isDigit (peek b (i + 1)) then .error .malformed
      else
        let i := digitsEnd b (i + 1)
        if peek b i == 101 || peek b i == 69 then skipExponent b i else .ok i
    else if c == 101 || c == 69 then skipExponent b i
    else .ok i

/-- The containers around a position that is passed over. -/
inductive Container where
  | array
  | object
deriving DecidableEq

/-- Passes over a name and its colon, from the quote on. -/
def skipName (b : ByteArray) (i : Nat) : Except Fault Nat := do
  let i := blanks b i
  if i ≥ b.size then .error .truncated
  else if peek b i != 34 then .error .malformed
  else
    let i ← skipString b (b.size + 1 - i) (i + 1)
    let i := blanks b i
    if i ≥ b.size then .error .truncated
    else if peek b i != 58 then .error .malformed
    else .ok (i + 1)

mutual

/-- Passes over one value inside the containers `around`. -/
def skipValue (b : ByteArray) : (fuel : Nat) → (i : Nat) → (around : List Container) →
    Except Fault Nat
  | 0, _, _ => .error .malformed
  | fuel + 1, i, around =>
    let i := blanks b i
    if i ≥ b.size then .error .truncated
    else
      let c := peek b i
      if c == 91 then skipInside b fuel (i + 1) .array around false
      else if c == 123 then skipInside b fuel (i + 1) .object around false
      else
        let stop : Except Fault Nat :=
          if c == 110 then word b (i + 1) ['u', 'l', 'l']
          else if c == 116 then word b (i + 1) ['r', 'u', 'e']
          else if c == 102 then word b (i + 1) ['a', 'l', 's', 'e']
          else if c == 45 then skipNumber b (i + 1)
          else if isDigit c then skipNumber b i
          else if c == 34 then skipString b (b.size + 1 - i) (i + 1)
          else .error .malformed
        match stop, around with
        | .error f, _ => .error f
        | .ok i, [] => .ok i
        | .ok i, inner :: outer => skipInside b fuel i inner outer true

/-- Goes on inside a container: after a value when `comma`, at its start otherwise. -/
def skipInside (b : ByteArray) : (fuel : Nat) → (i : Nat) → (inner : Container) →
    (outer : List Container) → (comma : Bool) → Except Fault Nat
  | 0, _, _, _, _ => .error .malformed
  | fuel + 1, i, inner, outer, comma =>
    let i := blanks b i
    if i ≥ b.size then .error .truncated
    else
      let c := peek b i
      if (c == 93 && inner == .array) || (c == 125 && inner == .object) then
        match outer with
        | [] => .ok (i + 1)
        | next :: outer => skipInside b fuel (i + 1) next outer true
      else if comma && c != 44 then .error .malformed
      else
        let i := if comma then i + 1 else i
        if inner == .object then
          match skipName b i with
          | .error f => .error f
          | .ok i => skipValue b fuel i (inner :: outer)
        else skipValue b fuel i (inner :: outer)

end

/-- Passes over one value. -/
def skip (b : ByteArray) (i : Nat) : Except Fault Nat := skipValue b (3 * b.size + 8) i []

end StoryPack.Json
