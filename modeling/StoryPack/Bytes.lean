/-
Byte strings.

Archives, script sources and script strings are sequences of bytes, held in
core's `ByteArray`.  This file adds the readers of little-endian words, the
lexicographic order and the hexadecimal form.

* `Bytes.cmp` — the order of the first differing byte, shorter first;
* `Bytes.word` — the little-endian number in `n` bytes from a position;
* `Bytes.hex`, `Bytes.ofHex?` — lowercase hexadecimal digits and back.
-/
namespace StoryPack.Bytes

/-- Byte strings are equal when their bytes are. -/
instance (priority := 2000) instDecidableEq : DecidableEq ByteArray := ByteArray.instDecidableEq

/-- The byte at `i`, and `0` outside. -/
@[inline] def byte (b : ByteArray) (i : Nat) : UInt8 :=
  if h : i < b.size then b[i] else 0

/-- The bytes of a text. -/
def ofString (s : String) : ByteArray := s.toUTF8

/-- The byte string of one byte. -/
def single (x : UInt8) : ByteArray := ByteArray.empty.push x

/-- `n` copies of one byte. -/
def replicate (n : Nat) (x : UInt8) : ByteArray := ⟨Array.replicate n x⟩

/-- At most `n` bytes from position `i`. -/
def slice (b : ByteArray) (i n : Nat) : ByteArray := b.extract i (i + n)

/-- Where two byte strings first differ decides; a proper beginning comes first. -/
def cmpFrom (a b : ByteArray) (i : Nat) : Ordering :=
  if ha : i < a.size then
    if hb : i < b.size then
      if a[i] < b[i] then .lt
      else if b[i] < a[i] then .gt
      else cmpFrom a b (i + 1)
    else .gt
  else if i < b.size then .lt else .eq
termination_by a.size - i

/-- The lexicographic order of byte strings. -/
def cmp (a b : ByteArray) : Ordering := cmpFrom a b 0

/-- Whether `b` holds `needle` at position `i`. -/
def hasAt (b needle : ByteArray) (i : Nat) : Bool :=
  i + needle.size ≤ b.size && go 0
where
  go (k : Nat) : Bool :=
    if k < needle.size then byte b (i + k) == byte needle k && go (k + 1) else true
  termination_by needle.size - k

/-- The first position from `i` at which `needle` stands. -/
def find? (b needle : ByteArray) (i : Nat) : Option Nat :=
  if i + needle.size ≤ b.size then
    if hasAt b needle i then some i else find? b needle (i + 1)
  else none
termination_by b.size + 1 - i
decreasing_by omega

/-- The last position before `stop` at which `needle` stands whole. -/
def findLast? (b needle : ByteArray) : (stop : Nat) → Option Nat
  | 0 => none
  | i + 1 => if hasAt b needle i then some i else findLast? b needle i

/-- The little-endian number in the `n` bytes from position `i`. -/
def word (b : ByteArray) (i : Nat) : (n : Nat) → Nat
  | 0 => 0
  | n + 1 => (byte b i).toNat + 256 * word b (i + 1) n

/-- The position of the first byte from `i` that satisfies `p`. -/
def indexOf? (b : ByteArray) (p : UInt8 → Bool) (i : Nat) : Option Nat :=
  if h : i < b.size then if p b[i] then some i else indexOf? b p (i + 1) else none
termination_by b.size - i

/-- The bytes before the first zero byte. -/
def beforeNul (b : ByteArray) : ByteArray :=
  match indexOf? b (· == 0) 0 with
  | some i => b.extract 0 i
  | none => b

/-- The digit that stands for a number below sixteen. -/
def hexDigit (n : Nat) : Char :=
  if n < 10 then Char.ofNat (48 + n) else Char.ofNat (87 + n)

/-- The value of a hexadecimal digit of either case. -/
def hexValue? (c : UInt8) : Option Nat :=
  if 48 ≤ c && c ≤ 57 then some (c.toNat - 48)
  else if 97 ≤ c && c ≤ 102 then some (c.toNat - 87)
  else if 65 ≤ c && c ≤ 70 then some (c.toNat - 55)
  else none

/-- Two lowercase hexadecimal digits for each byte. -/
def hex (b : ByteArray) : String :=
  b.foldl (fun s x => (s.push (hexDigit (x.toNat / 16))).push (hexDigit (x.toNat % 16))) "" 0 b.size

/-- Reads pairs of hexadecimal digits. -/
def ofHex? (s : String) : Option ByteArray :=
  let b := s.toUTF8
  if b.size % 2 == 1 then none else go b (b.size / 2) 0 ByteArray.empty
where
  go (b : ByteArray) : Nat → Nat → ByteArray → Option ByteArray
    | 0, _, acc => some acc
    | n + 1, i, acc =>
      match hexValue? (byte b i), hexValue? (byte b (i + 1)) with
      | some h, some l => go b n (i + 2) (acc.push (UInt8.ofNat (16 * h + l)))
      | _, _ => none

/-- A number as lowercase hexadecimal digits, at least `width` of them. -/
def hexNat (n width : Nat) : String :=
  let ds := Nat.toDigits 16 n
  String.ofList (List.replicate (width - ds.length) '0' ++ ds)

end StoryPack.Bytes
