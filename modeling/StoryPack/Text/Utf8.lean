/-
Well-formed text in byte strings.

A byte string is text when it is the UTF-8 form of a sequence of code points.
`Utf8.unit` reads one step: a character of some width, a wrong sequence of some
length, or a sequence that the end cuts off.  From it come the exact position
of the first fault (`firstFault`), the checked reading `text?`, and the
forgiving reading `lossy`, which puts U+FFFD for each wrong sequence.
-/
import StoryPack.Bytes

namespace StoryPack.Utf8

/-- What stands at a position of a byte string. -/
inductive Unit where
  /-- A well-formed character of this many bytes. -/
  | char (width : Nat)
  /-- This many bytes that begin no character. -/
  | wrong (length : Nat)
  /-- A good beginning that the end of the string cuts off. -/
  | cut
deriving Repr, DecidableEq

/-- A continuation byte. -/
@[inline] def isTail (c : UInt8) : Bool := 0x80 ≤ c && c ≤ 0xbf

/-- Whether `c` may follow the first byte `a` of a longer character. -/
def mayFollow (a c : UInt8) : Bool :=
  if a == 0xe0 then 0xa0 ≤ c && c ≤ 0xbf
  else if a == 0xed then 0x80 ≤ c && c ≤ 0x9f
  else if a == 0xf0 then 0x90 ≤ c && c ≤ 0xbf
  else if a == 0xf4 then 0x80 ≤ c && c ≤ 0x8f
  else isTail c

/-- The number of bytes that the first byte of a character announces; `0` when none. -/
def announced (a : UInt8) : Nat :=
  if a < 0x80 then 1
  else if 0xc2 ≤ a && a ≤ 0xdf then 2
  else if 0xe0 ≤ a && a ≤ 0xef then 3
  else if 0xf0 ≤ a && a ≤ 0xf4 then 4
  else 0

/-- The step at position `i`, which lies inside the string. -/
def unit (b : ByteArray) (i : Nat) : Unit :=
  let n := announced (Bytes.byte b i)
  if n == 0 then .wrong 1
  else if n == 1 then .char 1
  else if i + 1 ≥ b.size then .cut
  else if !mayFollow (Bytes.byte b i) (Bytes.byte b (i + 1)) then .wrong 1
  else if n == 2 then .char 2
  else if i + 2 ≥ b.size then .cut
  else if !isTail (Bytes.byte b (i + 2)) then .wrong 2
  else if n == 3 then .char 3
  else if i + 3 ≥ b.size then .cut
  else if !isTail (Bytes.byte b (i + 3)) then .wrong 3
  else .char 4

/-- Why a byte string is no text: what stands at the position of the first fault. -/
inductive Fault where
  | wrong (length position : Nat)
  | cut (position : Nat)
deriving Repr, DecidableEq

/-- The usual wording of a fault. -/
def Fault.message : Fault → String
  | .wrong n i => "invalid utf-8 sequence of " ++ toString n ++ " bytes from index " ++ toString i
  | .cut i => "incomplete utf-8 byte sequence from index " ++ toString i

/-- The first fault at or after position `i`. -/
def firstFault (b : ByteArray) (i : Nat) : Option Fault :=
  if i < b.size then
    match unit b i with
    | .char w => firstFault b (i + (w - 1) + 1)
    | .wrong n => some (.wrong n i)
    | .cut => some (.cut i)
  else none
termination_by b.size - i

/-- The text that a byte string spells, or the first fault. -/
def text (b : ByteArray) : Except Fault String :=
  match String.fromUTF8? b with
  | some s => .ok s
  | none => .error ((firstFault b 0).getD (.cut b.size))

/-- The text that a byte string spells, if it is well formed. -/
def text? (b : ByteArray) : Option String := String.fromUTF8? b

/-- The code point written in `w` bytes at position `i`. -/
def decode (b : ByteArray) (i w : Nat) : Char :=
  let byte (k : Nat) : Nat := (Bytes.byte b (i + k)).toNat
  if w == 1 then Char.ofNat (byte 0)
  else if w == 2 then Char.ofNat ((byte 0 % 32) * 64 + byte 1 % 64)
  else if w == 3 then Char.ofNat (((byte 0 % 16) * 64 + byte 1 % 64) * 64 + byte 2 % 64)
  else Char.ofNat ((((byte 0 % 8) * 64 + byte 1 % 64) * 64 + byte 2 % 64) * 64 + byte 3 % 64)

/-- Reads on from position `i`, with U+FFFD for each wrong or cut sequence. -/
def lossyFrom (b : ByteArray) (i : Nat) (acc : String) : String :=
  if i < b.size then
    match unit b i with
    | .char w => lossyFrom b (i + (w - 1) + 1) (acc.push (decode b i w))
    | .wrong n => lossyFrom b (i + (n - 1) + 1) (acc.push '\ufffd')
    | .cut => acc.push '\ufffd'
  else acc
termination_by b.size - i

/-- The text of a byte string, with U+FFFD in place of what is no text. -/
def lossy (b : ByteArray) : String :=
  match String.fromUTF8? b with
  | some s => s
  | none => lossyFrom b 0 ""

/-- The bytes of a code point below 2^31, in the older form of up to six bytes. -/
def encodeLong (n : Nat) : List UInt8 :=
  let tail (k : Nat) : UInt8 := UInt8.ofNat (0x80 + (n / Nat.pow 64 k) % 64)
  if n < 0x80 then [UInt8.ofNat n]
  else if n < 0x800 then [UInt8.ofNat (0xc0 + n / 64), tail 0]
  else if n < 0x10000 then [UInt8.ofNat (0xe0 + n / 0x1000), tail 1, tail 0]
  else if n < 0x200000 then [UInt8.ofNat (0xf0 + n / 0x40000), tail 2, tail 1, tail 0]
  else if n < 0x4000000 then [UInt8.ofNat (0xf8 + n / 0x1000000), tail 3, tail 2, tail 1, tail 0]
  else [UInt8.ofNat (0xfc + n / 0x40000000), tail 4, tail 3, tail 2, tail 1, tail 0]

end StoryPack.Utf8
