/-
Compressed streams.

A stream is what a reader gets to see: some bytes, and then the end or a fault.
A gzip stream is a header, deflated data, and a checksum with a length.  Of
damaged data the bytes are seen that come safely before the damage; the checksum
is compared when all bytes have been read.  What follows is not looked at.

* `Stream` — bytes with their end;
* `Stream.ofGzip` — the stream inside a gzip stream.
-/
import StoryPack.Archive.Inflate
import StoryPack.Archive.Crc32

namespace StoryPack

/-- What a reader gets to see: bytes, and then the end or a fault. -/
structure Stream where
  data : ByteArray
  /-- Whether the bytes are followed by the end, and not by a fault. -/
  intact : Bool
deriving Inhabited

/-- The stream with more bytes, of two as long the first. -/
def Stream.longer (s t : Stream) : Stream := if s.data.size < t.data.size then t else s

namespace Gzip

open Bytes (byte word)

/-- The bytes with which a gzip stream begins. -/
def magic : ByteArray := ⟨#[0x1f, 0x8b]⟩

/-- The longest name or comment in a header. -/
def fieldLimit : Nat := 65535

/-- The position after a field that ends with a zero byte. -/
def afterField (b : ByteArray) (i : Nat) : Option Nat :=
  match Bytes.indexOf? b (· == 0) i with
  | some j => if j - i ≤ fieldLimit then some (j + 1) else none
  | none => none

/-- The position after a field that is there when a bit of the flags is set. -/
def afterOptional (flags : UInt8) (bit : UInt8) (i : Nat) (field : Nat → Option Nat) : Option Nat :=
  if flags &&& bit != 0 then field i else some i

/-- The position after the extra field. -/
def afterExtra (b : ByteArray) (i : Nat) : Option Nat :=
  let next := i + 2 + word b i 2
  if next ≤ b.size then some next else none

/-- The position after the checksum of the header, which has to be right. -/
def afterHeaderCheck (b : ByteArray) (i : Nat) : Option Nat :=
  if i + 2 ≤ b.size && word b i 2 == (crc32 (b.extract 0 i)).toNat % 65536 then some (i + 2)
  else none

/-- The position of the deflated data, if there is a sound header. -/
def bodyStart (b : ByteArray) : Option Nat :=
  let flags := byte b 3
  if b.size < 10 || !Bytes.hasAt b magic 0 || byte b 2 != 8 || flags &&& 0xe0 != 0 then none
  else do
    let i ← afterOptional flags 4 10 (afterExtra b)
    let i ← afterOptional flags 8 i (afterField b)
    let i ← afterOptional flags 16 i (afterField b)
    afterOptional flags 2 i (afterHeaderCheck b)

/-- Whether the checksum and the length of some bytes stand at a position. -/
def hasTrailer (b : ByteArray) (i : Nat) (data : ByteArray) : Bool :=
  i + 8 ≤ b.size && word b i 4 == (crc32 data).toNat && word b (i + 4) 4 == data.size % 0x100000000

end Gzip

/-- The stream inside a gzip stream. -/
def Stream.ofGzip (b : ByteArray) : Stream :=
  match Gzip.bodyStart b with
  | none => { data := ByteArray.empty, intact := false }
  | some start =>
    match inflate b start with
    | (data, .finished i) => { data := data, intact := Gzip.hasTrailer b i data }
    | (data, .truncated) => { data := data, intact := false }
    | (data, .corrupt) => { data := data.extract 0 (data.size - 1), intact := false }

end StoryPack
