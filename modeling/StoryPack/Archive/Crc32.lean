/-
The checksum of gzip and zip members.

* `crc32` — the checksum of a byte string.
-/

namespace StoryPack

namespace Crc32

/-- One step of the division by the reflected polynomial. -/
def halve (c : UInt32) : UInt32 :=
  if c &&& 1 == 1 then (c >>> 1) ^^^ 0xedb88320 else c >>> 1

/-- The remainders of all bytes. -/
def table : Array UInt32 :=
  (Array.range 256).map fun n => (List.range 8).foldl (fun c _ => halve c) (UInt32.ofNat n)

/-- Takes in a byte. -/
@[inline] def step (c : UInt32) (x : UInt8) : UInt32 :=
  table.getD ((c ^^^ x.toUInt32) &&& 0xff).toNat 0 ^^^ (c >>> 8)

end Crc32

/-- The checksum of a byte string. -/
def crc32 (b : ByteArray) : UInt32 := b.foldl Crc32.step 0xffffffff 0 b.size ^^^ 0xffffffff

end StoryPack
