/-
Decompression of deflated data.

The data are blocks: stored bytes, or symbols of prefix codes that stand for
bytes and for copies of what came before.  Decompression gives all bytes up to
the end or up to the first fault.

* `inflate` — the bytes of deflated data, and how they end.
-/
import StoryPack.Archive.Huffman
import StoryPack.Bytes

namespace StoryPack

namespace Inflate

/-- How deflated data end. -/
inductive Ending where
  /-- The last block has ended before this byte. -/
  | finished (position : Nat)
  /-- The data stop before the end of the last block. -/
  | truncated
  /-- The data are no deflated data. -/
  | corrupt
deriving DecidableEq, Inhabited, Repr

/-- What one block leaves: the next bit and the bytes, or a fault and the bytes before it. -/
inductive BlockResult where
  | next (i : Nat) (out : ByteArray)
  | fault (ending : Ending) (out : ByteArray)
deriving Inhabited

/-- The least lengths of copies and the numbers of their extra bits, from symbol 257 on. -/
def lengthBases : Array (Nat × Nat) :=
  #[(3, 0), (4, 0), (5, 0), (6, 0), (7, 0), (8, 0), (9, 0), (10, 0), (11, 1), (13, 1), (15, 1),
    (17, 1), (19, 2), (23, 2), (27, 2), (31, 2), (35, 3), (43, 3), (51, 3), (59, 3), (67, 4),
    (83, 4), (99, 4), (115, 4), (131, 5), (163, 5), (195, 5), (227, 5), (258, 0)]

/-- The least length of the copies that a symbol begins, and the number of its extra bits. -/
@[irreducible] def lengthBase? (symbol : Nat) : Option (Nat × Nat) := lengthBases[symbol - 257]?

/-- The least distances of copies and the numbers of their extra bits, by symbol. -/
def distanceBases : Array (Nat × Nat) :=
  #[(1, 0), (2, 0), (3, 0), (4, 0), (5, 1), (7, 1), (9, 2), (13, 2), (17, 3), (25, 3), (33, 4),
    (49, 4), (65, 5), (97, 5), (129, 6), (193, 6), (257, 7), (385, 7), (513, 8), (769, 8),
    (1025, 9), (1537, 9), (2049, 10), (3073, 10), (4097, 11), (6145, 11), (8193, 12), (12289, 12),
    (16385, 13), (24577, 13)]

/-- The order in which the lengths of the code of lengths are given. -/
def lengthOrder : List Nat := [16, 17, 18, 0, 8, 7, 9, 6, 10, 5, 11, 4, 12, 3, 13, 2, 14, 1, 15]

/-- How far back a copy may reach. -/
def window : Nat := 32768

/-- Copies bytes from some distance back, one after another. -/
def copyBack (out : ByteArray) (distance : Nat) : (count : Nat) → ByteArray
  | 0 => out
  | n + 1 => copyBack (out.push (Bytes.byte out (out.size - distance))) distance n

/-- The fixed code of literals and lengths. -/
def fixedLiterals : PrefixCode :=
  .ofLengths ((Array.replicate 144 8 ++ Array.replicate 112 9) ++
    (Array.replicate 24 7 ++ Array.replicate 8 8))

/-- The fixed code of distances. -/
def fixedDistances : PrefixCode := .ofLengths (Array.replicate 32 5)

/-- A copy whose length symbol has been read. -/
def copy (distances : PrefixCode) (b : ByteArray) (symbol i : Nat) (out : ByteArray) :
    BlockResult :=
  match lengthBase? symbol with
  | none => .fault .corrupt out
  | some (base, extra) =>
    match Bits.read? b i extra with
    | none => .fault .truncated out
    | some more =>
      match distances.decode b (i + extra) with
      | .truncated => .fault .truncated out
      | .invalid => .fault .corrupt out
      | .symbol s i =>
        match distanceBases[s]? with
        | none => .fault .corrupt out
        | some (near, extra) =>
          match Bits.read? b i extra with
          | none => .fault .truncated out
          | some far =>
            let distance := near + far
            if out.size < distance || window < distance then .fault .corrupt out
            else .next (i + extra) (copyBack out distance (base + more))

/-- The symbols of a block up to its end. -/
def symbols (literals distances : PrefixCode) (b : ByteArray) : (fuel : Nat) → (i : Nat) →
    (out : ByteArray) → BlockResult
  | 0, _, out => .fault .truncated out
  | fuel + 1, i, out =>
    match literals.decode b i with
    | .truncated => .fault .truncated out
    | .invalid => .fault .corrupt out
    | .symbol s i =>
      if s < 256 then symbols literals distances b fuel i (out.push (UInt8.ofNat s))
      else if s == 256 then .next i out
      else
        match copy distances b s i out with
        | .next i out => symbols literals distances b fuel i out
        | .fault e out => .fault e out

/-- A block of stored bytes. -/
def stored (b : ByteArray) (i : Nat) (out : ByteArray) : BlockResult :=
  let start := (i + 7) / 8
  if b.size < start + 4 then .fault .truncated out
  else
    let n := Bytes.word b start 2
    if Bytes.word b (start + 2) 2 + n != 0xffff then .fault .corrupt out
    else
      let bytes := b.extract (start + 4) (start + 4 + n)
      if bytes.size < n then .fault .truncated (out ++ bytes)
      else .next (8 * (start + 4 + n)) (out ++ bytes)

/-- The lengths of the code of lengths, in the order of the symbols. -/
def codeLengths (b : ByteArray) : (i : Nat) → (order : List Nat) → (count : Nat) → Array Nat →
    Option (Array Nat × Nat)
  | i, s :: order, n + 1, acc =>
    match Bits.read? b i 3 with
    | some x => codeLengths b (i + 3) order n (acc.set! s x)
    | none => none
  | i, _, _, acc => some (acc, i)

/-- Lengths of words as they are read. -/
inductive Lengths where
  | done (lengths : Array Nat) (next : Nat)
  | fault (ending : Ending)
deriving Inhabited

/-- Repeats a length as often as some more bits and a base say, and goes on behind them. -/
def repeated (b : ByteArray) (total i bits base : Nat) (value : Option Nat) (acc : Array Nat)
    (next : Nat → Array Nat → Lengths) : Lengths :=
  match value, Bits.read? b i bits with
  | none, _ => .fault .corrupt
  | _, none => .fault .truncated
  | some v, some n =>
    if total < acc.size + base + n then .fault .corrupt
    else next (i + bits) (acc ++ Array.replicate (base + n) v)

/-- The lengths of the words of `total` symbols; some symbols of their code repeat lengths. -/
def wordLengths (c : PrefixCode) (b : ByteArray) (total : Nat) : (fuel : Nat) → (i : Nat) →
    Array Nat → Lengths
  | 0, _, _ => .fault .truncated
  | fuel + 1, i, acc =>
    if total ≤ acc.size then .done acc i
    else
      let again (i bits base : Nat) (value : Option Nat) : Lengths :=
        repeated b total i bits base value acc (wordLengths c b total fuel)
      match c.decode b i with
      | .truncated => .fault .truncated
      | .invalid => .fault .corrupt
      | .symbol s i =>
        if s < 16 then wordLengths c b total fuel i (acc.push s)
        else if s == 16 then again i 2 3 acc.back?
        else if s == 17 then again i 3 3 (some 0)
        else again i 7 11 (some 0)

/-- A block whose codes are described at its beginning. -/
def described (b : ByteArray) (i : Nat) (out : ByteArray) : BlockResult :=
  match Bits.read? b i 5, Bits.read? b (i + 5) 5, Bits.read? b (i + 10) 4 with
  | some literalCount, some distanceCount, some lengthCount =>
    let literalCount := literalCount + 257
    let distanceCount := distanceCount + 1
    if 286 < literalCount || 30 < distanceCount then .fault .corrupt out
    else
      match codeLengths b (i + 14) lengthOrder (lengthCount + 4) (Array.replicate 19 0) with
      | none => .fault .truncated out
      | some (lengths, i) =>
        let c := PrefixCode.ofLengths lengths
        if c.slack != 0 then .fault .corrupt out
        else
          let total := literalCount + distanceCount
          match wordLengths c b total (total + 1) i #[] with
          | .fault e => .fault e out
          | .done lengths i =>
            let literals := PrefixCode.ofLengths (lengths.extract 0 literalCount)
            let distances := PrefixCode.ofLengths (lengths.extract literalCount total)
            if lengths.getD 256 0 == 0 || !literals.isUsable || !distances.isUsable then
              .fault .corrupt out
            else symbols literals distances b (8 * b.size + 1) i out
  | _, _, _ => .fault .truncated out

/-- The blocks from a bit on. -/
def blocks (b : ByteArray) : (fuel : Nat) → (i : Nat) → (out : ByteArray) → ByteArray × Ending
  | 0, _, out => (out, .truncated)
  | fuel + 1, i, out =>
    match Bits.read? b i 1, Bits.read? b (i + 1) 2 with
    | some last, some type =>
      let r :=
        match type with
        | 0 => stored b (i + 3) out
        | 1 => symbols fixedLiterals fixedDistances b (8 * b.size + 1) (i + 3) out
        | 2 => described b (i + 3) out
        | _ => .fault .corrupt out
      match r with
      | .fault e out => (out, e)
      | .next i out => if last == 1 then (out, .finished ((i + 7) / 8)) else blocks b fuel i out
    | _, _ => (out, .truncated)

end Inflate

/-- The bytes of the deflated data from a position on, and how they end. -/
def inflate (b : ByteArray) (start : Nat) : ByteArray × Inflate.Ending :=
  Inflate.blocks b (8 * b.size + 1) (8 * start) ByteArray.empty

end StoryPack
