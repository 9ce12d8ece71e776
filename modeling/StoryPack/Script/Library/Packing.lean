/-
Packed values.

A packing format lists fields: integers of one to sixteen bytes, floating-point
numbers, and strings of fixed, counted or terminated length.  It also says the
byte order and the alignment.

* `Packing.Field` — a field of a format;
* `Packing.pack`, `Packing.unpack`, `Packing.size` — the functions of the library.
-/
import StoryPack.Script.Library.Argument

namespace StoryPack.Script.Packing

open Bytes (byte)
open StoryPack.Script.Action

/-- A field of a format. -/
inductive Field where
  | signed | unsigned | float | double
  | chars | counted | terminated
  | padding | alignment | nothing
deriving DecidableEq

/-- The byte order and the greatest alignment in force. -/
structure Layout where
  little : Bool := true
  maxAlign : Nat := 1

/-- A decimal number at a position, if there is one. -/
def numberAt (f : ByteArray) : (fuel : Nat) → (i : Nat) → Option Nat → Option Nat × Nat
  | 0, i, acc => (acc, i)
  | fuel + 1, i, acc =>
    let c := byte f i
    if i < f.size && 48 ≤ c && c ≤ 57 && acc.getD 0 ≤ 214748363 then
      numberAt f fuel (i + 1) (some (acc.getD 0 * 10 + (c.toNat - 48)))
    else (acc, i)

/-- The size of an integer, which a number may give. -/
def integerSize (f : ByteArray) (i default : Nat) : Action (Nat × Nat) :=
  let (n, j) := numberAt f 11 i none
  let n := n.getD default
  if 1 ≤ n && n ≤ 16 then pure (n, j)
  else raise ("integral size (" ++ toString n ++ ") out of limits [1,16]")

/-- The option at a position: its field, its size, the position after it, and the layout it sets. -/
def option (f : ByteArray) (i : Nat) (l : Layout) : Action (Field × Nat × Nat × Layout) := do
  let c := (byte f i).toNat
  let i := i + 1
  let plain (k : Field) (n : Nat) : Action (Field × Nat × Nat × Layout) := pure (k, n, i, l)
  match c with
  | 98 => plain .signed 1
  | 66 => plain .unsigned 1
  | 104 => plain .signed 2
  | 72 => plain .unsigned 2
  | 108 | 106 => plain .signed 8
  | 76 | 74 | 84 => plain .unsigned 8
  | 102 => plain .float 4
  | 110 | 100 => plain .double 8
  | 105 => do
    let (n, j) ← integerSize f i 4
    pure (.signed, n, j, l)
  | 73 => do
    let (n, j) ← integerSize f i 4
    pure (.unsigned, n, j, l)
  | 115 => do
    let (n, j) ← integerSize f i 8
    pure (.counted, n, j, l)
  | 99 =>
    match numberAt f 11 i none with
    | (some n, j) => pure (.chars, n, j, l)
    | (none, _) => raise "missing size for format option 'c'"
  | 122 => plain .terminated 0
  | 120 => plain .padding 1
  | 88 => plain .alignment 0
  | 32 => plain .nothing 0
  | 60 => pure (.nothing, 0, i, { l with little := true })
  | 62 => pure (.nothing, 0, i, { l with little := false })
  | 61 => pure (.nothing, 0, i, { l with little := true })
  | 33 => do
    let (n, j) ← integerSize f i 8
    pure (.nothing, 0, j, { l with maxAlign := n })
  | _ =>
    fail (.located 1 ("invalid format option '".toUTF8.push (UInt8.ofNat c) |>.push 39))

/-- An option with the bytes that align it after `total` bytes. -/
structure Detail where
  field : Field
  size : Nat
  gap : Nat
  next : Nat
  layout : Layout

/-- The option at a position with its alignment. -/
def detail (f : ByteArray) (i total : Nat) (l : Layout) : Action Detail := do
  let (k, size, next, l) ← option f i l
  let (align, next, l) ←
    if k == .alignment then
      if next ≥ f.size then badArgument 1 "invalid next option for option 'X'"
      else do
        let (k', n, j, l) ← option f next l
        if k' == .chars || n == 0 then badArgument 1 "invalid next option for option 'X'"
        else pure (n, j, l)
    else pure (size, next, l)
  if align ≤ 1 || k == .chars then pure ⟨k, size, 0, next, l⟩
  else
    let align := min align l.maxAlign
    if align &&& (align - 1) != 0 then
      badArgument 1 "format asks for alignment not power of 2"
    else pure ⟨k, size, (align - total % align) % align, next, l⟩

/-- The bytes of a number below `256^n`, in the byte order of a layout. -/
def wordBytes (n : Nat) (size : Nat) (little : Bool) : ByteArray :=
  let bytes := (List.range size).map fun k => UInt8.ofNat (n / Nat.pow 256 k % 256)
  ⟨(if little then bytes else bytes.reverse).toArray⟩

/-- The number in `size` bytes at a position. -/
def wordAt (b : ByteArray) (i size : Nat) (little : Bool) : Nat :=
  if little then Bytes.word b i size
  else (List.range size).foldl (fun n k => n * 256 + (byte b (i + k)).toNat) 0

/-- The bytes of one field made of argument `n`. -/
def packField (args : List Value) (n : Nat) (d : Detail) : Action ByteArray := do
  let little := d.layout.little
  match d.field with
  | .signed => do
    let i := (← Argument.integer args n).toInt
    if d.size < 8 then
      let lim : Int := Nat.pow 2 (8 * d.size - 1)
      Argument.check (-lim ≤ i && i < lim) n "integer overflow"
    pure (wordBytes (i % (Nat.pow 2 (8 * d.size) : Int)).toNat d.size little)
  | .unsigned => do
    let i := (← Argument.integer args n).toUInt64.toNat
    if d.size < 8 then Argument.check (i < Nat.pow 2 (8 * d.size)) n "unsigned overflow"
    pure (wordBytes i d.size little)
  | .float => do
    let x ← Argument.number args n
    pure (wordBytes x.toFloat32.toBits.toNat 4 little)
  | .double => do
    let x ← Argument.number args n
    pure (wordBytes x.toBits.toNat 8 little)
  | .chars => do
    let s ← Argument.string args n
    Argument.check (s.size ≤ d.size) n "string longer than given size"
    reserve d.size
    pure (s ++ Bytes.replicate (d.size - s.size) 0)
  | .counted => do
    let s ← Argument.string args n
    Argument.check (d.size ≥ 8 || s.size < Nat.pow 2 (8 * d.size)) n
      "string length does not fit in given size"
    pure (wordBytes s.size d.size little ++ s)
  | .terminated => do
    let s ← Argument.string args n
    Argument.check (Bytes.indexOf? s (· == 0) 0).isNone n "string contains zeros"
    pure (s.push 0)
  | .padding => pure (Bytes.single 0)
  | .alignment | .nothing => pure ByteArray.empty

/-- Whether a field takes an argument or gives a result. -/
def Field.counts : Field → Bool
  | .padding | .alignment | .nothing => false
  | _ => true

/-- Packs the arguments from `n` on by the format from position `i` on. -/
def packFrom (args : List Value) (f : ByteArray) : (fuel : Nat) → (i n : Nat) → Layout →
    ByteArray → Action ByteArray
  | 0, _, _, _, acc => pure acc
  | fuel + 1, i, n, l, acc =>
    if i ≥ f.size then pure acc
    else do
      let d ← detail f i acc.size l
      let n := if d.field.counts then n + 1 else n
      let piece ← packField args n d
      packFrom args f fuel d.next n d.layout (acc ++ Bytes.replicate d.gap 0 ++ piece)

/-- Packs the arguments after the first by the first. -/
def pack (args : List Value) : Action (List Value) := do
  let f ← Argument.string args 1
  let b ← packFrom args f (f.size + 1) 0 1 {} ByteArray.empty
  pure [← string b]

/-- Adds up the sizes of a format from position `i` on. -/
def sizeFrom (f : ByteArray) : (fuel : Nat) → (i total : Nat) → Layout → Action Nat
  | 0, _, total, _ => pure total
  | fuel + 1, i, total, l =>
    if i ≥ f.size then pure total
    else do
      let d ← detail f i total l
      Argument.check (d.field != .counted && d.field != .terminated) 1 "variable-length format"
      Argument.check (total + d.gap + d.size ≤ 2147483647) 1 "format result too large"
      sizeFrom f fuel d.next (total + d.gap + d.size) d.layout

/-- The size of what a format packs. -/
def size (args : List Value) : Action (List Value) := do
  let f ← Argument.string args 1
  let n ← sizeFrom f (f.size + 1) 0 0 {}
  pure [.int (Int64.ofNat n)]

/-- The integer in `size` bytes at a position. -/
def integerAt (b : ByteArray) (i size : Nat) (little signed : Bool) : Action Value :=
  let n := wordAt b i size little
  let top : Int := Nat.pow 2 (8 * size)
  let v : Int := if signed && 2 * (n : Int) ≥ top then n - top else n
  let fits := if signed then isInt64 v else n < 0x10000000000000000
  let fits := if size > 8 then (fits || (signed && 0 ≤ v && v < 0x10000000000000000)) else true
  if fits then pure (.int (Int64.ofInt v))
  else raise (toString size ++ "-byte integer does not fit into Lua Integer")

/-- Unpacks by the format from position `i` on the data from position `pos` on; results come in
reverse. -/
def unpackFrom (f data : ByteArray) : (fuel : Nat) → (i pos : Nat) → Layout → List Value →
    Action (List Value)
  | 0, _, pos, _, acc => pure (Value.int (Int64.ofNat (pos + 1)) :: acc)
  | fuel + 1, i, pos, l, acc =>
    if i ≥ f.size then pure (Value.int (Int64.ofNat (pos + 1)) :: acc)
    else do
      let d ← detail f i pos l
      Argument.check (d.gap + d.size ≤ data.size - pos) 2 "data string too short"
      let pos := pos + d.gap
      let little := d.layout.little
      let (vs, extra) ←
        match d.field with
        | .signed | .unsigned => do
          let v ← integerAt data pos d.size little (d.field == .signed)
          pure ([v], 0)
        | .float =>
          let bits := UInt32.ofNat (wordAt data pos 4 little)
          pure ([Value.float (Float32.ofBits bits).toFloat], 0)
        | .double =>
          pure ([Value.float (Float.ofBits (UInt64.ofNat (wordAt data pos 8 little)))], 0)
        | .chars => do pure ([← string (Bytes.slice data pos d.size)], 0)
        | .counted => do
          let n := wordAt data pos d.size little
          Argument.check (n ≤ data.size - pos - d.size) 2 "data string too short"
          pure ([← string (Bytes.slice data (pos + d.size) n)], n)
        | .terminated =>
          match Bytes.indexOf? data (· == 0) pos with
          | some e => do pure ([← string (data.extract pos e)], e - pos + 1)
          | none => badArgument 2 "unfinished string for format 'z'"
        | _ => pure ([], 0)
      unpackFrom f data fuel d.next (pos + d.size + extra) d.layout (vs ++ acc)

/-- The position, counted from 1, that an index means; negative ones count from the end. -/
def startIndex (i : Int64) (size : Nat) : Nat :=
  if 0 < i then i.toNatClampNeg
  else if i == 0 then 1
  else if i.toInt < -(size : Int) then 1
  else ((size : Int) + i.toInt + 1).toNat

/-- Unpacks the second argument by the first. -/
def unpack (args : List Value) : Action (List Value) := do
  let f ← Argument.string args 1
  let data ← Argument.string args 2
  let i ← Argument.integerOr args 3 1
  let pos := startIndex i data.size - 1
  Argument.check (pos ≤ data.size) 3 "initial position out of string"
  let vs ← unpackFrom f data (f.size + 1) 0 pos {} []
  pure vs.reverse

end StoryPack.Script.Packing
