/-
Zip archives.

A zip archive ends with a directory of its members and a record that says where
the directory is.  The record is looked for from the end; what stands before the
archive shifts all positions.  A damaged directory gives way to an earlier record,
if there is one.  Of members with one name the last counts.

* `Zip.directory` — the members of an archive;
* `Zip.listing` — the files of an archive.
-/
import StoryPack.Archive.Member

namespace StoryPack

namespace Zip

open Bytes (byte word)

/-- What a record begins with. -/
def endMark : ByteArray := ⟨#[0x50, 0x4b, 5, 6]⟩

/-- What a directory entry begins with. -/
def directoryMark : ByteArray := ⟨#[0x50, 0x4b, 1, 2]⟩

/-- What a member begins with. -/
def memberMark : ByteArray := ⟨#[0x50, 0x4b, 3, 4]⟩

/-- What a long record begins with. -/
def longEndMark : ByteArray := ⟨#[0x50, 0x4b, 6, 6]⟩

/-- What the pointer to a long record begins with. -/
def longPointerMark : ByteArray := ⟨#[0x50, 0x4b, 6, 7]⟩

/-- The bound of positions and sizes. -/
def sizeBound : Nat := 0x10000000000000000

/-- The characters of the bytes from 128 on in names that are not marked as Unicode. -/
def upperHalf : Array Char :=
  ("ÇüéâäàåçêëèïîìÄÅÉæÆôöòûùÿÖÜ¢£¥₧ƒ" ++ "áíóúñÑªº¿⌐¬½¼¡«»░▒▓│┤╡╢╖╕╣║╗╝╜╛┐" ++
    "└┴┬├─┼╞╟╚╔╩╦╠═╬╧╨╤╥╙╘╒╓╫╪┘┌█▄▌▐▀" ++ "αßΓπΣσµτΦΘΩδ∞φε∩≡±≥≤⌠⌡÷≈°∙·√ⁿ²■\u00a0").toList.toArray

/-- The text of a name that is not marked as Unicode. -/
def plainName (b : ByteArray) : String :=
  b.foldl (fun s x =>
    s.push (if x < 128 then Char.ofNat x.toNat else upperHalf.getD (x.toNat - 128) '?')) "" 0 b.size

/-- How a member is stored. -/
inductive Method where
  | stored | deflated | unsupported
deriving DecidableEq, Repr, Inhabited

/-- The method of a number. -/
def Method.ofNumber : Nat → Method
  | 0 => .stored
  | 8 => .deflated
  | _ => .unsupported

/-- An entry of the directory. -/
structure Listed where
  name : String
  encrypted : Bool
  method : Method
  checksum : Nat
  compressedSize : Nat
  size : Nat
  /-- Where the member begins. -/
  start : Nat
deriving Inhabited

/-- Where a directory is. -/
structure Locus where
  /-- The position of the record. -/
  record : Nat
  /-- How far all positions are shifted. -/
  shift : Nat
  /-- Where the directory would be without the shift. -/
  offset : Nat
  count : Nat
  /-- Whether the archive is in one part. -/
  isWhole : Bool
deriving Inhabited

/-- The first position from `i` at which a mark stands whole before `stop`. -/
def findMark (b mark : ByteArray) (i stop : Nat) : Option Nat :=
  (Bytes.find? b mark i).filter fun j => j + 4 ≤ stop

/-! ### Long records -/

/-- The long record that a pointer in front of a record leads to. -/
def longLocus? (b : ByteArray) (record : Nat) : Option (Option Locus) :=
  if record < 20 || !Bytes.hasAt b longPointerMark (record - 20) then none
  else
    let pointer := record - 20
    let disk := word b (pointer + 4) 4
    let offset := word b (pointer + 8) 8
    if pointer ≤ offset || 1 < word b (pointer + 16) 4 then some none
    else some (search disk offset pointer (b.size + 1) offset)
where
  /-- Looks for the long record from a position on. -/
  search (disk offset pointer : Nat) : (fuel : Nat) → (i : Nat) → Option Locus
    | 0, _ => none
    | fuel + 1, i =>
      match findMark b longEndMark i pointer with
      | none => none
      | some j =>
        let count := word b (j + 32) 8
        let start := word b (j + 48) 8
        let sound := j + 56 ≤ b.size && word b (j + 20) 4 == disk &&
          word b (j + 4) 8 + 12 == pointer - j && min (count * 46 + start) (sizeBound - 1) ≤ j
        if sound then
          some
            { record := record, shift := j - offset, offset := start, count := count
              isWhole := word b (j + 16) 4 == word b (j + 20) 4 &&
                word b (j + 24) 8 ≤ count && word b (j + 14) 2 ≤ word b (j + 12) 2 }
        else search disk offset pointer fuel (j + 1)

/-! ### Records -/

/-- Where the directory of a record at some position is. -/
def locus? (b : ByteArray) (record : Nat) : Option Locus :=
  if b.size < record + 22 || b.size < record + 22 + word b (record + 20) 2 then none
  else
    let total := word b (record + 10) 2
    let offset := word b (record + 16) 4
    let long :=
      if total == 0xffff || offset == 0xffffffff then longLocus? b record else none
    match long with
    | some found => found
    | none =>
      let locus (shift : Nat) : Locus :=
        { record := record, shift := shift, offset := offset, count := word b (record + 8) 2
          isWhole := word b (record + 4) 2 == word b (record + 6) 2 }
      if total == 0 then some (locus (record - offset))
      else if record ≤ offset then none
      else (findMark b directoryMark offset record).map fun j => locus (j - offset)

/-! ### The directory -/

/-- Takes up the extra fields of an entry: long sizes, and a name in Unicode with the checksum of
the plain one. Nothing when an extra field is wrong; one that is cut off ends them. -/
def takeExtras (raw : ByteArray) (b : ByteArray) : (fuel : Nat) → (i : Nat) → Listed → Option Listed
  | 0, _, e => some e
  | fuel + 1, i, e =>
    if b.size < i + 4 then some e
    else
      let kind := word b i 2
      let length := word b (i + 2) 2
      let next := i + 4 + length
      if kind == 0x7075 then
        if length < 5 then none
        else if b.size < next then some e
        else
          let name := b.extract (i + 9) next
          if word b (i + 5) 4 != (crc32 raw).toNat then none
          else
            match Utf8.text? name with
            | some s => takeExtras raw b fuel next { e with name := s }
            | none => none
      else if kind == 1 then
        let (e, i) := longField b (i + 4) e.size e (fun n => { e with size := n })
        let (e, i) := longField b i e.compressedSize e (fun n => { e with compressedSize := n })
        let (e, i) := longField b i e.start e (fun n => { e with start := n })
        takeExtras raw b fuel (max i next) e
      else takeExtras raw b fuel next e
where
  /-- Takes up a long number in place of one that says that it is long. -/
  longField (b : ByteArray) (i present : Nat) (e : Listed) (set : Nat → Listed) : Listed × Nat :=
    if present != 0xffffffff then (e, i)
    else if b.size < i + 8 then (e, b.size)
    else (set (word b i 8), i + 8)

/-- The entry of the directory at a position, and the position after it. -/
def listedAt (b : ByteArray) (shift i : Nat) : Option (Listed × Nat) :=
  if b.size < i + 46 || !Bytes.hasAt b directoryMark i then none
  else
    let flags := word b (i + 8) 2
    let nameLength := word b (i + 28) 2
    let extraLength := word b (i + 30) 2
    let next := i + 46 + nameLength + extraLength + word b (i + 32) 2
    if b.size < next then none
    else
      let raw := b.extract (i + 46) (i + 46 + nameLength)
      let extra := b.extract (i + 46 + nameLength) (i + 46 + nameLength + extraLength)
      let plain : Listed :=
        { name := if flags &&& 0x800 != 0 then Utf8.lossy raw else plainName raw
          encrypted := flags &&& 1 != 0
          method := Method.ofNumber (word b (i + 10) 2)
          checksum := word b (i + 16) 4
          compressedSize := word b (i + 20) 4
          size := word b (i + 24) 4
          start := word b (i + 42) 4 }
      match takeExtras raw extra (extra.size + 1) 0 plain with
      | some e =>
        if e.start + shift < sizeBound then some ({ e with start := e.start + shift }, next)
        else none
      | none => none

/-- Some entries of the directory from a position on. -/
def listed (b : ByteArray) (shift : Nat) : (count : Nat) → (i : Nat) → Option (List Listed)
  | 0, _ => some []
  | n + 1, i => do
    let (e, next) ← listedAt b shift i
    let rest ← listed b shift n next
    some (e :: rest)

/-- The directory at a locus. -/
def directoryAt (b : ByteArray) (l : Locus) : Option (List Listed) :=
  if l.isWhole && l.offset + l.shift < sizeBound then listed b l.shift l.count (l.offset + l.shift)
  else none

/-- Puts an entry in the place of the one with its name, or at the end. -/
def putListed : List Listed → Listed → List Listed
  | [], e => [e]
  | f :: rest, e => if f.name = e.name then e :: rest else f :: putListed rest e

/-- The directory that the last good record leads to whose mark begins before `stop`. Marks do not
overlap. -/
def directoryBefore (b : ByteArray) : (fuel : Nat) → (stop : Nat) → Option (List Listed)
  | 0, _ => none
  | fuel + 1, stop =>
    match Bytes.findLast? b endMark stop with
    | none => none
    | some record =>
      match (locus? b record).bind (directoryAt b) with
      | some es => some es
      | none => directoryBefore b fuel (record - 3)

/-- The members of an archive. -/
def directory (b : ByteArray) : Option (List Listed) :=
  (directoryBefore b (b.size + 1) b.size).map fun es => es.foldl putListed []

/-! ### Members -/

/-- The bytes of a member from a position on. Its checksum is compared at its end. -/
def bodyFrom (b : ByteArray) (e : Listed) (start : Nat) : Stream :=
  let packed := b.extract start (min (start + e.compressedSize) b.size)
  let checked (data : ByteArray) : Stream :=
    { data := data, intact := (crc32 data).toNat == e.checksum }
  match e.method with
  | .deflated =>
    match inflate packed 0 with
    | (data, .finished _) => checked data
    | (data, .truncated) => checked data
    | (data, .corrupt) => { data := data.extract 0 (data.size - 1), intact := false }
  | _ => checked packed

/-- The body of a member, if it can be read. -/
def body? (b : ByteArray) (e : Listed) : Option Stream :=
  if e.encrypted || b.size < e.start + 30 || !Bytes.hasAt b memberMark e.start ||
      e.method == .unsupported then none
  else some (bodyFrom b e (e.start + 30 + word b (e.start + 26) 2 + word b (e.start + 28) 2))

/-- Whether a name is that of a directory. -/
def isDirectoryName (name : String) : Bool :=
  match name.toList.getLast? with
  | some c => c = '/' || c = '\\'
  | none => false

/-- The files among some members. -/
def filesOf (b : ByteArray) : List Listed → Listing
  | [] => {}
  | e :: rest =>
    match body? b e with
    | none => .fail .zip
    | some body =>
      if isDirectoryName e.name then filesOf b rest
      else .cons ⟨normalize e.name, e.size, body⟩ (filesOf b rest)

/-- The files of an archive. -/
def listing (b : ByteArray) : Listing :=
  match directory b with
  | none => .fail .zip
  | some es => filesOf b es

end Zip

end StoryPack
