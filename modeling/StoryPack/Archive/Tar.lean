/-
Tar archives.

A tar archive is a run of blocks of 512 bytes: each member is a header and the
blocks of its body.  A block of zeros ends the archive, and so does the end of
the stream before a header.  Some members describe the next one: they give it a
long name or records that extend its header.

* `Tar.headerAt` — the header at a position, or the end;
* `Tar.listing` — the files of an archive.
-/
import StoryPack.Archive.Member

namespace StoryPack

namespace Tar

open Bytes (byte)

/-- The size of a block. -/
@[irreducible] def blockSize : Nat := 512

/-- The bound of sizes and positions. -/
def sizeBound : Nat := 0x10000000000000000

/-! ### Fields of a header -/

/-- The bytes of a field. -/
def field (h : ByteArray) (start length : Nat) : ByteArray := h.extract start (start + length)

/-- The characters that count as blank around a number. -/
def isBlank (c : Char) : Bool :=
  let n := c.toNat
  (9 ≤ n && n ≤ 13) || n == 0x20 || n == 0x85 || n == 0xa0 || n == 0x1680 ||
    (0x2000 ≤ n && n ≤ 0x200a) || n == 0x2028 || n == 0x2029 || n == 0x202f || n == 0x205f ||
    n == 0x3000

/-- Takes the blanks off both ends. -/
def trim (cs : List Char) : List Char := ((cs.dropWhile isBlank).reverse.dropWhile isBlank).reverse

/-- The number that digits spell in a base of at most ten, if it is below the bound. -/
def number? (base : Nat) (cs : List Char) : Option Nat :=
  let digits :=
    match cs with
    | '+' :: rest => rest
    | cs => cs
  if digits.isEmpty then none
  else
    (digits.foldlM (fun n c =>
      if '0' ≤ c && c.toNat < 48 + base then some (n * base + (c.toNat - 48)) else none) 0).filter
        fun n => n < sizeBound

/-- The number that a field spells in octal digits. -/
def octal? (f : ByteArray) : Option Nat :=
  match Utf8.text? (Bytes.beforeNul f) with
  | some s => number? 8 (trim s.toList)
  | none => none

/-- The number in a field: octal digits, or, when the highest bit is set, the last eight bytes. -/
def numeric? (f : ByteArray) : Option Nat :=
  if byte f 0 &&& 0x80 == 0 then octal? f
  else some ((f.extract (f.size - 8) f.size).foldl (fun n x => n * 256 + x.toNat) 0 0 8)

/-- The sum of the bytes of a header, in which the bytes of the checksum count as blanks. -/
def checksum (h : ByteArray) : Nat :=
  let sum (b : ByteArray) : Nat := b.foldl (fun n x => n + x.toNat) 0 0 b.size
  sum (h.extract 0 148) + sum (h.extract 156 h.size) + 8 * 32

/-- Whether a header has the checksum that it declares. -/
def isSound (h : ByteArray) : Bool := octal? (field h 148 8) == some (checksum h)

/-- The dialects of headers that know members that describe the next one. -/
inductive Dialect where
  | old | ustar | gnu
deriving DecidableEq, Repr

/-- The dialect of a header. -/
def dialect (h : ByteArray) : Dialect :=
  if Bytes.hasAt h ("ustar".toUTF8.push 0 ++ "00".toUTF8) 257 then .ustar
  else if Bytes.hasAt h ("ustar  ".toUTF8.push 0) 257 then .gnu
  else .old

/-- What kind of member a header begins. -/
inductive MemberKind where
  | file
  /-- The long name of the next member. -/
  | longName
  /-- The long target of a link that comes next. -/
  | longLink
  /-- Records about the next member. -/
  | records
  | sparse
  | other
deriving DecidableEq, Repr

/-- The kind of the member that a header begins. -/
def memberKind (h : ByteArray) : MemberKind :=
  let extended := dialect h != .old
  match (byte h 156).toNat with
  | 0 | 48 => .file
  | 76 => if extended then .longName else .other
  | 75 => if extended then .longLink else .other
  | 120 => if extended then .records else .other
  | 83 => .sparse
  | _ => .other

/-- The name in a header. -/
def headerName (h : ByteArray) : ByteArray :=
  let name := Bytes.beforeNul (field h 0 100)
  match dialect h with
  | .ustar =>
    let before := Bytes.beforeNul (field h 345 155)
    if before.isEmpty then name else before ++ "/".toUTF8 ++ name
  | _ => name

/-! ### Records -/

/-- Cuts bytes into lines. -/
def lines (b : ByteArray) : List ByteArray :=
  let (done, last) := b.foldl (fun (acc : List ByteArray × ByteArray) x =>
    if x == 10 then (acc.2 :: acc.1, ByteArray.empty) else (acc.1, acc.2.push x))
      ([], ByteArray.empty) 0 b.size
  (last :: done).reverse

/-- The key and the value of a record: its length, a blank, the key, `=` and the value. -/
def record? (line : ByteArray) : Option (ByteArray × ByteArray) := do
  let blank ← Bytes.indexOf? line (· == 32) 0
  let length ← Utf8.text? (line.extract 0 blank)
  let n ← number? 10 length.toList
  if n != line.size + 1 then none
  else
    let equals ← Bytes.indexOf? line (· == 61) (blank + 1)
    some (line.extract (blank + 1) equals, line.extract (equals + 1) line.size)

/-- The records up to the first empty line; `none` for one that is malformed. -/
def records (b : ByteArray) : List (Option (ByteArray × ByteArray)) :=
  ((lines b).takeWhile fun l => !l.isEmpty).map record?

/-- The name that records give. -/
def recordedName? (b : ByteArray) : Option ByteArray :=
  (((records b).filterMap id).find? fun r => r.1 == "path".toUTF8).map (·.2)

/-- The size that records give; a malformed record before it hides it. -/
def recordedSize? (b : ByteArray) : Option Nat :=
  find (records b)
where
  find : List (Option (ByteArray × ByteArray)) → Option Nat
    | [] | none :: _ => none
    | some (k, v) :: rest =>
      if k == "size".toUTF8 then (Utf8.text? v).bind fun s => number? 10 s.toList else find rest

/-! ### Members -/

/-- What members have said about the next one. -/
structure Described where
  longName : Option ByteArray := none
  longLink : Bool := false
  records : Option ByteArray := none
deriving Inhabited

/-- What stands at the position of a header. -/
inductive HeaderResult where
  | header (h : ByteArray)
  | finished
  | fault
deriving Inhabited

/-- The header at a position of a stream. -/
def headerAt (s : Stream) (i : Nat) : HeaderResult :=
  if i + blockSize ≤ s.data.size then
    let h := s.data.extract i (i + blockSize)
    if h.foldl (fun zero x => zero && x == 0) true 0 h.size then .finished else .header h
  else if i == s.data.size && s.intact then .finished
  else .fault

/-- The size of a member; the size in records counts before the one in the header, which has to be a
number all the same. -/
def sizeOf? (h : ByteArray) (d : Described) : Option Nat :=
  (numeric? (field h 124 12)).map fun size => (d.records.bind recordedSize?).getD size

/-- The position after the blocks of a body, if it is within the bound. -/
def afterBody? (start size : Nat) : Option Nat :=
  if size + (blockSize - 1) < sizeBound then
    let next := start + (size + (blockSize - 1)) / blockSize * blockSize
    if next < sizeBound then some next else none
  else none

/-- The body at a position: as many bytes as there are. -/
def bodyAt (s : Stream) (start size : Nat) : Stream :=
  let data := s.data.extract start (start + size)
  { data := data, intact := data.size == size || s.intact }

/-- The bytes of a member that describes the next one. -/
def description? (s : Stream) (start size : Nat) : Option ByteArray :=
  let body := bodyAt s start size
  if body.intact then some body.data else none

/-- The name of a member. -/
def nameOf (h : ByteArray) (d : Described) : String :=
  let bytes :=
    match d.longName with
    | some name => if byte name (name.size - 1) == 0 then name.extract 0 (name.size - 1) else name
    | none => (d.records.bind recordedName?).getD (headerName h)
  Utf8.lossy bytes

/-! ### Sparse files -/

/-- How far the map of a sparse file has been followed: the end of its last part, and the bytes of
the body that are left. -/
structure SparseMap where
  reached : Nat
  left : Nat
deriving Inhabited

/-- Follows one part of a map. Parts must come in order and fit into the body. -/
def SparseMap.add (size : Nat) (m : SparseMap) (part : ByteArray) : Option SparseMap :=
  if byte part 0 == 0 || byte part 12 == 0 then some m
  else do
    let offset ← numeric? (field part 0 12)
    let length ← numeric? (field part 12 12)
    if (length != 0 && (size - m.left) % blockSize != 0) || offset < m.reached ||
        sizeBound ≤ offset + length || m.left < length then none
    else some { reached := offset + length, left := m.left - length }

/-- Follows parts of a map that stand one after another. -/
def SparseMap.addAll (size : Nat) (b : ByteArray) (start count : Nat) (m : SparseMap) :
    Option SparseMap :=
  (List.range count).foldlM (fun m i => m.add size (field b (start + 24 * i) 24)) m

/-- Follows further blocks of a map: the map, and the position after them. -/
def moreParts (s : Stream) (size : Nat) : (fuel : Nat) → (i : Nat) → SparseMap →
    Option (SparseMap × Nat)
  | 0, _, _ => none
  | fuel + 1, i, m =>
    if s.data.size < i + blockSize then none
    else do
      let b := s.data.extract i (i + blockSize)
      let m ← m.addAll size b 0 21
      if byte b 504 == 1 then moreParts s size fuel (i + blockSize) m
      else some (m, i + blockSize)

/-- How many bytes of further blocks the map of a sparse file takes, if the map is sound. -/
def sparseExtra? (s : Stream) (h : ByteArray) (start size : Nat) : Option Nat :=
  if dialect h != .gnu then none
  else do
    let m ← SparseMap.addAll size h 386 4 { reached := 0, left := size }
    let (m, next) ←
      if byte h 482 == 1 then moreParts s size (s.data.size + 1) start m else some (m, start)
    let real ← numeric? (field h 483 12)
    if m.reached == real && m.left == 0 then some (next - start) else none

/-! ### Files -/

/-- The files from a position on, of which the next member has been described. -/
def filesFrom (s : Stream) : (fuel : Nat) → (i : Nat) → Described → Listing
  | 0, _, _ => .fail .io
  | fuel + 1, i, d =>
    match headerAt s i with
    | .fault => .fail .io
    | .finished =>
      if d.longName.isSome || d.longLink || d.records.isSome then .fail .io else {}
    | .header h =>
      let start := i + blockSize
      if !isSound h then .fail .io
      else
        match sizeOf? h d with
        | none => .fail .io
        | some size =>
          match afterBody? start size with
          | none => .fail .io
          | some next =>
            match memberKind h with
            | .longName =>
              match d.longName, description? s start size with
              | none, some name => filesFrom s fuel next { d with longName := some name }
              | _, _ => .fail .io
            | .longLink =>
              match d.longLink, description? s start size with
              | false, some _ => filesFrom s fuel next { d with longLink := true }
              | _, _ => .fail .io
            | .records =>
              match d.records, description? s start size with
              | none, some b => filesFrom s fuel next { d with records := some b }
              | _, _ => .fail .io
            | .sparse =>
              match sparseExtra? s h start size with
              | some extra => filesFrom s fuel (next + extra) {}
              | none => .fail .io
            | .other => filesFrom s fuel next {}
            | .file =>
              .cons ⟨normalize (nameOf h d), size, bodyAt s start size⟩ (filesFrom s fuel next {})

/-- The files of an archive. -/
def listing (s : Stream) : Listing :=
  filesFrom s (s.data.size / blockSize + 2) 0 {}

end Tar

end StoryPack
