/-
Members of an archive.

A member has a path, which its name stands for, a declared size and a body.  Only
members whose paths are those of pack entries are read; the others are passed
over.

* `normalize` — the path that the name of a member stands for;
* `Member.entry?` — the entry that a member is;
* `Listing` — the files of an archive, up to a fault of the archive.
-/
import StoryPack.Archive.Gzip
import StoryPack.Entry.Basic
import StoryPack.Pack.Fault

namespace StoryPack

/-- Takes away what leads from a directory to itself. -/
def stripDots : List Char → List Char
  | '.' :: '/' :: rest => stripDots rest
  | cs => cs

/-- The path that the name of a member stands for: with slashes only, and without leading `./`. -/
def normalize (name : String) : String :=
  String.ofList (stripDots (name.toList.map fun c => if c = '\\' then '/' else c))

/-- A member of an archive. -/
structure Member where
  /-- The normalized name. -/
  path : String
  /-- The size that the archive declares. -/
  size : Nat
  body : Stream
deriving Inhabited

namespace Member

/-- The greatest number of bytes that can be asked for at once. -/
def capacityLimit : Nat := 0x7fffffffffffffff

/-- The greatest limit that can be set. -/
def limitBound : Nat := 0xffffffffffffffff

/-- How many bytes of a body are read when `limit` are allowed: one more tells that there are too
many. -/
def readLength (limit : Nat) : Nat := min (limit + 1) limitBound

/-- Reads a body: all of it, or no more than shows that it is too long. -/
def read (body : Stream) (limit : Nat) : Except ReadFault ByteArray :=
  let n := readLength limit
  if n ≤ body.data.size then .ok (body.data.extract 0 n)
  else if body.intact then .ok body.data
  else .error .io

/-- The options that a body spells. -/
def parseOptions (path : String) (body : ByteArray) : Except ReadFault Entry :=
  match Json.read body 127 with
  | .ok (.obj members) => .ok (.options members)
  | .ok _ => .error (.optionsNotObject path)
  | .error f => .error (.invalidOptions path f)

/-- The address that a member has, if it is an entry. -/
def address? (m : Member) : Option Address := Address.ofPath? m.path

/-- The entry that a member is; nothing for a member that is none. -/
def entry? (m : Member) (limit : Nat) : Except ReadFault (Option Entry) :=
  match m.address? with
  | none => .ok none
  | some address =>
    if limit < m.size then .error (.entryTooLarge m.path m.size limit)
    else if capacityLimit < m.size then .error (.capacity m.path m.size)
    else
      match read m.body limit with
      | .error f => .error f
      | .ok body =>
        if limit < body.size then .error (.entryTooLarge m.path body.size limit)
        else
          match address with
          | .options => (parseOptions m.path body).map some
          | .script place => .ok (some (.script place body))

/-- The entries that some members are, in their order. -/
def entries (limit : Nat) : List Member → Except ReadFault (List Entry)
  | [] => .ok []
  | m :: rest => do
    let entry ← m.entry? limit
    let others ← entries limit rest
    .ok (entry.toList ++ others)

end Member

/-- The files of an archive in their order, up to the fault that hides the rest, if there is one. -/
structure Listing where
  files : List Member := []
  fault : Option ReadFault := none
deriving Inhabited

namespace Listing

/-- Nothing but a fault. -/
def fail (f : ReadFault) : Listing := { fault := some f }

/-- One file before others. -/
def cons (m : Member) (x : Listing) : Listing := { x with files := m :: x.files }

/-- The entries of an archive in processing order. The files before a fault are read before it is
met. No body may have more than `limit` bytes. -/
def entries (x : Listing) (limit : Nat) : Except ReadFault (List Entry) := do
  let entries ← Member.entries limit x.files
  match x.fault with
  | some f => .error f
  | none => .ok (Entry.sort entries)

end Listing

end StoryPack
