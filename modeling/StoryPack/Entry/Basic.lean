/-
Pack entries.

An entry is an options object or a script with its source.  Entries are
processed in the order of their addresses; entries of equal rank and names keep
their order.

* `Entry.script?` — the entry of a script path;
* `Entry.sort` — the stable sort into processing order.
-/
import StoryPack.Entry.Address
import StoryPack.Json.Basic

namespace StoryPack

/-- An entry of a pack. -/
inductive Entry where
  /-- The members of the options object. -/
  | options (members : List (String × Json))
  /-- A script: where it belongs, and its source. -/
  | script (place : Place) (source : ByteArray)
deriving Inhabited

namespace Entry

/-- The address of an entry. -/
def address : Entry → Address
  | .options _ => .options
  | .script place _ => .script place

/-- The path of an entry. -/
def path (e : Entry) : String := e.address.path

/-- The script entry of a path; `none` for paths that name no script. -/
def script? (path : String) (source : ByteArray) : Option Entry :=
  match Address.ofPath? path with
  | some (.script place) => some (.script place source)
  | _ => none

/-- The order of processing. -/
def compare (a b : Entry) : Ordering := Address.compare a.address b.address

/-- Sorts into processing order; entries that tie keep their order. -/
def sort (entries : List Entry) : List Entry :=
  entries.mergeSort fun a b => compare a b != .gt

end Entry

end StoryPack
