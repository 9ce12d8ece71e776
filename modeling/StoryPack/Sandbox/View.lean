/-
Frozen views of scopes.

A view is an empty table whose metatable carries a mark, the backing table that
holds the data, and metamethods that refuse every write.  Tables inside the
backing table are views themselves, so nothing that scripts can reach through a
view can be changed.

* `Heap.newView` — the view of a backing table;
* `Heap.freeze` — the view of a scope.
-/
import StoryPack.Script.Library
import StoryPack.Scope.Basic

namespace StoryPack

open Script (Heap)

/-- The value of a key of a scope. -/
def Scope.Key.toScript : Scope.Key → Script.Key
  | .integer i => .int i
  | .text s => .str s.toUTF8

namespace Script.Heap

/-- The metatable of the view of a backing table; scripts that ask for it are shown a value. -/
def viewMetatable (backing : Nat) (shown : Value) : Table :=
  let entries : List (ByteArray × Value) :=
    [(Event.index, .table backing), (Event.newindex, .builtin (.view .deny)),
     (Event.len, .builtin (.view .length)), (Event.pairs, .builtin (.view .pairs)),
     (Event.metatable, shown), (viewMark, .bool true)]
  entries.foldl (fun t e => t.set (.str e.1) e.2) {}

/-- Adds the view of a backing table. -/
def newView (h : Heap) (backing : Nat) : Heap × Nat :=
  let (h, m) := h.newTable (viewMetatable backing (.bool false))
  h.newTable { metatable := some m }

mutual

/-- The value of a value of a scope; a table becomes a view. -/
def freezeValue : Scope.Value → Heap → Heap × Value
  | .boolean b, h => (h, .bool b)
  | .integer i, h => (h, .int i)
  | .number x, h => (h, .float x)
  | .text s, h =>
    let b := s.toUTF8
    (h.countString b.size, .str b)
  | .table entries, h =>
    let (h, backing) := h.newTable {}
    let (h, view) := (freezeEntries entries backing h).newView backing
    (h, .table view)
  | .function f, h => (h, .function f)

/-- Puts the entries of a scope into a backing table. -/
def freezeEntries : List (Scope.Key × Scope.Value) → (backing : Nat) → Heap → Heap
  | [], _, h => h
  | (k, v) :: rest, backing, h =>
    let (h, v) := freezeValue v h
    freezeEntries rest backing (h.setKey backing k.toScript v)

end

/-- Adds a view of a scope. -/
def freeze (h : Heap) (t : Scope.Table) : Heap × Nat :=
  let (h, backing) := h.newTable {}
  (freezeEntries t.entries backing h).newView backing

/-- Whether a table is a view. -/
def isView (h : Heap) (r : Nat) : Bool := (h.backing? r).isSome

end Script.Heap

end StoryPack
