/-
Snapshots of tables.

A snapshot is the scope that a table holds: first its sequence part, then its
other entries in the order of the table.  Views are read through to their data.
Tables that contain themselves have no snapshot, and neither have tables with
keys other than integers and texts, or with error objects.

* `Heap.snapshot` — the scope of a table, or why it has none;
* `SnapshotFault.shown` — the wording of a fault.
-/
import StoryPack.Script.Library
import StoryPack.Scope.Basic
import StoryPack.Text.Utf8

namespace StoryPack

/-- Why a table has no snapshot. Paths lead from the table to the fault. -/
inductive SnapshotFault where
  /-- A table contains itself. -/
  | cycle (path : String)
  /-- A key is neither an integer nor a string. -/
  | key (typeName path : String)
  /-- A value can not be kept. -/
  | value (typeName path : String)
  /-- A string is no text. -/
  | notText (fault : Utf8.Fault)
deriving Inhabited

namespace SnapshotFault

/-- A path as messages show it. -/
def shownPath (path : String) : String := if path.isEmpty then "<root>" else path

/-- The fault as one of the host. -/
def toHostFault : SnapshotFault → Script.HostFault
  | .cycle path =>
    .runtime (("cyclic table at `" ++ shownPath path ++ "` cannot be frozen").toUTF8)
  | .key t path => .runtime (("unsupported " ++ t ++ " key in `" ++ shownPath path ++ "`").toUTF8)
  | .value t path =>
    .runtime (("cannot freeze " ++ t ++ " value at `" ++ shownPath path ++ "`").toUTF8)
  | .notText f => .conversion (("error converting Lua string to &str (" ++ f.message ++ ")").toUTF8)

/-- The wording of a fault. -/
def shown (f : SnapshotFault) : String := Utf8.lossy f.toHostFault.shown

end SnapshotFault

namespace Script.Heap

/-- The path of an entry of a table. -/
def childPath (path : String) : Scope.Key → String
  | .integer i => path ++ "[" ++ toString i.toInt ++ "]"
  | .text s => if path.isEmpty then s else path ++ "." ++ s

/-- The text of a string. -/
def snapshotText (b : ByteArray) : Except SnapshotFault String :=
  match Utf8.text b with
  | .ok s => .ok s
  | .error f => .error (.notText f)

/-- The key of a scope that a key is. -/
def snapshotKey (path : String) : Key → Except SnapshotFault Scope.Key
  | .int i => .ok (.integer i)
  | .str b => do return .text (← snapshotText b)
  | k => .error (.key k.toValue.hostTypeName path)

/-- The entries of a table in the order of its snapshot: the sequence part comes first. -/
def snapshotOrder (t : Table) : List (Key × Value) :=
  let border := t.length
  let sequence := (List.range border).filterMap fun i =>
    let k := Key.int (Int64.ofNat (i + 1))
    let v := t.get k
    if v.isNil then none else some (k, v)
  let others := t.entries.filter fun e =>
    match e.1 with
    | .int i => !(1 ≤ i.toInt && i.toInt ≤ border)
    | _ => true
  sequence ++ others

/-- The entries of the snapshot of a table. The tables that are being looked at must not come
again. -/
def snapshotEntries (h : Heap) : (fuel : Nat) → (visiting : List Nat) → (path : String) →
    (r : Nat) → Except SnapshotFault (List (Scope.Key × Scope.Value))
  | 0, _, path, _ => .error (.cycle path)
  | fuel + 1, visiting, path, r =>
    let r := h.readThrough r
    if visiting.contains r then .error (.cycle path)
    else
      (snapshotOrder (h.table r)).mapM fun e => do
        let k ← snapshotKey path e.1
        let child := childPath path k
        match e.2 with
        | .bool b => return (k, .boolean b)
        | .int i => return (k, .integer i)
        | .float x => return (k, .number x)
        | .str b => return (k, .text (← snapshotText b))
        | .table c => return (k, .table (← snapshotEntries h fuel (r :: visiting) child c))
        | .function f => return (k, .function f)
        | v => .error (.value v.hostTypeName child)

/-- The scope that a table holds. -/
def snapshot (h : Heap) (r : Nat) : Except SnapshotFault Scope.Table := do
  return ⟨← snapshotEntries h (h.tables.size + 2) [] "" r⟩

end Script.Heap

end StoryPack
