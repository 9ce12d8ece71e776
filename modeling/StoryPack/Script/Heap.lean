/-
The heap of the interpreter.

Tables, closures, the cells of captured variables, the states of pattern
searches and the error objects of the host live in arenas; a reference is a
position in its arena.  Objects are never removed, so references stay good; of
what can no longer be reached the collector only takes the bytes off the count,
and the entries out of weak tables.  The heap also counts bytes: how many are in
use, and how many may be.  It leaves open when the collector runs, and which
addresses objects are shown with.

Finalizers are left out: a function under `__gc` in a metatable is never called.

* `Heap.newTable`, `Heap.setKey`, `Heap.getKey` — tables;
* `Heap.metatable?` — the metatable of any value;
* `Heap.used`, `Heap.limit` — the count of bytes;
* `Heap.pace`, `Heap.isDue` — when the collector runs;
* `Heap.globals` — the table of the global variables.
-/
import StoryPack.Script.Code
import StoryPack.Script.Table

namespace StoryPack.Script

/-- A closure: a compiled function and the cells of the variables it captured. -/
structure Closure where
  proto : Proto
  upvalues : Array Nat
deriving Inhabited

/-- The state of a search for all matches of a pattern. -/
structure Search where
  subject : ByteArray
  pattern : ByteArray
  /-- Where the next match may begin. -/
  position : Nat
  /-- Where the last match ended. -/
  last : Option Nat
deriving Inhabited

/-- A fault that a function of the host raises. -/
inductive HostFault where
  /-- A fault with a message of its own. -/
  | runtime (message : ByteArray)
  /-- A value of the wrong type was given. -/
  | conversion (message : ByteArray)
  /-- There is no memory left. -/
  | memory
deriving Inhabited, DecidableEq

/-- What is said when there is no memory left. -/
def memoryMessage : String := "not enough memory"

/-- The text of a fault when it is shown by itself. -/
def HostFault.shown : HostFault → ByteArray
  | .runtime m => Bytes.ofString "runtime error: " ++ m
  | .conversion m => m
  | .memory => Bytes.ofString ("memory error: " ++ memoryMessage)

/-- The text of a fault without what says that it is one. -/
def HostFault.message : HostFault → ByteArray
  | .runtime m => m
  | f => f.shown

/-- The metatables that all values of a basic type share. -/
structure KindTables where
  nil : Option Nat := none
  boolean : Option Nat := none
  number : Option Nat := none
  string : Option Nat := none
  function : Option Nat := none
  thread : Option Nat := none
deriving Inhabited, DecidableEq

/-- The metatable that a basic type has. Tables and error objects keep their own. -/
def KindTables.of (t : KindTables) : Kind → Option Nat
  | .nil => t.nil
  | .boolean => t.boolean
  | .number => t.number
  | .string => t.string
  | .function => t.function
  | .thread => t.thread
  | .table | .userdata => none

/-- The metatables of all basic types. -/
def KindTables.roots (t : KindTables) : List Value :=
  [t.nil, t.boolean, t.number, t.string, t.function, t.thread].filterMap fun m =>
    m.map Value.table

/-- Gives a basic type a metatable. -/
def KindTables.put (t : KindTables) (k : Kind) (m : Option Nat) : KindTables :=
  match k with
  | .nil => { t with nil := m }
  | .boolean => { t with boolean := m }
  | .number => { t with number := m }
  | .string => { t with string := m }
  | .function => { t with function := m }
  | .thread => { t with thread := m }
  | .table | .userdata => t

/-- The address that stands for an object in its text. -/
def Value.address : Value → Nat
  | .table r => 0x55d000000000 + 64 * r
  | .function (.closure r) => 0x55e000000000 + 32 * r
  | .function (.matcher r) => 0x55f000000000 + 32 * r
  | .function (.builtin f) => 0x560000000000 + (hash f).toNat % 0x100000 * 16
  | .fault r => 0x561000000000 + 32 * r
  | _ => 0

/-- When the collector runs, unless memory is short: it is told how many tables there have been, how
many bytes are in use, and how many were when it had last run. -/
abbrev Pace := (tables used kept : Nat) → Bool

namespace Pace

/-- The collector runs when the bytes in use have doubled. All tables that there have been count a
little as well, since it passes over them. -/
def doubling : Pace := fun tables used kept => 2 * kept + 8 * tables < used

/-- The collector does not run. -/
def resting : Pace := fun _ _ _ => false

end Pace

/-- The heap. -/
structure Heap where
  tables : Array Table := #[]
  closures : Array Closure := #[]
  /-- The first cell belongs to no variable: it stands for the boxes that have none yet. -/
  cells : Array Value := #[.nil]
  searches : Array Search := #[]
  faults : Array HostFault := #[]
  shared : KindTables := {}
  /-- Whether the present run has overrun its budget. -/
  tripped : Bool := false
  /-- The bytes that are in use from the start. -/
  base : Nat := 0
  /-- The bytes in use. -/
  used : Nat := 0
  /-- The bytes that may be in use; `none` for no limit. -/
  limit : Option Nat := none
  /-- The bytes that were in use when the collector had last run. -/
  kept : Nat := 0
  /-- The weak tables that the collector has taken entries out of, once for each entry and the last
  one first. -/
  vanished : List Nat := []
  pace : Pace := Pace.doubling
  /-- The addresses of objects, as they are shown. -/
  place : Value → Nat := Value.address
deriving Inhabited

namespace Heap

/-- The table of the global variables of the interpreter: the first table. -/
def globals : Nat := 0

/-- The table of a reference. -/
@[inline] def table (h : Heap) (r : Nat) : Table := (h.tables[r]?).getD {}

/-- Adds a table. -/
def newTable (h : Heap) (t : Table) : Heap × Nat :=
  let r := h.tables.size
  ({ h with tables := h.tables.push t, used := h.used + t.weight }, r)

/-- Adds a closure. -/
def newClosure (h : Heap) (c : Closure) : Heap × Nat :=
  let r := h.closures.size
  ({ h with closures := h.closures.push c, used := h.used + 40 + 8 * c.upvalues.size }, r)

/-- Adds a cell. -/
@[inline] def newCell (h : Heap) (v : Value) : Heap × Nat :=
  let r := h.cells.size
  ({ h with cells := h.cells.push v, used := h.used + 40 }, r)

/-- Adds the state of a search. -/
def newSearch (h : Heap) (s : Search) : Heap × Nat :=
  let r := h.searches.size
  ({ h with searches := h.searches.push s, used := h.used + 100 }, r)

/-- Adds an error object. -/
def newFault (h : Heap) (f : HostFault) : Heap × Nat :=
  let r := h.faults.size
  ({ h with faults := h.faults.push f, used := h.used + 100 }, r)

/-- The content of a cell. -/
@[inline] def cell (h : Heap) (r : Nat) : Value := (h.cells[r]?).getD .nil

/-- Writes a cell. The first cell is no variable's and stays as it is. -/
@[inline] def setCell (h : Heap) (r : Nat) (v : Value) : Heap :=
  if r = 0 then h else { h with cells := h.cells.set! r v }

@[simp] theorem tables_setCell (h : Heap) (r : Nat) (v : Value) :
    (h.setCell r v).tables = h.tables := by
  unfold setCell
  split <;> rfl

@[simp] theorem tripped_setCell (h : Heap) (r : Nat) (v : Value) :
    (h.setCell r v).tripped = h.tripped := by
  unfold setCell
  split <;> rfl

@[simp] theorem limit_setCell (h : Heap) (r : Nat) (v : Value) :
    (h.setCell r v).limit = h.limit := by
  unfold setCell
  split <;> rfl

@[simp] theorem pace_setCell (h : Heap) (r : Nat) (v : Value) :
    (h.setCell r v).pace = h.pace := by
  unfold setCell
  split <;> rfl

@[simp] theorem vanished_setCell (h : Heap) (r : Nat) (v : Value) :
    (h.setCell r v).vanished = h.vanished := by
  unfold setCell
  split <;> rfl

/-- The value of a key in a table. -/
@[inline] def getKey (h : Heap) (r : Nat) (k : Key) : Value :=
  match h.tables[r]? with
  | some t => t.get k
  | none => .nil

/-- Gives a key of a table a value. -/
def setKey (h : Heap) (r : Nat) (k : Key) (v : Value) : Heap :=
  let before := (h.table r).weight
  let h := { h with tables := h.tables.modify r fun t => t.set k v }
  let after := (h.table r).weight
  { h with used := h.used + after - before }

/-- Gives a text key of a table a value. -/
def setName (h : Heap) (r : Nat) (name : String) (v : Value) : Heap :=
  h.setKey r (.str name.toUTF8) v

/-- The value of a text key of a table. -/
def getName (h : Heap) (r : Nat) (name : String) : Value := h.getKey r (.str name.toUTF8)

/-- Gives a table a metatable, or takes it away. -/
def setMetatable (h : Heap) (r : Nat) (m : Option Nat) : Heap :=
  { h with tables := h.tables.modify r fun t => { t with metatable := m } }

/-- The metatable of a value. -/
@[inline] def metatable? (h : Heap) (v : Value) : Option Nat :=
  match v with
  | .table r =>
    match h.tables[r]? with
    | some t => t.metatable
    | none => none
  | .str _ => h.shared.string
  | .nil => h.shared.nil
  | .bool _ => h.shared.boolean
  | .int _ | .float _ => h.shared.number
  | .function _ => h.shared.function
  | .fault _ => none

/-- Gives all values of the type of `v` a metatable; tables keep one each. -/
def setSharedMetatable (h : Heap) (v : Value) (m : Option Nat) : Heap :=
  match v with
  | .table r => h.setMetatable r m
  | v => { h with shared := h.shared.put v.kind m }

/-- The field of a value's metatable; `nil` without one. -/
def metafield (h : Heap) (v : Value) (event : ByteArray) : Value :=
  match h.metatable? v with
  | some m => h.getKey m (.str event)
  | none => .nil

/-- Counts the bytes of a new string. -/
@[inline] def countString (h : Heap) (n : Nat) : Heap := { h with used := h.used + n + 24 }

/-- Whether more bytes are in use than may be. -/
@[inline] def overfull (h : Heap) : Bool :=
  match h.limit with
  | some n => n < h.used
  | none => false

/-- Whether it is time for the collector to run. -/
@[inline] def isDue (h : Heap) : Bool := h.overfull || h.pace h.tables.size h.used h.kept

end Heap

end StoryPack.Script
