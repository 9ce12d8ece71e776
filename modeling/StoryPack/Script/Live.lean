/-
The collector.

Now and then the collector looks for what can still be reached.  It counts the
bytes in use anew, and it takes entries out of weak tables: those whose keys or
values a table was told not to hold, and nothing else holds.  It runs between two
instructions, when the pace of the heap says so or more bytes are counted than may
be in use.

While a library function waits for a call, nobody can tell what it holds.  The
collector only counts then, and no entry vanishes.

* `Weakness`, `Heap.weakness` — what a table does not hold by itself;
* `Marks.reach`, `Marks.complete` — marks what values reach, and counts its bytes;
* `Marks.dead`, `Heap.without` — the entries that vanish, and the heap without them;
* `Heap.collected` — the heap after the collector has run;
* `State.roots` — the values that a state holds;
* `State.collect` — runs the collector, and fails the run when too much is live.
-/
import StoryPack.Script.Machine
import Std.Data.HashSet

namespace StoryPack.Script

/-- What a table does not hold by itself: its keys, its values, or both. -/
structure Weakness where
  keys : Bool := false
  values : Bool := false
deriving DecidableEq, Inhabited

namespace Weakness

/-- The weakness that a metatable's entry for it stands for. -/
def ofMode : Value → Weakness
  | .str mode =>
    let letters := mode.data.toList.takeWhile (· != 0)
    { keys := letters.contains 107, values := letters.contains 118 }
  | _ => {}

/-- Strings are no objects, and never vanish. -/
def isText : Value → Bool
  | .str _ => true
  | _ => false

/-- Adds what a table holds of an entry by itself. Where only the keys are weak, a value is held by
the key, so it is not added here. -/
def hold (w : Weakness) (e : Key × Value) (found : List Value) : List Value :=
  let found := if w.keys && !isText e.1.toValue then found else e.1.toValue :: found
  if (w.keys || w.values) && !isText e.2 then found else e.2 :: found

end Weakness

/-- The weakness of a table. -/
def Heap.weakness (h : Heap) (t : Table) : Weakness :=
  match t.metatable with
  | some m => .ofMode (h.getKey m (.str Event.mode))
  | none => {}

/-- What has been reached, with its size, and the values that are still to be looked at. -/
structure Marks where
  tables : Array Bool
  closures : Array Bool
  cells : Array Bool
  searches : Array Bool
  faults : Array Bool
  strings : Std.HashSet ByteArray := ∅
  bytes : Nat := 0
  /-- The weak tables that have been reached. -/
  weak : List Nat := []
  pending : List Value := []

namespace Marks

/-- Nothing reached yet. -/
def start (h : Heap) (pending : List Value) : Marks where
  tables := Array.replicate h.tables.size false
  closures := Array.replicate h.closures.size false
  cells := Array.replicate h.cells.size false
  searches := Array.replicate h.searches.size false
  faults := Array.replicate h.faults.size false
  pending := pending

/-- Whether a value has been reached; what is no object always has. -/
def isLive (m : Marks) : Value → Bool
  | .table r => m.tables.getD r true
  | .function (.closure r) => m.closures.getD r true
  | .function (.matcher r) => m.searches.getD r true
  | .fault r => m.faults.getD r true
  | _ => true

/-- Reaches a cell. -/
def cell (h : Heap) (m : Marks) (c : Nat) : Marks :=
  if m.cells.getD c true then m
  else { m with
    cells := m.cells.set! c true, bytes := m.bytes + 40, pending := h.cell c :: m.pending }

/-- Reaches a table. -/
def table (h : Heap) (m : Marks) (r : Nat) : Marks :=
  if m.tables.getD r true then m
  else
    let t := h.table r
    let w := h.weakness t
    let found := t.entries.foldl (fun found e => w.hold e found) m.pending
    let found :=
      match t.metatable with
      | some k => .table k :: found
      | none => found
    { m with
      tables := m.tables.set! r true, bytes := m.bytes + t.weight
      weak := if w = {} then m.weak else r :: m.weak, pending := found }

/-- Reaches a closure. -/
def closure (h : Heap) (m : Marks) (r : Nat) : Marks :=
  if m.closures.getD r true then m
  else
    let c := (h.closures[r]?).getD default
    c.upvalues.foldl (cell h)
      { m with
        closures := m.closures.set! r true, bytes := m.bytes + 40 + 8 * c.upvalues.size }

/-- Reaches the state of a search. -/
def search (h : Heap) (m : Marks) (r : Nat) : Marks :=
  if m.searches.getD r true then m
  else
    let s := (h.searches[r]?).getD default
    { m with
      searches := m.searches.set! r true, bytes := m.bytes + 100
      pending := .str s.subject :: .str s.pattern :: m.pending }

/-- Reaches an error object. -/
def fault (m : Marks) (r : Nat) : Marks :=
  if m.faults.getD r true then m
  else { m with faults := m.faults.set! r true, bytes := m.bytes + 100 }

/-- Reaches a value. -/
def value (h : Heap) (m : Marks) (v : Value) : Marks :=
  match v with
  | .str b =>
    if m.strings.contains b then m
    else { m with strings := m.strings.insert b, bytes := m.bytes + b.size + 24 }
  | .table r => m.table h r
  | .function (.closure r) => m.closure h r
  | .function (.matcher r) => m.search h r
  | .fault r => m.fault r
  | _ => m

/-- Marks all that the pending values reach. -/
def reach (h : Heap) : (fuel : Nat) → Marks → Marks
  | 0, m => m
  | fuel + 1, m =>
    match m.pending with
    | [] => m
    | v :: rest => reach h fuel ({ m with pending := rest }.value h v)

/-- The values that their keys hold in tables whose keys are weak, as far as they have not been
reached. -/
def late (h : Heap) (m : Marks) : List Value :=
  m.weak.flatMap fun r =>
    let t := h.table r
    if (h.weakness t).values then []
    else
      (t.entries.filter fun e => m.isLive e.1.toValue && !m.isLive e.2).map (·.2)

end Marks

/-- A bound on the values that are looked at when a heap is marked. -/
def Heap.reachBound (h : Heap) : Nat :=
  3 * (h.tables.foldl (fun n t => n + 2 * t.array.size + 2 * t.slots.size + 1) 0 + h.cells.size +
    h.searches.size + 1)

namespace Marks

/-- Marks all that is reached, round by round: in each, what the keys reached so far hold. -/
def complete (h : Heap) : (rounds : Nat) → Marks → Marks
  | 0, m => m
  | rounds + 1, m =>
    let m := m.reach h (h.reachBound + m.pending.length)
    match m.late h with
    | [] => m
    | late => complete h rounds { m with pending := late ++ m.pending }

/-- The entries of weak tables that hold something weakly that has not been reached. -/
def dead (h : Heap) (m : Marks) : List (Nat × Key) :=
  m.weak.flatMap fun r =>
    let t := h.table r
    let w := h.weakness t
    (t.entries.filter fun e =>
      w.keys && !m.isLive e.1.toValue || w.values && !m.isLive e.2).map fun e => (r, e.1)

end Marks

/-- The objects of a heap. -/
def Heap.objects (h : Heap) : Nat :=
  h.tables.size + h.closures.size + h.searches.size + h.faults.size

/-- Marks all that some values reach, and the metatables of the basic types. -/
def Heap.marked (h : Heap) (roots : List Value) : Marks :=
  (Marks.start h (h.shared.roots ++ roots)).complete h (h.objects + 1)

/-- The heap without some entries of its tables. -/
def Heap.without (h : Heap) (gone : List (Nat × Key)) : Heap :=
  gone.foldl (fun h e => h.setKey e.1 e.2 .nil) h

/-- The heap after the collector has run, which starts from some values. Where they are not all that
is held from outside of the heap, no entry vanishes. -/
def Heap.collected (h : Heap) (roots : List Value) (all : Bool) : Heap :=
  let m := h.marked roots
  let gone := if all then m.dead h else []
  { h.without gone with
    used := h.base + m.bytes, kept := h.base + m.bytes
    vanished := gone.map (·.1) ++ h.vanished }

/-- Whether hardly any bytes are left. -/
def Heap.exhausted (h : Heap) : Bool :=
  match h.limit with
  | some n => n < h.used + n / 64
  | none => false

/-- The values that a call of a script function holds. -/
def Frame.roots (h : Heap) (f : Frame) (found : List Value) : List Value :=
  let found := f.registers.foldl (fun found v => v :: found) found
  let found := f.boxes.foldl (fun found c => h.cell c :: found) found
  let found := f.upvalues.foldl (fun found c => h.cell c :: found) found
  let found := f.varargs.foldl (fun found v => v :: found) found
  let found := f.hand.foldl (fun found v => v :: found) found
  f.closing.foldl (fun found c => c.2 :: found) found

/-- The values that the call holds at an instruction: those of the registers in use there. -/
def Frame.rootsAt (h : Heap) (f : Frame) (pc : Nat) (found : List Value) : List Value :=
  { f with registers := f.registers.extract 0 (f.proto.inUseAt pc) }.roots h found

/-- The value that a failure holds. -/
def Failure.roots : Failure → List Value
  | .thrown v => [v]
  | .memory => []

/-- The values that a waiting task holds. A function waits at the instruction before the next. -/
def Task.roots (h : Heap) (t : Task) (found : List Value) : List Value :=
  match t with
  | .script f => f.rootsAt h (f.pc - 1) found
  | .guard (some v) _ => v :: found
  | .closing e rest => rest.foldl (fun found c => c.2 :: found) (e.roots ++ found)
  | _ => found

namespace State

/-- The values that a state holds. -/
def roots (s : State) : List Value :=
  let now :=
    match s.mode with
    | .execute f => f.rootsAt s.heap f.pc []
    | .call _ f args => f :: args
    | .deliver vs => vs
    | .raise e | .unwind e | .ended (.failed e) => e.roots
    | .ended (.values vs) => vs
  s.held ++ s.stack.foldl (fun found t => t.roots s.heap found) now

/-- Whether the roots are all that a state holds: no library function or operator waits. -/
def showsAll (s : State) : Bool :=
  s.stack.all fun
    | .library .. | .operation _ => false
    | _ => true

/-- Runs the collector. The run fails when hardly any bytes are left. -/
def collect (s : State) : State :=
  let s := { s with heap := s.heap.collected s.roots s.showsAll }
  if s.heap.exhausted then s.unwinding .memory else s

end State

end StoryPack.Script
