/-
The interpreter behind all sandboxes.

Values of the basic types share one metatable per type.  They are replaced once,
before any script runs, by metatables that show scripts a view: scripts can read
how strings behave but can not change it.

* `Interpreter.new` — the libraries, all of them reachable from the global
  variables;
* `Interpreter.guardPrimitives` — the metatables of the basic types;
* `Interpreter.define` — the function of a source;
* `Interpreter.call` — calls a function, and says how it ended.
-/
import StoryPack.Script.Run
import StoryPack.Sandbox.View
import StoryPack.Sandbox.Snapshot

namespace StoryPack

open Script (Heap HostFault Failure SourceFault)

/-- An interpreter. -/
structure Interpreter where
  heap : Heap := {}
  /-- Whether the metatables of the basic types have been replaced. -/
  guarded : Bool := false
  /-- What must not be lost, besides what a running script holds. -/
  held : List Script.Value := []
deriving Inhabited

namespace Interpreter

/-- The version of the script language. -/
def version : String := "Lua 5.4"

/-- The bytes that are in use before any library is set up. -/
def initialBytes : Nat := 20000

/-- Adds a library as a table of functions. -/
def addLibrary (h : Heap) (entries : List (String × Script.Builtin)) : Heap × Nat :=
  let (h, r) := h.newTable {}
  (entries.foldl (fun h e => h.setName r e.1 (.builtin e.2)) h, r)

/-- The metatable that the string library gives to strings: they are indexed through the library,
and arithmetic takes the numbers that they spell. -/
def stringMetatable (h : Heap) (library : Nat) : Heap × Nat :=
  let (h, r) := h.newTable {}
  let operators : List Script.Arith := [.add, .sub, .mul, .mod, .pow, .div, .idiv, .unm]
  let h := operators.foldl
    (fun h op => h.setName r ("__" ++ op.eventName) (.builtin (.stringArith op))) h
  (h.setKey r (.str Script.Event.index) (.table library), r)

/-- The constants of the mathematical library. -/
def mathConstants : List (String × Script.Value) :=
  [("pi", .float 3.141592653589793), ("huge", .float (1.0 / 0.0)),
   ("maxinteger", .int Int64.maxValue), ("mininteger", .int Int64.minValue)]

/-- The readers that look through views. -/
def readers : List (String × Script.ViewFunction) :=
  [("next", .next), ("rawget", .rawget), ("rawlen", .rawlen)]

/-- An interpreter with all libraries. A limit of no bytes is none. -/
def new (limit : Option Nat) : Interpreter :=
  let h : Heap :=
    { base := initialBytes, used := initialBytes, kept := initialBytes
      limit := limit.filter fun n => n != 0 }
  let (h, globals) := addLibrary h (Script.Library.baseNames.map fun e => (e.1, .base e.2))
  let h := h.setName globals "_G" (.table globals)
  let h := h.setName globals "_VERSION" (.ofString version)
  let (h, strings) := addLibrary h (Script.Library.stringNames.map fun e => (e.1, .string e.2))
  let (h, tables) := addLibrary h (Script.Library.tableNames.map fun e => (e.1, .table e.2))
  let (h, maths) := addLibrary h (Script.Library.mathNames.map fun e => (e.1, .math e.2))
  let h := mathConstants.foldl (fun h e => h.setName maths e.1 e.2) h
  let (h, debug) := addLibrary h (Script.Library.debugNames.map fun e => (e.1, .debug e.2))
  let h := h.setName globals "string" (.table strings)
  let h := h.setName globals "table" (.table tables)
  let h := h.setName globals "math" (.table maths)
  let h := h.setName globals "debug" (.table debug)
  let (h, m) := stringMetatable h strings
  { heap := { h with shared := h.shared.put .string (some m) }, held := [.table globals] }

/-- A global variable. -/
def global (s : Interpreter) (name : String) : Script.Value := s.heap.getName Heap.globals name

/-- Gives a global variable a value. -/
def setGlobal (s : Interpreter) (name : String) (v : Script.Value) : Interpreter :=
  { s with heap := s.heap.setName Heap.globals name v }

/-- Keeps a value from being lost. -/
def hold (s : Interpreter) (v : Script.Value) : Interpreter := { s with held := v :: s.held }

/-- The view of a snapshot of a table. -/
def freezeTable (h : Heap) (r : Nat) : Except SnapshotFault (Heap × Nat) := do
  return h.freeze (← h.snapshot r)

/-- Gives all values of a basic type a metatable that shows scripts a view of the present one. -/
def guardKind (h : Heap) (kind : Script.Kind) : Except SnapshotFault Heap := do
  let (h, view) ←
    match h.shared.of kind with
    | some m => freezeTable h m
    | none =>
      let (h, backing) := h.newTable {}
      .ok (h.newView backing)
  let (h, m) := h.newTable {}
  let h := h.setKey m (.str Script.Event.metatable) (.table view)
  return { h with shared := h.shared.put kind (some m) }

/-- Gives strings a metatable in which only the library has been replaced by its view. -/
def guardStrings (h : Heap) (strings : Nat) : Except SnapshotFault Heap := do
  let present :=
    match h.shared.string with
    | some m => (h.table m).entries
    | none => []
  let (h, live) := h.newTable {}
  let h := present.foldl (fun h e => h.setKey live e.1 e.2) h
  let h := h.setKey live (.str Script.Event.index) (.table strings)
  let h := h.setKey live (.str Script.Event.metatable) .nil
  let (h, view) ← freezeTable h live
  let h := h.setKey live (.str Script.Event.metatable) (.table view)
  return { h with shared := h.shared.put .string (some live) }

/-- Replaces the metatables of the basic types, unless that has been done: says whether it has been
done now. `strings` is the view of the string library. -/
def guardPrimitives (s : Interpreter) (strings : Nat) : Except SnapshotFault (Interpreter × Bool) :=
  if s.guarded then .ok (s, false)
  else do
    let kinds : List Script.Kind := [.boolean, .number, .nil, .function, .thread]
    let h ← kinds.foldlM guardKind s.heap
    let h ← guardStrings h strings
    return ({ s with heap := h, guarded := true }, true)

/-- The function of a source, whose global variables are those of a table. -/
def define (s : Interpreter) (chunk : ByteArray) (source : ByteArray) (env : Nat) :
    Except SourceFault (Interpreter × Script.Value) := do
  let p ← Script.compile chunk source
  let (h, cell) := s.heap.newCell (.table env)
  let (h, f) := h.newClosure ⟨p, #[cell]⟩
  return ({ s with heap := h }, .function (.closure f))

/-- Calls a function in place of which an error leaves all variables open. -/
def execute (s : Interpreter) (patience : Nat) (budget : Option Nat) (f : Script.Value) :
    Interpreter × Script.Conclusion :=
  let (h, r) := s.heap.perform patience false budget s.held f []
  ({ s with heap := h }, r)

/-- Calls a function. -/
def call (s : Interpreter) (f : Script.Value) (args : List Script.Value) :
    Interpreter × Script.Conclusion :=
  let (h, r) := s.heap.perform Script.patience true none s.held f args
  ({ s with heap := h }, r)

/-- What is said of a call that has not ended within the patience for it. -/
def unfinishedMessage : String := "the call has not ended"

/-- The fault that an error is which has been shown as a text, the showing having ended somehow. -/
def shownFault (s : Interpreter) (v : Script.Value) : Script.Conclusion → HostFault
  | .values (.str b :: _) | .failed (.thrown (.str b)) => .runtime b
  | .failed (.thrown (.fault r)) => (s.heap.faults[r]?).getD default
  | .failed .memory => .memory
  | _ => .runtime v.typeName.toUTF8

/-- The fault that an uncaught error is. An error that is no string is shown as one. -/
def faultOf (s : Interpreter) (e : Failure) : Interpreter × HostFault :=
  match e with
  | .memory => (s, .memory)
  | .thrown (.str b) => (s, .runtime b)
  | .thrown (.fault r) => (s, (s.heap.faults[r]?).getD default)
  | .thrown v =>
    let (s, r) := s.call (.builtin (.base .tostring)) [v]
    (s, s.shownFault v r)

/-- What a source gives: it is read as an expression if it is one, and else as a block. -/
def evaluate (s : Interpreter) (chunk source : ByteArray) :
    Interpreter × Except String (List Script.Value) :=
  let defined : Except SourceFault (Interpreter × Script.Value) :=
    match s.define chunk ("return ".toUTF8 ++ source) Heap.globals with
    | .ok r => .ok r
    | .error _ => s.define chunk source Heap.globals
  match defined with
  | .error .tooDeep =>
    (s, .error (Utf8.lossy (HostFault.runtime (SourceFault.tooDeep.message chunk)).shown))
  | .error f => (s, .error ("syntax error: " ++ Utf8.lossy (f.message chunk)))
  | .ok (s, f) =>
    match s.call f [] with
    | (s, .values vs) => (s, .ok vs)
    | (s, .failed e) =>
      let (s, fault) := s.faultOf e
      (s, .error (Utf8.lossy fault.shown))
    | (s, .unfinished) => (s, .error unfinishedMessage)

/-- The interpreter in which the readers of the base library look through views. -/
def withReaders (s : Interpreter) : Interpreter :=
  readers.foldl (fun s e => s.setGlobal e.1 (.builtin (.view e.2))) s

/-- Runs the collector if memory is short: says whether hardly any is left. -/
def settled (s : Interpreter) (roots : List Script.Value) : Interpreter × Bool :=
  if s.heap.overfull then
    let h := s.heap.collected (roots ++ s.held) true
    ({ s with heap := h }, h.exhausted)
  else (s, false)

end Interpreter

end StoryPack
