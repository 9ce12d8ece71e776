/-
Sandboxes.

A sandbox is the table of the global variables of a script.  It holds harmless
base functions, readers that look through views, views of the string, table and
math libraries, protected calls that an overrun budget passes through, and what
the caller binds.  Nothing else of the interpreter can be reached from it.

* `Host.new` — the interpreter with all that sandboxes share;
* `Host.newSandbox` — a fresh sandbox;
* `Host.execute` — runs a script in a sandbox within a budget;
* `Host.takeScope` — the scope that a script leaves under a name.
-/
import StoryPack.Sandbox.Interpreter
import StoryPack.Sandbox.Fault

namespace StoryPack

open Script (Heap Value)

/-- The table of the global variables of a sandbox. -/
structure Sandbox where
  env : Nat
deriving DecidableEq, Inhabited

/-- The interpreter with what all sandboxes share: the views of the libraries, and the protected
calls. -/
structure Host where
  interpreter : Interpreter
  strings : Nat
  tables : Nat
  maths : Nat
  pcall : Value
  xpcall : Value
deriving Inhabited

namespace Host

/-- The base functions that every sandbox has. -/
def baseAllowed : List (String × Script.BaseFunction) :=
  [("assert", .assert), ("error", .error), ("ipairs", .ipairs), ("pairs", .pairs),
   ("select", .select), ("tonumber", .tonumber), ("tostring", .tostring), ("type", .type),
   ("getmetatable", .getmetatable), ("setmetatable", .setmetatable), ("rawequal", .rawequal)]

/-- The name of the script that makes protected calls. -/
def guardName : String := "protected-call-guard"

/-- The script that makes protected calls: a call in a run that has overrun its budget fails after
all. -/
def guardSource : String :=
  "\nlocal raw, tripped, message = ...\n" ++
  "local pack, unpack = table.pack, table.unpack\n" ++
  "return function(...)\n" ++
  "    local results = pack(raw(...))\n" ++
  "    if tripped() then\n" ++
  "        error(message, 0)\n" ++
  "    end\n" ++
  "    return unpack(results, 1, results.n)\n" ++
  "end\n"

/-- The instructions that a script may run which is executed by itself. -/
def oneOffBudget : Nat := 200

/-- The view of a library. -/
def libraryView (s : Interpreter) (name : String) : Except SnapshotFault (Interpreter × Nat) := do
  match s.global name with
  | .table r => do
    let (h, view) ← Interpreter.freezeTable s.heap r
    return ({ s with heap := h }, view)
  | v => .error (.value v.hostTypeName name)

/-- Makes a protected call out of one that catches all errors. -/
def guardedCall (s : Interpreter) (factory raw : Value) : Interpreter × Value :=
  let message := Value.ofString Script.overrunMessage
  match s.call factory [raw, .builtin .tripped, message] with
  | (s, .values (f :: _)) => (s, f)
  | (s, _) => (s, .nil)

/-- The interpreter with what all sandboxes share, before its memory is looked at. -/
def setUp (limit : Option Nat) : Except SnapshotFault Host := do
  let s := (Interpreter.new limit).setGlobal "debug" .nil
  let (s, strings) ← libraryView s "string"
  let (s, tables) ← libraryView s "table"
  let (s, maths) ← libraryView s "math"
  let (s, _) ← s.guardPrimitives strings
  let (s, factory) :=
    match s.define guardName.toUTF8 guardSource.toUTF8 Heap.globals with
    | .ok (s, f) => (s, f)
    | .error _ => (s, .nil)
  let (s, pcall) := guardedCall s factory (.builtin (.base .pcall))
  let (s, xpcall) := guardedCall s factory (.builtin (.base .xpcall))
  let s := [Value.table strings, .table tables, .table maths, pcall, xpcall].foldl
    Interpreter.hold s
  return { interpreter := s, strings := strings, tables := tables, maths := maths,
           pcall := pcall, xpcall := xpcall }

/-- The interpreter with what all sandboxes share. It does not fit into too little memory. -/
def new (limit : Option Nat) : Except ScriptFault Host :=
  match setUp limit with
  | .error f => .error (.host f.shown)
  | .ok host => if host.interpreter.heap.exhausted then .error .outOfMemory else .ok host

/-- Keeps a value from being lost. -/
def hold (host : Host) (v : Value) : Host :=
  { host with interpreter := host.interpreter.hold v }

/-- The heap. -/
def heap (host : Host) : Heap := host.interpreter.heap

/-- The host with another heap. -/
def withHeap (host : Host) (h : Heap) : Host :=
  { host with interpreter := { host.interpreter with heap := h } }

/-- Gives what has been made of a heap, if there is memory for it. -/
def afford {α : Type} (host : Host) (roots : List Value) (a : α) : Host × Except ScriptFault α :=
  let (s, full) := host.interpreter.settled roots
  ({ host with interpreter := s }, if full then .error .outOfMemory else .ok a)

/-- Adds an empty table. -/
def newTable (host : Host) : Host × Except ScriptFault Nat :=
  let (h, r) := host.heap.newTable {}
  (host.withHeap h).afford [.table r] r

/-- What every sandbox holds from the start, `env` being its table. -/
def defaults (host : Host) (env : Nat) : List (String × Value) :=
  baseAllowed.map (fun e => (e.1, .builtin (.base e.2))) ++
  [("_VERSION", .ofString Interpreter.version)] ++
  Interpreter.readers.map (fun e => (e.1, .builtin (.view e.2))) ++
  [("string", .table host.strings), ("table", .table host.tables), ("math", .table host.maths),
   ("pcall", host.pcall), ("xpcall", host.xpcall), ("_G", .table env)]

/-- Adds the table of a fresh sandbox. Bindings win over what every sandbox holds, and later ones
over earlier ones; `nil` takes a name away. -/
def furnish (host : Host) (bindings : List (String × Value)) : Host × Sandbox :=
  let (h, env) := host.heap.newTable {}
  let h := (host.defaults env ++ bindings).foldl (fun h e => h.setName env e.1 e.2) h
  (host.withHeap h, ⟨env⟩)

/-- A fresh sandbox. -/
def newSandbox (host : Host) (bindings : List (String × Value)) :
    Host × Except ScriptFault Sandbox :=
  let (host, sandbox) := host.furnish bindings
  host.afford [.table sandbox.env] sandbox

/-- The value of a name in a sandbox. -/
def get (host : Host) (sandbox : Sandbox) (name : String) : Value :=
  host.heap.getName sandbox.env name

/-- Gives a name in a sandbox a value. -/
def set (host : Host) (sandbox : Sandbox) (name : String) (v : Value) : Host :=
  host.withHeap (host.heap.setName sandbox.env name v)

/-- The function of a source in a sandbox. -/
def compile (host : Host) (sandbox : Sandbox) (source : ByteArray) (label : String) :
    Except ScriptFault (Host × Value) :=
  let chunk := Script.chunkName ("=" ++ label).toUTF8
  match Bytes.indexOf? label.toUTF8 (· == 0) 0 with
  | some i =>
    .error (.compile label
      ("runtime error: invalid name: nul byte found in provided data at position: " ++
        toString (i + 1)))
  | none =>
    if 0 < source.size && Bytes.byte source 0 == Script.Library.binaryMark then
      .error (.compile label "attempt to load a binary chunk (mode is 't')")
    else
      match host.interpreter.define chunk source sandbox.env with
      | .ok (s, f) => .ok ({ host with interpreter := s }, f)
      | .error .tooDeep =>
        .error (.compile label
          (Utf8.lossy (Script.HostFault.runtime (Script.SourceFault.tooDeep.message chunk)).shown))
      | .error f => .error (.compile label (Utf8.lossy (f.message chunk)))

/-- Runs a script in a sandbox within a budget, and gives the values that it returns. A run that has
overrun its budget fails, whatever the script has made of it. One that takes more moves than there
is patience for is given up. -/
def executeWithin (patience : Nat) (host : Host) (sandbox : Sandbox) (source : ByteArray)
    (label : String) (budget : Option Nat) : Host × Except ScriptFault (List Value) :=
  match host.compile sandbox source label with
  | .error f => (host, .error f)
  | .ok (host, f) =>
    let host := host.withHeap { host.heap with tripped := false }
    let (s, r) := (host.interpreter.hold (.table sandbox.env)).execute patience budget f
    let s := { s with held := host.interpreter.held }
    match r with
    | .unfinished =>
      ({ host with interpreter := s }, .error (.runtime label Interpreter.unfinishedMessage))
    | .values vs =>
      if s.heap.tripped then
        ({ host with interpreter := s }, .error (.resourceLimit label (budget.getD 0)))
      else ({ host with interpreter := s }, .ok vs)
    | .failed e =>
      if s.heap.tripped then
        ({ host with interpreter := s }, .error (.resourceLimit label (budget.getD 0)))
      else
        let (s, fault) := s.faultOf e
        ({ host with interpreter := s }, .error (.runtime label (Utf8.lossy fault.message)))

/-- Runs a script in a sandbox within a budget. -/
def execute (host : Host) (sandbox : Sandbox) (source : ByteArray) (label : String)
    (budget : Option Nat) : Host × Except ScriptFault (List Value) :=
  executeWithin Script.patience host sandbox source label budget

/-- Runs a script by itself. -/
def executeOnce (host : Host) (source : ByteArray) (label : String) :
    Host × Except ScriptFault (List Value) :=
  match host.newSandbox [] with
  | (host, .error f) => (host, .error f)
  | (host, .ok sandbox) => host.execute sandbox source label (some oneOffBudget)

/-- The scope that a script has left under a name. -/
def takeScope (host : Host) (sandbox : Sandbox) (scope label : String) :
    Except ScriptFault Scope.Table :=
  match host.get sandbox scope with
  | .table r =>
    match host.heap.snapshot r with
    | .ok t => .ok t
    | .error f => .error (.runtime label f.shown)
  | v => .error (.scopeNotTable label scope v.hostTypeName)

/-- The view of a scope. -/
def freeze (host : Host) (t : Scope.Table) (roots : List Value) : Host × Except ScriptFault Nat :=
  let (h, view) := host.heap.freeze t
  (host.withHeap h).afford (.table view :: roots) view

/-- Calls a function from outside of any script: its values, or the fault. -/
def call (host : Host) (f : Value) (args : List Value) :
    Host × Except Script.HostFault (List Value) :=
  let (s, r) := host.interpreter.call f args
  match r with
  | .values vs => ({ host with interpreter := s }, .ok vs)
  | .failed e =>
    let (s, fault) := s.faultOf e
    ({ host with interpreter := s }, .error fault)
  | .unfinished =>
    ({ host with interpreter := s }, .error (.runtime Interpreter.unfinishedMessage.toUTF8))

end Host

end StoryPack
