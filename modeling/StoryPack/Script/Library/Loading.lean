/-
Loading sources at run time.

* `Library.load` — the function of a source that is given as a string or piece by
  piece;
* `Library.loadfile`, `Library.dofile` — the function of a file, and what it
  returns.  There are no files, and the standard input is at its end.
-/
import StoryPack.Script.Library.Argument
import StoryPack.Script.Compilation

namespace StoryPack.Script.Library

open StoryPack.Script.Action

/-- The byte that begins compiled code, which is not read. -/
def binaryMark : UInt8 := 0x1b

/-- The source that a function gives piece by piece; nothing when a piece is no string. -/
def pieces (f : Value) : (fuel : Nat) → ByteArray → Action (Option ByteArray)
  | 0, acc => pure (some acc)
  | fuel + 1, acc => do
    match ← call1 f [] with
    | .nil => pure (some acc)
    | .str s => if s.isEmpty then pure (some acc) else pieces f fuel (acc ++ s)
    | _ => pure none

/-- The function of a source, or `nil` and the message of its fault. -/
def loadSource (source chunk mode : ByteArray) (env : Value) : Action (List Value) := do
  let refuse (m : ByteArray) : Action (List Value) := do
    pure [.nil, ← string m]
  let isBinary := 0 < source.size && Bytes.byte source 0 == binaryMark
  let wanted : UInt8 := if isBinary then 98 else 116
  if (Bytes.indexOf? mode (· == wanted) 0).isNone then
    refuse (("attempt to load a " ++ (if isBinary then "binary" else "text") ++
      " chunk (mode is '").toUTF8 ++ mode ++ "')".toUTF8)
  else if isBinary then
    refuse (chunkName chunk ++ ": bad binary format (truncated chunk)".toUTF8)
  else
    match compile (chunkName chunk) source with
    | .error f => refuse (f.message (chunkName chunk))
    | .ok p => do
      let f ← update fun h =>
        let (h, cell) := h.newCell env
        h.newClosure ⟨p, #[cell]⟩
      pure [.function (.closure f)]

/-- The function of a source. -/
def load (args : List Value) : Action (List Value) := do
  let mode ← Argument.stringOr args 3 "bt".toUTF8
  let env := if Argument.given args 4 then Argument.get args 4 else .table Heap.globals
  match Argument.get args 1 with
  | .str s => do
    let chunk ← Argument.stringOr args 2 s
    loadSource s chunk mode env
  | .function f => do
    let chunk ← Argument.stringOr args 2 "=(load)".toUTF8
    match ← pieces (.function f) 0x1000000000000000 ByteArray.empty with
    | some source => loadSource source chunk mode env
    | none => pure [.nil, ← text "reader function must return a string"]
  | _ => Argument.wrongType args 1 "function"

/-- The function of a file, or of the standard input when no file is named. -/
def loadfile (args : List Value) : Action (List Value) := do
  let mode ← Argument.stringOr args 2 "bt".toUTF8
  let env := if Argument.given args 3 then Argument.get args 3 else .table Heap.globals
  if (Argument.get args 1).isNil then loadSource ByteArray.empty "=stdin".toUTF8 mode env
  else
    let name ← Argument.string args 1
    let fault := "cannot open ".toUTF8 ++ name ++ ": No such file or directory".toUTF8
    pure [.nil, ← string fault]

/-- What the function of a file returns. -/
def dofile (args : List Value) : Action (List Value) := do
  match ← loadfile (args.take 1) with
  | .nil :: fault => fail (.value (fault.headD .nil))
  | vs => call (vs.headD .nil) []

end StoryPack.Script.Library
