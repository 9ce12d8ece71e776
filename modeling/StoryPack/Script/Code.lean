/-
Compiled scripts.

A compiled function (`Proto`) is an array of instructions over registers.  Local
variables that inner functions capture live in boxes, each of which holds a heap
cell; all others live in registers.  Next to each instruction stand its line and
the names under which its operands appear in the source, for error messages.

* `Constant` — the values that stand in the source;
* `Operand` — what an instruction reads, at the moment it runs;
* `Instr` — the instructions;
* `Proto` — a compiled function.
-/
import StoryPack.Script.Value

namespace StoryPack.Script

/-- How the source names a value. -/
inductive NameKind where
  | global | localVariable | method | field | upvalue | constant | iterator | metamethod
deriving DecidableEq, Repr, Inhabited

/-- The words for a kind of name in a message. -/
def NameKind.text : NameKind → String
  | .global => "global"
  | .localVariable => "local"
  | .method => "method"
  | .field => "field"
  | .upvalue => "upvalue"
  | .constant => "constant"
  | .iterator => "for iterator"
  | .metamethod => "metamethod"

/-- The name of a value in the source. -/
structure Name where
  kind : NameKind
  text : ByteArray
deriving DecidableEq, Inhabited

/-- The name as a remark in brackets, after a blank. -/
def Name.remark (n : Name) : ByteArray :=
  Bytes.ofString (" (" ++ n.kind.text ++ " '") ++ n.text ++ Bytes.ofString "')"

/-- A value that stands in the source. A double is given by its bits. -/
inductive Constant where
  | nil
  | bool (b : Bool)
  | int (i : Int64)
  | float (bits : UInt64)
  | str (s : ByteArray)
deriving DecidableEq, Inhabited

/-- The value of a constant. -/
@[inline] def Constant.value : Constant → Value
  | .nil => .nil
  | .bool b => .bool b
  | .int i => .int i
  | .float bits => .float (Float.ofBits bits)
  | .str s => .str s

/-- What an instruction reads. -/
inductive Operand where
  | register (r : Nat)
  /-- The content of a captured local variable. -/
  | box (b : Nat)
  /-- The content of a captured variable of an outer function. -/
  | upvalue (u : Nat)
  | constant (c : Constant)
deriving DecidableEq, Inhabited

/-- What an assignment to a variable writes. -/
inductive Place where
  | register (r : Nat)
  | box (b : Nat)
  | upvalue (u : Nat)
deriving DecidableEq, Inhabited

/-- The comparisons. -/
inductive Comparison where
  | eq | lt | le
deriving DecidableEq, Repr

/-- What becomes of the values that a call returns. -/
inductive Want where
  /-- They are dropped. -/
  | none
  /-- The first `count` go into registers, missing ones as `nil`. -/
  | registers (first count : Nat)
  /-- All are kept at hand for the next instruction. -/
  | all
  /-- The flow jumps if the truth of the first one is `sense`. -/
  | test (sense : Bool) (target : Nat)
  /-- They are the values that the function itself returns. -/
  | result
  /-- They are dropped, and the instruction runs once more. -/
  | again
deriving DecidableEq, Inhabited

/-- An instruction. Registers are numbered within the function. An instruction that takes a run of
registers takes the values at hand after them when `more` is set. -/
inductive Instr where
  | move (dst : Place) (src : Operand)
  /-- Puts a fresh cell with a value into a box. -/
  | freshBox (b : Nat) (src : Operand)
  | newTable (dst array slots : Nat)
  /-- Stores a run of values under the integers after `offset`. -/
  | setList (table first count offset : Nat) (more : Bool)
  | index (dst : Nat) (object key : Operand)
  | setIndex (object key value : Operand)
  /-- Reads a method, and keeps the object as its first argument. -/
  | method (dst : Nat) (object : Operand) (key : Operand)
  | arith (op : Arith) (dst : Nat) (a b : Operand)
  | not (dst : Nat) (a : Operand)
  | length (dst : Nat) (a : Operand)
  | concat (dst first count : Nat)
  | jump (target : Nat)
  | test (a : Operand) (sense : Bool) (target : Nat)
  | compare (op : Comparison) (a b : Operand) (sense : Bool) (target : Nat)
  | closure (dst : Nat) (proto : Nat)
  | varargs (want : Want)
  | call (function arguments : Nat) (more : Bool) (want : Want)
  | tailCall (function arguments : Nat) (more : Bool)
  | ret (first count : Nat) (more : Bool)
  /-- Collects the values to return, so that variables can be closed before. -/
  | stash (first count : Nat) (more : Bool)
  /-- Prepares a numeric loop on three registers, or jumps past it. -/
  | forPrepare (base target : Nat)
  /-- Goes on with a numeric loop. -/
  | forLoop (base target : Nat)
  /-- Calls the iterator of a generic loop. -/
  | iterate (base count : Nat)
  /-- Goes on with a generic loop while there is a first value. -/
  | iterateLoop (base target : Nat)
  /-- Marks a variable to be closed. -/
  | markClose (level : Nat) (a : Operand)
  /-- Closes the marked variables from a level up. -/
  | close (level : Nat)
deriving DecidableEq, Inhabited

/-- Where a new closure takes a captured variable from. -/
inductive Capture where
  | box (b : Nat)
  | upvalue (u : Nat)
deriving DecidableEq, Inhabited

/-- A compiled function. -/
structure Proto where
  code : Array Instr
  /-- The line of each instruction. -/
  lines : Array Nat
  /-- The names of the operands of each instruction. -/
  names : Array (List (Option Name))
  /-- How many registers are in use at each instruction: what the others hold is never read. -/
  inUse : Array Nat
  protos : Array Proto
  captures : Array Capture
  parameters : Nat
  isVararg : Bool
  registers : Nat
  /-- How many boxes there are. -/
  boxes : Nat
  /-- The name of the chunk, as messages show it. -/
  chunk : ByteArray
  /-- The names of marked variables by their levels. -/
  closeNames : List (Nat × ByteArray)
deriving Inhabited

/-- The line of an instruction. -/
def Proto.lineAt (p : Proto) (pc : Nat) : Nat := p.lines.getD pc 0

/-- The name of an operand of an instruction. -/
def Proto.nameAt (p : Proto) (pc which : Nat) : Option Name :=
  ((p.names.getD pc []).getD which none)

/-- How many registers are in use at an instruction. -/
def Proto.inUseAt (p : Proto) (pc : Nat) : Nat := p.inUse.getD pc p.registers

/-- The position of an instruction, as it stands before a message. -/
def Proto.position (p : Proto) (pc : Nat) : ByteArray :=
  p.chunk ++ Bytes.ofString (":" ++ toString (p.lineAt pc) ++ ": ")

end StoryPack.Script
