/-
Writing code.

While a function is compiled its instructions are written one after another.
Jumps lead to labels, which are placed when the code they lead to is written and
become positions when the function is complete.  The slots of the local variables
are the first registers; above them registers are taken and given back like a
stack.

* `Emitter` — the code so far;
* `Emit.temp`, `Emit.lend` — registers for values on their way;
* `Emit.newLabel`, `Emit.place` — labels;
* `Emitter.finish` — the complete function.
-/
import StoryPack.Script.Tree

namespace StoryPack.Script

/-- Replaces the label of a jump behind a call. -/
def Want.mapTarget (f : Nat → Nat) : Want → Want
  | .test sense target => .test sense (f target)
  | w => w

/-- Replaces the label of a jump. -/
def Instr.mapTarget (f : Nat → Nat) : Instr → Instr
  | .jump target => .jump (f target)
  | .test a sense target => .test a sense (f target)
  | .compare op a b sense target => .compare op a b sense (f target)
  | .varargs want => .varargs (want.mapTarget f)
  | .call fn arguments more want => .call fn arguments more (want.mapTarget f)
  | .forPrepare base target => .forPrepare base (f target)
  | .forLoop base target => .forLoop base (f target)
  | .iterateLoop base target => .iterateLoop base (f target)
  | i => i

/-- The code of a function that is being compiled. -/
structure Emitter where
  code : Array Instr := #[]
  lines : Array Nat := #[]
  names : Array (List (Option Name)) := #[]
  /-- How many registers are in use at each instruction. -/
  inUse : Array Nat := #[]
  protos : Array Proto := #[]
  /-- The positions of the labels. -/
  labels : Array Nat
  /-- How many slots are in use at each label of the source. -/
  levels : Array Nat
  /-- Where the jumps of the source lead. -/
  jumps : Array Nat
  /-- Which declared variables are captured. -/
  captured : Array Bool
  /-- The slots of the open variables that are to be closed, innermost first. -/
  closing : List Nat := []
  closeNames : List (Nat × ByteArray) := []
  /-- The next free register. -/
  free : Nat
  /-- How many registers are needed. -/
  registers : Nat
  /-- The name of the chunk, as messages show it. -/
  chunk : ByteArray
deriving Inhabited

/-- An action that writes code. -/
abbrev Emit (α : Type) := StateM Emitter α

namespace Emit

/-- Writes an instruction. -/
def instr (i : Instr) (line : Nat) (names : List (Option Name) := []) : Emit PUnit :=
  modify fun s => { s with
    code := s.code.push i, lines := s.lines.push line, names := s.names.push names
    inUse := s.inUse.push s.free }

/-- A new label. -/
def newLabel : Emit Nat := do
  let n := (← get).labels.size
  modify fun s => { s with labels := s.labels.push 0 }
  return n

/-- Places a label at the next instruction. -/
def place (n : Nat) : Emit PUnit :=
  modify fun s => { s with labels := s.labels.set! n s.code.size }

/-- Takes a register. -/
def temp : Emit Nat := do
  let r := (← get).free
  modify fun s => { s with free := r + 1, registers := max s.registers (r + 1) }
  return r

/-- Gives back the registers that an action takes. -/
@[inline] def lend {α : Type} (x : Emit α) : Emit α := do
  let free := (← get).free
  let a ← x
  modify fun s => { s with free := free }
  return a

/-- Puts `nil` into a run of registers. -/
def nils (first : Nat) (line : Nat) : (count : Nat) → Emit PUnit
  | 0 => return
  | n + 1 => do
    instr (.move (.register first) (.constant .nil)) line
    nils (first + 1) line n

/-- Whether a declared variable is captured. -/
def isCaptured (v : LocalVar) : Emit Bool := do
  return (← get).captured.getD v.id false

/-- What reads a local variable. -/
def varOperand (v : LocalVar) : Emit Operand := do
  if ← isCaptured v then return .box v.slot else return .register v.slot

/-- What writes a local variable. -/
def varPlace (v : LocalVar) : Emit Place := do
  if ← isCaptured v then return .box v.slot else return .register v.slot

/-- Puts a captured variable whose first value is in the register of its slot into a fresh box. -/
def declare (v : LocalVar) (line : Nat) : Emit PUnit := do
  if ← isCaptured v then instr (.freshBox v.slot (.register v.slot)) line

/-- Marks a variable to be closed. -/
def markClose (slot : Nat) (name : ByteArray) (a : Operand) (line : Nat) : Emit PUnit := do
  instr (.markClose slot a) line
  modify fun s => { s with
    closing := slot :: s.closing, closeNames := (slot, name) :: s.closeNames }

/-- Closes the open variables from a level up that are to be closed, if there are any. -/
def closeFrom (level line : Nat) : Emit PUnit := do
  if (← get).closing.any fun c => level ≤ c then instr (.close level) line

/-- Ends a block: its variables are closed and are no longer open. -/
def closeBlock (level line : Nat) : Emit PUnit := do
  closeFrom level line
  modify fun s => { s with closing := s.closing.filter fun c => c < level }

end Emit

/-- The complete function. -/
def Emitter.finish (s : Emitter) (captures : Array CaptureSource) (parameters : Nat)
    (isVararg : Bool) (slots : Nat) : Proto where
  code := s.code.map fun i => i.mapTarget fun n => s.labels.getD n 0
  lines := s.lines
  names := s.names
  inUse := s.inUse
  protos := s.protos
  captures := captures.map fun
    | .slot n => .box n
    | .upvalue n => .upvalue n
  parameters := parameters
  isVararg := isVararg
  registers := s.registers
  boxes := if s.captured.any id then slots else 0
  chunk := s.chunk
  closeNames := s.closeNames

end StoryPack.Script
