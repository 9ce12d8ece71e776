/-
Actions: what library functions and operators do.

An action reads and changes the heap, ends with a result or an error, and may in
between ask for calls of functions.  Whoever runs it makes the calls and goes on
with their results, so that an action never runs a script by itself.

* `Run` — the course of an action: done, failed, or waiting for a call;
* `Action` — a function from the heap to its course, a monad;
* `Raised` — an error before its position and names are known.
-/
import StoryPack.Script.Heap

namespace StoryPack.Script

/-- An error as it is raised. The machine, knowing who called whom, makes an error value of it. -/
inductive Raised where
  /-- A value thrown as it is. -/
  | value (v : Value)
  /-- A message to be preceded by the position of the function `level` calls up. -/
  | located (level : Nat) (message : ByteArray)
  /-- An argument of a library function is bad. -/
  | argument (n : Nat) (message : ByteArray)
  /-- An operation is bad, whatever its operands are called. -/
  | operation (message : ByteArray)
  /-- An operand has the wrong type for an operation: the operation, the type, and which operand of
  the instruction it is. -/
  | operand (verb : String) (typeName : ByteArray) (which : Nat)
  /-- An operand is a number that is no integer. -/
  | notIntegral (which : Nat)
  /-- A fault of a function of the host. -/
  | host (f : HostFault)
  /-- There is no memory left. -/
  | memory
deriving Inhabited

/-- The course of an action. -/
inductive Run (α : Type) where
  | done (heap : Heap) (result : α)
  | failed (heap : Heap) (error : Raised)
  | call (heap : Heap) (f : Value) (args : List Value) (next : Heap → List Value → Run α)

/-- An action. -/
def Action (α : Type) : Type := Heap → Run α

/-- Goes on after a course. -/
def Run.andThen {α β : Type} (r : Run α) (k : α → Heap → Run β) : Run β :=
  match r with
  | .done h a => k a h
  | .failed h e => .failed h e
  | .call h f args next => .call h f args fun h vs => (next h vs).andThen k

namespace Action

/-- The action that gives a result. -/
@[inline] protected def pure {α : Type} (a : α) : Action α := fun h => .done h a

/-- One action after another. -/
@[inline] protected def bind {α β : Type} (m : Action α) (k : α → Action β) : Action β := fun h =>
  match m h with
  | .done h a => k a h
  | r => r.andThen k

instance : Monad Action where
  pure := Action.pure
  bind := Action.bind

/-- Fails. -/
@[inline] def fail {α : Type} (e : Raised) : Action α := fun h => .failed h e

/-- Fails with a text after the position of the caller. -/
def raise {α : Type} (message : String) : Action α := fail (.located 1 message.toUTF8)

/-- Fails because of an argument. -/
def badArgument {α : Type} (n : Nat) (message : String) : Action α :=
  fail (.argument n message.toUTF8)

/-- The heap. -/
@[inline] def heap : Action Heap := fun h => .done h h

/-- Reads from the heap. -/
@[inline] def read {α : Type} (f : Heap → α) : Action α := fun h => .done h (f h)

/-- Changes the heap. -/
@[inline] def modify (f : Heap → Heap) : Action PUnit := fun h => .done (f h) ⟨⟩

/-- Changes the heap and gives a result. -/
@[inline] def update {α : Type} (f : Heap → Heap × α) : Action α := fun h =>
  let (h, a) := f h
  .done h a

/-- Calls a function. -/
@[inline] def call (f : Value) (args : List Value) : Action (List Value) := fun h =>
  .call h f args fun h vs => .done h vs

/-- Calls a function for its first result. -/
@[inline] def call1 (f : Value) (args : List Value) : Action Value := fun h =>
  .call h f args fun h vs => .done h (vs.headD .nil)

/-- A new table. -/
def newTable (t : Table) : Action Nat := update fun h => h.newTable t

/-- Fails when `n` more bytes can not be had. -/
def reserve (n : Nat) : Action PUnit := fun h =>
  match h.limit with
  | some limit => if limit < n then .failed h .memory else .done h ⟨⟩
  | none => .done h ⟨⟩

/-- A new string. -/
@[inline] def string (b : ByteArray) : Action Value :=
  fun h => .done (h.countString b.size) (.str b)

/-- A new string of a text. -/
def text (s : String) : Action Value := string s.toUTF8

end Action

end StoryPack.Script
