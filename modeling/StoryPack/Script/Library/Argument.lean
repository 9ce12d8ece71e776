/-
Arguments of library functions.

A library function gets a list of values.  The checks of this file take an
argument by its number, give it the type that the function needs, and fail with
a message that says what was expected and what was given.

* `present`, `table`, `integer`, `number`, `string` — an argument that must be there;
* `integerOr`, `numberOr`, `stringOr` — one that may be missing or `nil`.
-/
import StoryPack.Script.Operation

namespace StoryPack.Script.Argument

open StoryPack.Script.Action

/-- The argument of a number, from 1; `nil` when it is missing. -/
@[inline] def get (args : List Value) (n : Nat) : Value := args.getD (n - 1) .nil

/-- Whether an argument is given. -/
@[inline] def given (args : List Value) (n : Nat) : Bool := n ≤ args.length

/-- The type of an argument, as messages show it. -/
def typeName (h : Heap) (args : List Value) (n : Nat) : ByteArray :=
  if given args n then
    match h.metafield (get args n) Event.name with
    | .str s => s
    | _ => (get args n).typeName.toUTF8
  else "no value".toUTF8

/-- Fails because an argument has the wrong type. -/
def wrongType {α : Type} (args : List Value) (n : Nat) (expected : String) : Action α := fun h =>
  .failed h (.argument n ((expected ++ " expected, got ").toUTF8 ++ typeName h args n))

/-- An argument of any type that has to be given. -/
def present (args : List Value) (n : Nat) : Action Value :=
  if given args n then pure (get args n) else badArgument n "value expected"

/-- The reference of a table. -/
def table (args : List Value) (n : Nat) : Action Nat :=
  match get args n with
  | .table r => pure r
  | _ => wrongType args n "table"

/-- A function. -/
def function (args : List Value) (n : Nat) : Action Value :=
  match get args n with
  | .function f => pure (.function f)
  | _ => wrongType args n "function"

/-- An integer, a whole double, or a string that spells one. -/
def integer (args : List Value) (n : Nat) : Action Int64 :=
  match Numeral.ofValue? (get args n) with
  | some (.int i) => pure i
  | some (.float x) =>
    match Numeral.floatToInteger? x with
    | some i => pure i
    | none => badArgument n "number has no integer representation"
  | _ => wrongType args n "number"

/-- An integer, or a default when the argument is missing or `nil`. -/
def integerOr (args : List Value) (n : Nat) (default : Int64) : Action Int64 :=
  if (get args n).isNil then pure default else integer args n

/-- A number, or a string that spells one. -/
def numeric (args : List Value) (n : Nat) : Action Value :=
  match Numeral.ofValue? (get args n) with
  | some v => pure v
  | none => wrongType args n "number"

/-- A number as a double. -/
def number (args : List Value) (n : Nat) : Action Float :=
  match Numeral.toFloat? (get args n) with
  | some x => pure x
  | none => wrongType args n "number"

/-- A double, or a default when the argument is missing or `nil`. -/
def numberOr (args : List Value) (n : Nat) (default : Float) : Action Float :=
  if (get args n).isNil then pure default else number args n

/-- A string, or the text of a number. -/
def string (args : List Value) (n : Nat) : Action ByteArray :=
  match Operation.bytes? (get args n) with
  | some s => pure s
  | none => wrongType args n "string"

/-- A string, or a default when the argument is missing or `nil`. -/
def stringOr (args : List Value) (n : Nat) (default : ByteArray) : Action ByteArray :=
  if (get args n).isNil then pure default else string args n

/-- Fails unless a condition on an argument holds. -/
def check (condition : Bool) (n : Nat) (message : String) : Action PUnit :=
  if condition then pure ⟨⟩ else badArgument n message

end StoryPack.Script.Argument
