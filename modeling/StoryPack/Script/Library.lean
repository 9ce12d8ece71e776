/-
The library functions.

* `Builtin.run` — what a library function does with its arguments;
* `Library.runView` — the readers of frozen views.

A frozen view is an empty table whose metatable has a mark, the table that backs
it under `__index`, and metamethods that refuse writes.  The readers look through
a view to its backing table.
-/
import StoryPack.Script.Library.Base
import StoryPack.Script.Library.Loading
import StoryPack.Script.Library.Strings
import StoryPack.Script.Library.Tables
import StoryPack.Script.Library.Maths

namespace StoryPack.Script

/-- The mark in the metatable of every view. -/
def viewMark : ByteArray := "__frozen".toUTF8

/-- The table that backs a view; `none` for every other table. -/
def Heap.backing? (h : Heap) (r : Nat) : Option Nat :=
  match (h.table r).metatable with
  | none => none
  | some m =>
    match h.getKey m (.str viewMark) with
    | .nil | .bool false => none
    | _ =>
      match h.getKey m (.str Event.index) with
      | .table b => some b
      | _ => none

/-- The table that a reader looks at: the backing table of a view, and any other table itself. -/
def Heap.readThrough (h : Heap) (r : Nat) : Nat := (h.backing? r).getD r

/-- What a write to a view is answered with. -/
def readOnlyMessage : String := "table is read-only"

namespace Library

open StoryPack.Script.Action

/-- The table of an argument, by the rules of the host. -/
def hostTable (args : List Value) (n : Nat) : Action Nat :=
  match Argument.get args n with
  | .table r => pure r
  | v =>
    fail (.host (.conversion (
      "bad argument #" ++ toString n ++ ": error converting Lua " ++ v.hostTypeName ++
        " to table").toUTF8))

/-- What a reader of views does. -/
def runView (f : ViewFunction) (args : List Value) : Action (List Value) :=
  match f with
  | .next => do
    let r ← hostTable args 1
    let r ← read fun h => h.readThrough r
    fun h =>
      match nextEntry r (Argument.get args 2) h with
      | .failed h (.operation m) => .failed h (.host (.runtime m))
      | run => run
  | .rawget => do
    let r ← hostTable args 1
    let key := Argument.get args 2
    read fun h => [(h.table (h.readThrough r)).getValue key]
  | .rawlen =>
    match Argument.get args 1 with
    | .table r => read fun h => [.int (Int64.ofNat (h.table (h.readThrough r)).length)]
    | .str s => pure [.int (Int64.ofNat s.size)]
    | v =>
      fail (.host (.runtime ("table or string expected, got " ++ v.hostTypeName).toUTF8))
  | .pairs => do
    let r ← hostTable args 1
    pure [.builtin (.view .next), .table r, .nil]
  | .length => do
    let r ← hostTable args 1
    read fun h => [.int (Int64.ofNat (h.table (h.readThrough r)).length)]
  | .deny => fail (.host (.runtime readOnlyMessage.toUTF8))

/-- What a debug function does. -/
def runDebug (f : DebugFunction) (args : List Value) : Action (List Value) :=
  match f with
  | .getmetatable => do
    let v ← Argument.present args 1
    read fun h => [((h.metatable? v).map Value.table).getD .nil]
  | .setmetatable => do
    let v := Argument.get args 1
    let meta? ←
      match Argument.get args 2 with
      | .table m => pure (some m)
      | .nil =>
        if Argument.given args 2 then pure none else Argument.wrongType args 2 "nil or table"
      | _ => Argument.wrongType args 2 "nil or table"
    modify fun h => h.setSharedMetatable v meta?
    pure [v]
  | .traceback =>
    match Argument.get args 1 with
    | .nil => text "stack traceback:"
      |> fun m => do pure [← m]
    | .str s => do pure [← Action.string (s ++ "\nstack traceback:".toUTF8)]
    | v => pure [v]

end Library

/-- What a library function does with its arguments. -/
def Builtin.run (f : Builtin) (args : List Value) : Action (List Value) :=
  match f with
  | .base .load => Library.load args
  | .base .loadfile => Library.loadfile args
  | .base .dofile => Library.dofile args
  | .base f => Library.runBase f args
  | .string f => Library.runString f args
  | .table f => Library.runTable f args
  | .math f => Library.runMath f args
  | .debug f => Library.runDebug f args
  | .view f => Library.runView f args
  | .stringArith op => Library.stringArith op args
  | .tripped => Action.read fun h => [.bool h.tripped]

end StoryPack.Script
