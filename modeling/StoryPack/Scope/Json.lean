/-
Scopes as JSON.

A table whose keys are exactly 1, …, n, with at least one of them, is written as
an array in ascending order, whatever the order of its entries; any other table
is an object with a member for each shown key, which has the value of the last
entry whose key is shown so.

* `Table.toJson`, `Value.toJson`.
-/
import StoryPack.Scope.Basic
import StoryPack.Json.Basic

namespace StoryPack.Scope

/-- A double as JSON; what is no finite number becomes `null`. -/
def numberJson (x : Float) : Json :=
  match Double.of x with
  | .finite _ => .float x
  | _ => .null

/-- Whether a table is written as an array. -/
def Table.isSequence (t : Table) : Bool :=
  0 < t.sequenceLength && t.sequenceLength == t.size

/-- Picks the items at 1, …, n out of written entries. -/
def pickItems (entries : List (Key × Json)) (n : Nat) : List Json :=
  (List.range n).filterMap fun i => entries.lookup (.integer (Int64.ofNat (i + 1)))

/-- The JSON of a table whose entries have been written. -/
def tableJson (t : Table) (entries : List (Key × Json)) : Json :=
  if t.isSequence then .arr (pickItems entries t.sequenceLength)
  else Json.ofMembers (entries.map fun e => (e.1.shown, e.2))

mutual

/-- The JSON of a value. -/
def Value.toJson : Value → Json
  | .boolean b => .bool b
  | .integer i => .int i.toInt
  | .number x => numberJson x
  | .text s => .str s
  | .table entries => tableJson ⟨entries⟩ (entriesJson entries)
  | .function _ => .str "<function>"

/-- Entries with their values written. -/
def entriesJson : List (Key × Value) → List (Key × Json)
  | [] => []
  | (k, v) :: rest => (k, Value.toJson v) :: entriesJson rest

end

/-- The JSON of a table. -/
def Table.toJson (t : Table) : Json := tableJson t (entriesJson t.entries)

end StoryPack.Scope
