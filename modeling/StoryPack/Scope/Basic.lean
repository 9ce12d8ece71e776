/-
Scopes: the finished data of a script.

A scope is an immutable table of entries whose keys are integers or texts.  A
table lists its entries in order; the entries 1, 2, …, n that run without a gap
from 1 are its sequence part.

* `Table.ofEntries` — the table of a list of pairs, the last pair of a key wins
  at the place of the first;
* `Table.get?`, `Table.path?` — the value of a key, and along a path of texts;
* `Table.sequenceLength` — the length of the sequence part;
* `Value.toInteger?` — the integer view of a value;
* `Value.equal` — equality of values, in which integers and doubles meet.
-/
import StoryPack.Script.Value
import StoryPack.Number.Integral

namespace StoryPack.Scope

/-- A key of a scope. -/
inductive Key where
  | integer (i : Int64)
  | text (s : String)
deriving DecidableEq, Inhabited

/-- The text that shows a key. -/
def Key.shown : Key → String
  | .integer i => toString i.toInt
  | .text s => s

/-- A value of a scope. -/
inductive Value where
  | boolean (b : Bool)
  | integer (i : Int64)
  | number (x : Float)
  | text (s : String)
  | table (entries : List (Key × Value))
  | function (f : Script.Function)
deriving Inhabited

/-- A table of a scope: its entries in order. -/
structure Table where
  entries : List (Key × Value) := []
deriving Inhabited

namespace Table

/-- Puts a value at the place of its key, or at the end. -/
def put : List (Key × Value) → Key → Value → List (Key × Value)
  | [], k, v => [(k, v)]
  | (k', v') :: rest, k, v => if k' = k then (k', v) :: rest else (k', v') :: put rest k v

/-- The table of a list of pairs: a later pair replaces the value of its key in place. -/
def ofEntries (pairs : List (Key × Value)) : Table :=
  ⟨pairs.foldl (fun acc p => put acc p.1 p.2) []⟩

/-- The value of a key. -/
def get? (t : Table) (k : Key) : Option Value := t.entries.lookup k

/-- How many entries a table has. -/
def size (t : Table) : Nat := t.entries.length

/-- Counts on from `n` while the next integer is a key. -/
def sequenceFrom (t : Table) : (fuel : Nat) → (n : Nat) → Nat
  | 0, n => n
  | fuel + 1, n =>
    if (t.get? (.integer (Int64.ofNat (n + 1)))).isSome then sequenceFrom t fuel (n + 1) else n

/-- The length of the sequence part. It has no more entries than the table. -/
def sequenceLength (t : Table) : Nat := sequenceFrom t t.size 0

end Table

namespace Value

/-- The type name of a value, as scripts see it. -/
def typeName : Value → String
  | .boolean _ => "boolean"
  | .integer _ | .number _ => "number"
  | .text _ => "string"
  | .table _ => "table"
  | .function _ => "function"

/-- The text, if the value is one. -/
def toText? : Value → Option String
  | .text s => some s
  | _ => none

/-- The integer of a value: integers themselves, and whole doubles, clamped to 64 bits. -/
def toInteger? : Value → Option Int64
  | .integer i => some i
  | .number x => (integerOf? x).map clampInt64
  | _ => none

/-- The truth value, if the value is one. -/
def toBoolean? : Value → Option Bool
  | .boolean b => some b
  | _ => none

/-- The table, if the value is one. -/
def toTable? : Value → Option Table
  | .table entries => some ⟨entries⟩
  | _ => none

mutual

/-- Equality: a double and an integer are equal when the double nearest to the integer is that
double; tables are equal when their entries are, in order. -/
def equal : Value → Value → Bool
  | .boolean a, .boolean b => a == b
  | .integer a, .integer b => a == b
  | .number a, .number b => a == b
  | .integer a, .number b => floatOfInt64 a == b
  | .number a, .integer b => floatOfInt64 b == a
  | .text a, .text b => a == b
  | .table a, .table b => equalEntries a b
  | .function a, .function b => a == b
  | _, _ => false

/-- Equality of lists of entries. -/
def equalEntries : List (Key × Value) → List (Key × Value) → Bool
  | [], [] => true
  | (k, v) :: rest, (k', v') :: rest' => k == k' && equal v v' && equalEntries rest rest'
  | _, _ => false

end

end Value

namespace Table

/-- Equality of tables: the same entries in the same order. -/
def equal (s t : Table) : Bool := Value.equalEntries s.entries t.entries

/-- The value at the end of a path of texts through nested tables. -/
def path? (t : Table) : List String → Option Value
  | [] => none
  | [last] => t.get? (.text last)
  | name :: rest =>
    match t.get? (.text name) with
    | some (.table entries) => path? ⟨entries⟩ rest
    | _ => none

end Table

end StoryPack.Scope
