/-
The configuration of a loader.

A configuration says how many instructions a script may run, how much memory
the scripts may hold, and how large an entry may be.  It is read from a JSON
object with a member for each field, or from an array of the fields in order;
fields that are missing have their defaults, and members of other names are
passed over.

* `Config.ofJson` — reads a configuration;
* `Config.toJson` — its JSON.
-/
import StoryPack.Json.Reader

namespace StoryPack

/-- The limits that a loader keeps. -/
structure Config where
  /-- The instructions that a script may run; `none` for no limit. -/
  instructionBudget : Option Nat := some 1000000
  /-- The bytes that the scripts may hold; `none` for no limit. -/
  memoryLimit : Option Nat := some 67108864
  /-- The bytes that an entry may have. -/
  maxEntryBytes : Nat := 4194304
deriving DecidableEq, Repr, Inhabited

namespace Config

open Json (Fault)

/-- The fields. -/
inductive Field where
  | instructionBudget | memoryLimit | maxEntryBytes
deriving DecidableEq, Repr

/-- The name of a field. -/
def Field.name : Field → String
  | .instructionBudget => "instruction_budget"
  | .memoryLimit => "memory_limit_bytes"
  | .maxEntryBytes => "max_entry_bytes"

/-- The fields in order. -/
def fields : List Field := [.instructionBudget, .memoryLimit, .maxEntryBytes]

/-- The field of a name. -/
def field? (name : String) : Option Field := fields.find? fun f => f.name = name

/-- How many values the field's number has. -/
def Field.bound : Field → Nat
  | .instructionBudget => 0x100000000
  | .memoryLimit | .maxEntryBytes => 0x10000000000000000

/-- Whether the field may be `null`. -/
def Field.isOptional : Field → Bool
  | .maxEntryBytes => false
  | _ => true

/-- Sets a field; only an optional one takes `none`. -/
def set (c : Config) : Field → Option Nat → Config
  | .instructionBudget, v => { c with instructionBudget := v }
  | .memoryLimit, v => { c with memoryLimit := v }
  | .maxEntryBytes, some n => { c with maxEntryBytes := n }
  | .maxEntryBytes, none => c

/-- Reads a value that is fit for no field: its own faults come first, except that a container is
refused at its bracket. -/
def unfit (b : ByteArray) (i : Nat) : Except Fault (Option Nat × Nat) :=
  let c := Json.peek b i
  if c == 91 || c == 123 then .error .unfit
  else
    match Json.value b (3 * b.size + 8) 1 i with
    | .error f => .error f
    | .ok _ => .error .unfit

/-- Reads the value of a field. -/
def fieldValue (b : ByteArray) (f : Field) (i : Nat) : Except Fault (Option Nat × Nat) :=
  let i := Json.blanks b i
  if i ≥ b.size then .error .truncated
  else if Json.peek b i == 110 && f.isOptional then
    match Json.word b (i + 1) ['u', 'l', 'l'] with
    | .error fault => .error fault
    | .ok j => .ok (none, j)
  else if Json.isDigit (Json.peek b i) then
    match Json.number b i false with
    | .error fault => .error fault
    | .ok (.int n, j) => if n.toNat < f.bound then .ok (some n.toNat, j) else .error .unfit
    | .ok (.float _, _) => .error .unfit
  else unfit b i

/-- Reads the members of an object up to its brace; a field that comes twice is unfit. -/
def members (b : ByteArray) : (fuel : Nat) → (i : Nat) → (first : Bool) → (seen : List Field) →
    Config → Except Fault (Config × Nat)
  | 0, _, _, _, _ => .error .malformed
  | fuel + 1, i, first, seen, c => do
    let i := Json.blanks b i
    if i ≥ b.size then .error .truncated
    else if Json.peek b i == 125 then .ok (c, i + 1)
    else
      let i ←
        if first then .ok i
        else if Json.peek b i == 44 then .ok (Json.blanks b (i + 1))
        else .error .malformed
      if i ≥ b.size then .error .truncated
      else if Json.peek b i != 34 then .error .malformed
      else
        let (name, i) ← Json.string b (i + 1)
        let field := field? name
        match field with
        | some f => if seen.contains f then .error .unfit else .ok ()
        | none => .ok ()
        let i := Json.blanks b i
        if i ≥ b.size then .error .truncated
        else if Json.peek b i != 58 then .error .malformed
        else
          match field with
          | some f =>
            let (v, i) ← fieldValue b f (i + 1)
            members b fuel i false (f :: seen) (c.set f v)
          | none =>
            let i ← Json.skip b (i + 1)
            members b fuel i false seen c

/-- Reads the items of an array up to its bracket: the remaining fields in order. -/
def items (b : ByteArray) : (rest : List Field) → (i : Nat) → (first : Bool) → Config →
    Except Fault (Config × Nat)
  | rest, i, first, c => do
    let i := Json.blanks b i
    if i ≥ b.size then .error .truncated
    else if Json.peek b i == 93 then .ok (c, i + 1)
    else
      match rest with
      | [] => .error .malformed
      | f :: rest =>
        let i ←
          if first then .ok i
          else if Json.peek b i == 44 then
            let i := Json.blanks b (i + 1)
            if i ≥ b.size then .error .truncated
            else if Json.peek b i == 93 then .error .malformed
            else .ok i
          else .error .malformed
        let (v, i) ← fieldValue b f i
        items b rest i false (c.set f v)

/-- Reads a configuration. -/
def ofJson (text : String) : Except Fault Config := do
  let b := text.toUTF8
  let i := Json.blanks b 0
  if i ≥ b.size then .error .truncated
  else
    let (c, i) ←
      if Json.peek b i == 123 then members b (b.size + 1) (i + 1) true [] {}
      else if Json.peek b i == 91 then items b fields (i + 1) true {}
      else
        match unfit b i with
        | .error f => .error f
        | .ok _ => .error .unfit
    Json.ended b i
    .ok c

/-- A limit as JSON. -/
def limitJson : Option Nat → Json
  | some n => .int n
  | none => .null

/-- The JSON of a configuration. -/
def toJson (c : Config) : Json :=
  .ofMembers [
    (Field.instructionBudget.name, limitJson c.instructionBudget),
    (Field.memoryLimit.name, limitJson c.memoryLimit),
    (Field.maxEntryBytes.name, .int c.maxEntryBytes)]

end Config

end StoryPack
