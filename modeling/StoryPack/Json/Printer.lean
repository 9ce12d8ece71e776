/-
Written JSON.

Two layouts of one grammar: `Json.compact` writes no blanks, `Json.pretty`
puts each item and member on a line of its own, indented by two spaces a level,
with `[]` and `{}` for the empty containers.  Floating-point numbers are written
in the shortest form that reads back, and those that are no numbers as `null`.
-/
import StoryPack.Json.Basic
import StoryPack.Number.Shortest
import StoryPack.Bytes

namespace StoryPack.Json

/-- A character inside quotes. -/
def escaped (c : Char) : String :=
  if c == '"' then "\\\""
  else if c == '\\' then "\\\\"
  else if c == '\n' then "\\n"
  else if c == '\r' then "\\r"
  else if c == '\t' then "\\t"
  else if c == '\x08' then "\\b"
  else if c == '\x0c' then "\\f"
  else if c.toNat < 32 then "\\u" ++ Bytes.hexNat c.toNat 4
  else c.toString

/-- A text in quotes. -/
def quoted (s : String) : String :=
  (s.foldl (fun acc c => acc ++ escaped c) "\"").push '"'

/-- A floating-point number, or `null` for what is no finite number. -/
def floatText (x : Float) : String :=
  match Double.of x with
  | .finite d => Shortest.text d
  | _ => "null"

mutual

/-- The compact form, written after `acc`. -/
def compactAfter (acc : String) : Json → String
  | .null => acc ++ "null"
  | .bool true => acc ++ "true"
  | .bool false => acc ++ "false"
  | .int i => acc ++ toString i
  | .float x => acc ++ floatText x
  | .str s => acc ++ quoted s
  | .arr items => (compactItems (acc.push '[') items true).push ']'
  | .obj members => (compactMembers (acc.push '\x7b') members true).push '\x7d'

/-- Items after `acc`, each but the first after a comma. -/
def compactItems (acc : String) : List Json → Bool → String
  | [], _ => acc
  | j :: rest, first =>
    compactItems (compactAfter (if first then acc else acc.push ',') j) rest false

/-- Members after `acc`, each but the first after a comma. -/
def compactMembers (acc : String) : List (String × Json) → Bool → String
  | [], _ => acc
  | (name, j) :: rest, first =>
    let acc := if first then acc else acc.push ','
    compactMembers (compactAfter ((acc ++ quoted name).push ':') j) rest false

end

/-- The form without blanks. -/
def compact (j : Json) : String := compactAfter "" j

/-- A new line, indented by `depth` levels. -/
def newline (acc : String) (depth : Nat) : String :=
  acc ++ "\n" ++ String.ofList (List.replicate (2 * depth) ' ')

mutual

/-- The indented form at a level, written after `acc`. -/
def prettyAfter (acc : String) (depth : Nat) : Json → String
  | .arr [] => acc ++ "[]"
  | .arr items => (newline (prettyItems (acc.push '[') (depth + 1) items true) depth).push ']'
  | .obj [] => (acc.push '\x7b').push '\x7d'
  | .obj members =>
    (newline (prettyMembers (acc.push '\x7b') (depth + 1) members true) depth).push '\x7d'
  | .null => acc ++ "null"
  | .bool b => acc ++ (if b then "true" else "false")
  | .int i => acc ++ toString i
  | .float x => acc ++ floatText x
  | .str s => acc ++ quoted s

/-- Items on lines of their own. -/
def prettyItems (acc : String) (depth : Nat) : List Json → Bool → String
  | [], _ => acc
  | j :: rest, first =>
    let acc := newline (if first then acc else acc.push ',') depth
    prettyItems (prettyAfter acc depth j) depth rest false

/-- Members on lines of their own. -/
def prettyMembers (acc : String) (depth : Nat) : List (String × Json) → Bool → String
  | [], _ => acc
  | (name, j) :: rest, first =>
    let acc := newline (if first then acc else acc.push ',') depth
    prettyMembers (prettyAfter (acc ++ quoted name ++ ": ") depth j) depth rest false

end

/-- The form with two spaces a level. -/
def pretty (j : Json) : String := prettyAfter "" 0 j

end StoryPack.Json
