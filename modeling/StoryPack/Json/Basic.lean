/-
JSON values.

An object is a list of members in ascending order of their names, each name
once; the object of any list of pairs is `Json.ofMembers`, where the last pair
of a name wins.  Integers and floating-point numbers are kept apart, as their
spelling does.
-/
import StoryPack.Number.Dyadic

namespace StoryPack

/-- A JSON value. -/
inductive Json where
  | null
  | bool (b : Bool)
  | int (i : Int)
  | float (x : Float)
  | str (s : String)
  | arr (items : List Json)
  | obj (members : List (String × Json))
deriving Inhabited

namespace Json

/-- Keeps the last pair of each run of equal names. -/
def lastOfRuns : List (String × Json) → List (String × Json)
  | [] => []
  | [m] => [m]
  | m :: n :: rest => if m.1 == n.1 then lastOfRuns (n :: rest) else m :: lastOfRuns (n :: rest)

/-- The members of an object given by pairs: ascending names, the last pair of a name wins. -/
def membersOf (pairs : List (String × Json)) : List (String × Json) :=
  lastOfRuns (pairs.mergeSort (fun a b => compare a.1 b.1 != .gt))

/-- The object that pairs describe. -/
def ofMembers (pairs : List (String × Json)) : Json := .obj (membersOf pairs)

/-- The member of a name, if the value is an object that has it. -/
def member? (j : Json) (name : String) : Option Json :=
  match j with
  | .obj ms => ms.lookup name
  | _ => none

/-- The object with one more member, or another value for it. -/
def withMember (j : Json) (name : String) (v : Json) : Json :=
  match j with
  | .obj ms => ofMembers (ms ++ [(name, v)])
  | j => j

end Json

end StoryPack
