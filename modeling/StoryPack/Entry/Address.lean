/-
The addresses of pack entries.

A pack consists of an options file and of scripts for the pack, its phases,
their stages and the actions of a stage, which belong to a figure or to the
player.  An address says which of these a path of the archive is; names are
made of ASCII letters, digits and underscores.

* `Address.ofPath?` — the address of a path, if it has one;
* `Address.path` — the path of an address;
* `Address.compare` — the order of processing: rank first, then the names.
-/
namespace StoryPack

/-- Whose action a script describes. -/
inductive Author where
  | npc
  | player
deriving DecidableEq, Repr, Inhabited

/-- The name of the directory that holds the actions of an author. -/
def Author.directory : Author → String
  | .npc => "npc"
  | .player => "player"

/-- What a script describes. -/
inductive Place where
  | pack
  | phase (phase : String)
  | stage (phase stage : String)
  | action (author : Author) (phase stage action : String)
deriving DecidableEq, Repr, Inhabited

/-- Which entry of a pack a path names. -/
inductive Address where
  | options
  | script (place : Place)
deriving DecidableEq, Repr, Inhabited

namespace Address

/-- The kinds of entries, in the order in which paths are matched. -/
inductive Kind where
  | packOptions | packData | phaseData | stageData | npcAction | playerAction
deriving DecidableEq, Repr

/-- The name of a kind. -/
def Kind.name : Kind → String
  | .packOptions => "pack-options"
  | .packData => "pack-data"
  | .phaseData => "phase-data"
  | .stageData => "stage-data"
  | .npcAction => "npc-action"
  | .playerAction => "player-action"

/-- The first sort key. Both kinds of actions share a rank. -/
def Kind.rank : Kind → Nat
  | .packOptions => 0
  | .packData => 1
  | .phaseData => 2
  | .stageData => 3
  | .npcAction | .playerAction => 4

/-- Whether entries of the kind are scripts. -/
def Kind.isScript (k : Kind) : Bool := k != .packOptions

/-- The kind of an address. -/
def kind : Address → Kind
  | .options => .packOptions
  | .script .pack => .packData
  | .script (.phase _) => .phaseData
  | .script (.stage _ _) => .stageData
  | .script (.action .npc _ _ _) => .npcAction
  | .script (.action .player _ _ _) => .playerAction

/-- The names that an address holds, outermost first. -/
def names : Address → List String
  | .options | .script .pack => []
  | .script (.phase p) => [p]
  | .script (.stage p s) => [p, s]
  | .script (.action _ p s a) => [p, s, a]

/-- The path of an address. -/
def path : Address → String
  | .options => "options.json"
  | .script .pack => "pack.lua"
  | .script (.phase p) => "phases/" ++ p ++ ".lua"
  | .script (.stage p s) => "phases/" ++ p ++ "/" ++ s ++ ".lua"
  | .script (.action who p s a) =>
    "phases/" ++ p ++ "/" ++ s ++ "/" ++ who.directory ++ "/" ++ a ++ ".lua"

/-- A character of a name: an ASCII letter, a digit or an underscore. -/
def isNameChar (c : Char) : Bool := c.isAlphanum || c == '_'

/-- A name is not empty and has name characters only. -/
def isName (cs : List Char) : Bool := !cs.isEmpty && cs.all isNameChar

/-- Cuts a path at its slashes. -/
def segments : List Char → List (List Char)
  | [] => [[]]
  | c :: rest =>
    if c = '/' then [] :: segments rest
    else
      match segments rest with
      | first :: others => (c :: first) :: others
      | [] => [[c]]

/-- What comes before the ending of script files. -/
def stem? (cs : List Char) : Option (List Char) :=
  let n := cs.length - 4
  if cs.drop n = ['.', 'l', 'u', 'a'] then some (cs.take n) else none

/-- The author of a directory name. -/
def author? (cs : List Char) : Option Author :=
  if cs = ['n', 'p', 'c'] then some .npc
  else if cs = ['p', 'l', 'a', 'y', 'e', 'r'] then some .player
  else none

/-- The place that the segments of a script path name. -/
def place? : List (List Char) → Option Place
  | [root] => if root = ['p', 'a', 'c', 'k'] then some .pack else none
  | root :: names =>
    if root = ['p', 'h', 'a', 's', 'e', 's'] then
      match names with
      | [p] => if isName p then some (.phase (String.ofList p)) else none
      | [p, s] =>
        if isName p && isName s then some (.stage (String.ofList p) (String.ofList s)) else none
      | [p, s, who, a] =>
        match author? who with
        | some author =>
          if isName p && isName s && isName a then
            some (.action author (String.ofList p) (String.ofList s) (String.ofList a))
          else none
        | none => none
      | _ => none
    else none
  | [] => none

/-- The address that a path names, if it names one. -/
def ofPath? (path : String) : Option Address :=
  if path = "options.json" then some .options
  else
    match stem? path.toList with
    | some stem => (place? (segments stem)).map .script
    | none => none

/-- The lexicographic order of lists of names. -/
def compareNames : List String → List String → Ordering
  | [], [] => .eq
  | [], _ :: _ => .lt
  | _ :: _, [] => .gt
  | a :: as, b :: bs => (Ord.compare a b).then (compareNames as bs)

/-- The order of processing: by rank, then by the names. -/
def compare (a b : Address) : Ordering :=
  (Ord.compare a.kind.rank b.kind.rank).then (compareNames a.names b.names)

end Address

end StoryPack
