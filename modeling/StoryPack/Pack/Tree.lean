/-
Pack trees.

A pack has phases, a phase has stages, and a stage has actions.  Every node has
the scope of its own script; all but the actions also have the view of it that
the scripts below them see.

* `PackNode`, `PhaseNode`, `StageNode`, `ActionNode` — the nodes;
* `Pack` — a finished pack with its options;
* `Pack.toJson`, `Pack.outline` — the JSON of a pack, and its outline.
-/
import StoryPack.Pack.Directory
import StoryPack.Entry.Address
import StoryPack.Scope.Json

namespace StoryPack

/-- An action. -/
structure ActionNode where
  author : Author
  scope : Scope.Table
deriving Inhabited

/-- A stage. -/
structure StageNode where
  scope : Scope.Table
  view : Nat
  actions : Directory ActionNode := {}
deriving Inhabited

/-- A phase. -/
structure PhaseNode where
  scope : Scope.Table
  view : Nat
  stages : Directory StageNode := {}
deriving Inhabited

/-- The root of a pack. -/
structure PackNode where
  scope : Scope.Table
  view : Nat
  phases : Directory PhaseNode := {}
deriving Inhabited

/-- A pack: its tree, and the members of its options object, if it has one. -/
structure Pack where
  options : Option (List (String × Json))
  root : PackNode
deriving Inhabited

/-- The names of the actions of an author. -/
def StageNode.actionsOf (s : StageNode) (author : Author) : List String :=
  (s.actions.entries.filter fun e => e.2.author = author).map (·.1)

namespace PackNode

/-- The phase of a name. -/
def phase? (p : PackNode) (phase : String) : Option PhaseNode := p.phases.find? phase

/-- The stage of a name in a phase. -/
def stage? (p : PackNode) (phase stage : String) : Option StageNode := do
  (← p.phase? phase).stages.find? stage

/-- The action of a name in a stage. -/
def action? (p : PackNode) (phase stage action : String) : Option ActionNode := do
  (← p.stage? phase stage).actions.find? action

end PackNode

/-- The JSON of a directory. -/
def Directory.toJson {α : Type} (d : Directory α) (f : α → Json) : Json :=
  .ofMembers (d.entries.map fun e => (e.1, f e.2))

/-- The JSON of an action. -/
def ActionNode.toJson (a : ActionNode) : Json :=
  .ofMembers [("author", .str a.author.directory), ("data", a.scope.toJson)]

/-- The JSON of a stage. -/
def StageNode.toJson (s : StageNode) : Json :=
  .ofMembers [("data", s.scope.toJson), ("actions", s.actions.toJson ActionNode.toJson)]

/-- The JSON of a phase. -/
def PhaseNode.toJson (p : PhaseNode) : Json :=
  .ofMembers [("data", p.scope.toJson), ("stages", p.stages.toJson StageNode.toJson)]

/-- The JSON of a tree. -/
def PackNode.toJson (p : PackNode) : Json :=
  .ofMembers [("data", p.scope.toJson), ("phases", p.phases.toJson PhaseNode.toJson)]

namespace Pack

/-- The JSON of a pack: that of its tree, with the options. -/
def toJson (p : Pack) : Json :=
  match p.options with
  | some members => p.root.toJson.withMember "options" (.obj members)
  | none => p.root.toJson

/-- The lines of the outline of a stage. -/
def stageLines (e : String × StageNode) : List String :=
  ("    stage " ++ e.1) ::
    e.2.actions.entries.map fun a => "      " ++ a.2.author.directory ++ " " ++ a.1

/-- The lines of the outline of a phase. -/
def phaseLines (e : String × PhaseNode) : List String :=
  ("  phase " ++ e.1) :: e.2.stages.entries.flatMap stageLines

/-- The outline of a pack: a line for the pack, its options and every node. -/
def outline (p : Pack) : List String :=
  let options :=
    match p.options with
    | some members => ["  options: " ++ toString members.length ++ " keys"]
    | none => []
  ("pack (" ++ toString p.root.scope.size ++ " keys)") :: options ++
    p.root.phases.entries.flatMap phaseLines

end Pack

end StoryPack
