/-
Assembling a pack.

An assembler takes the entries of a pack one at a time.  Each script runs in a
fresh sandbox that holds the table of globals, which all scripts of the pack
share, the views of the nodes above it, and an empty table under the name of its
own level.  What that name holds in the end is the scope of the new node.

* `Assembler.accept` — takes an entry, or says why it does not fit;
* `Assembler.finish` — the pack, once there is one.
-/
import StoryPack.Pack.Tree
import StoryPack.Pack.Fault
import StoryPack.Entry.Basic
import StoryPack.Sandbox.Host

namespace StoryPack

/-- How far a load has come. -/
inductive LoadState where
  | awaitingOptions
  | awaitingPack
  | loading (root : PackNode)
deriving Inhabited

/-- A pack that is being assembled. -/
structure Assembler where
  /-- The table that all scripts share. -/
  globals : Nat
  options : Option (List (String × Json)) := none
  state : LoadState := .awaitingOptions
deriving Inhabited

/-- The name of the level of a script. -/
def Place.level : Place → String
  | .pack => "pack"
  | .phase _ => "phase"
  | .stage _ _ => "stage"
  | .action .. => "action"

namespace Assembler

/-- A fresh assembler with a table of globals. -/
def new (host : Host) : Host × Except ScriptFault Assembler :=
  match host.newTable with
  | (host, .error f) => (host, .error f)
  | (host, .ok globals) => (host.hold (.table globals), .ok { globals := globals })

/-- Where the node of a script goes, with what its script sees: the views of the nodes above. -/
structure Site where
  parents : List (String × Nat)
  /-- The tree with the new node, given its scope and its view. -/
  insert : Scope.Table → Nat → PackNode

/-- The root of the tree. -/
def root? (a : Assembler) : Except StructuralFault PackNode :=
  match a.state with
  | .loading root => .ok root
  | _ => .error .packNotLoaded

/-- The node of a phase. -/
def phaseOf (root : PackNode) (p : String) : Except StructuralFault PhaseNode :=
  match root.phases.find? p with
  | some node => .ok node
  | none => .error (.phaseNotLoaded p)

/-- The node of a stage. -/
def stageOf (phase : PhaseNode) (p s : String) : Except StructuralFault StageNode :=
  match phase.stages.find? s with
  | some node => .ok node
  | none => .error (.stageNotLoaded p s)

/-- The site of a place. The node must not be there yet, and the nodes above it must be. -/
def site (a : Assembler) : Place → Except StructuralFault Site
  | .pack =>
    match a.state with
    | .loading _ => .error .duplicatePack
    | _ => .ok { parents := [], insert := fun scope view => { scope := scope, view := view } }
  | .phase p => do
    let root ← a.root?
    if root.phases.contains p then .error (.duplicatePhase p)
    else
      .ok
        { parents := [("pack", root.view)]
          insert := fun scope view =>
            { root with phases := root.phases.insert p { scope := scope, view := view } } }
  | .stage p s => do
    let root ← a.root?
    let phase ← phaseOf root p
    if phase.stages.contains s then .error (.duplicateStage p s)
    else
      .ok
        { parents := [("pack", root.view), ("phase", phase.view)]
          insert := fun scope view =>
            let phase := { phase with
              stages := phase.stages.insert s { scope := scope, view := view } }
            { root with phases := root.phases.insert p phase } }
  | .action author p s n => do
    let root ← a.root?
    let phase ← phaseOf root p
    let stage ← stageOf phase p s
    if stage.actions.contains n then .error (.duplicateAction p s n)
    else
      .ok
        { parents := [("pack", root.view), ("phase", phase.view), ("stage", stage.view)]
          insert := fun scope _ =>
            let stage := { stage with
              actions := stage.actions.insert n { author := author, scope := scope } }
            let phase := { phase with stages := phase.stages.insert s stage }
            { root with phases := root.phases.insert p phase } }

/-- What a script sees: the globals, the views of the nodes above it, and a fresh table under the
name of its own level. -/
def bindings (a : Assembler) (parents : List (String × Nat)) (level : String) (fresh : Nat) :
    List (String × Script.Value) :=
  ("globals", .table a.globals) :: parents.map (fun p => (p.1, Script.Value.table p.2)) ++
    [(level, .table fresh)]

/-- Runs the script of a place: the scope that it leaves, and the view of it. -/
def runScript (a : Assembler) (host : Host) (budget : Option Nat) (parents : List (String × Nat))
    (place : Place) (source : ByteArray) : Host × Except ScriptFault (Scope.Table × Nat) :=
  let path := (Address.script place).path
  match host.newTable with
  | (host, .error f) => (host, .error f)
  | (host, .ok fresh) =>
    match host.newSandbox (a.bindings parents place.level fresh) with
    | (host, .error f) => (host, .error f)
    | (host, .ok sandbox) =>
      match host.execute sandbox source path budget with
      | (host, .error f) => (host, .error f)
      | (host, .ok _) =>
        match host.takeScope sandbox place.level path with
        | .error f => (host, .error f)
        | .ok scope =>
          match host.freeze scope [.table sandbox.env] with
          | (host, .error f) => (host, .error f)
          | (host, .ok view) => (host.hold (.table view), .ok (scope, view))

/-- Takes an entry: the assembler after it, and why it has been refused if it has. -/
def accept (a : Assembler) (host : Host) (budget : Option Nat) (e : Entry) :
    Host × Assembler × Except LoadFault Unit :=
  match e with
  | .options members =>
    match a.state with
    | .awaitingOptions =>
      let a := { a with options := some members }
      let a := { a with state := .awaitingPack }
      (host, a, .ok ())
    | .awaitingPack => (host, a, .error (.structural e.path .duplicateOptions))
    | .loading _ => (host, a, .error (.structural e.path .optionsAfterPack))
  | .script place source =>
    match a.site place with
    | .error f => (host, a, .error (.structural e.path f))
    | .ok site =>
      match a.runScript host budget site.parents place source with
      | (host, .error f) => (host, a, .error (.script e.path f))
      | (host, .ok (scope, view)) =>
        let a := { a with state := .loading (site.insert scope view) }
        (host, a, .ok ())

/-- Takes entries in turn, up to the first that is refused. -/
def acceptAll (a : Assembler) (host : Host) (budget : Option Nat) :
    List Entry → Host × Assembler × Except LoadFault Unit
  | [] => (host, a, .ok ())
  | e :: rest =>
    match a.accept host budget e with
    | (host, a, .ok ()) => acceptAll a host budget rest
    | (host, a, .error f) => (host, a, .error f)

/-- The pack. -/
def finish (a : Assembler) : Except LoadFault Pack :=
  match a.state with
  | .loading root => .ok { options := a.options, root := root }
  | _ => .error (.incomplete .noPackData)

end Assembler

end StoryPack
