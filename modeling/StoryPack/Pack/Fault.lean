/-
Faults of loading.

Every fault ends the load that meets it.  It says in which stage the load was:
reading the archive, running the scripts, or building the pack.

* `ReadFault`, `StructuralFault`, `LoadFault`, `LoaderFault` — the faults;
* `LoaderFault.message` — the wording.
-/
import StoryPack.Sandbox.Fault
import StoryPack.Json.Reader

namespace StoryPack

/-- Why the entries of an archive can not be read. -/
inductive ReadFault where
  /-- The archive is damaged or ends early. -/
  | io
  /-- The directory of a zip archive is damaged. -/
  | zip
  /-- The options are no JSON. -/
  | invalidOptions (path : String) (fault : Json.Fault)
  /-- The options are no JSON object. -/
  | optionsNotObject (path : String)
  /-- An entry has more bytes than it may have. -/
  | entryTooLarge (path : String) (size limit : Nat)
  /-- An entry that the limit admits declares more bytes than can be asked for. The reader has no
  answer to that: it is aborted. -/
  | capacity (path : String) (size : Nat)
deriving DecidableEq, Inhabited

namespace ReadFault

/-- What stands for a detail that differs from one archive to the next. -/
def detail : String := "*"

/-- The wording of a fault. -/
def message : ReadFault → String
  | .io => "archive I/O failed: " ++ detail
  | .zip => "invalid zip archive: " ++ detail
  | .invalidOptions path _ => path ++ ": invalid JSON: " ++ detail
  | .optionsNotObject path => path ++ ": expected a JSON object"
  | .entryTooLarge path size limit =>
    path ++ ": entry is " ++ toString size ++ " bytes, limit is " ++ toString limit
  | .capacity path size => path ++ ": no room for " ++ toString size ++ " bytes"

/-- The name of a fault. -/
def kind : ReadFault → String
  | .io => "Io"
  | .zip => "Zip"
  | .invalidOptions .. => "InvalidOptions"
  | .optionsNotObject _ => "OptionsNotObject"
  | .entryTooLarge .. => "EntryTooLarge"
  | .capacity .. => "Capacity"

end ReadFault

/-- Why an entry does not fit to the entries before it. -/
inductive StructuralFault where
  | duplicateOptions
  | optionsAfterPack
  | duplicatePack
  | packNotLoaded
  | duplicatePhase (phase : String)
  | phaseNotLoaded (phase : String)
  | duplicateStage (phase stage : String)
  | stageNotLoaded (phase stage : String)
  | duplicateAction (phase stage action : String)
  | noPackData
deriving DecidableEq, Repr, Inhabited

namespace StructuralFault

/-- The wording of a fault. -/
def message : StructuralFault → String
  | .duplicateOptions => "pack options were already loaded, duplicate options.json?"
  | .optionsAfterPack => "pack options found after pack data"
  | .duplicatePack => "pack data was already loaded, duplicate pack.lua?"
  | .packNotLoaded => "pack not loaded, missing pack.lua?"
  | .duplicatePhase p => "duplicate phase " ++ p
  | .phaseNotLoaded p => "phase " ++ p ++ " not loaded, missing phases/" ++ p ++ ".lua?"
  | .duplicateStage p s => "duplicate stage " ++ s ++ " in phase " ++ p
  | .stageNotLoaded p s =>
    "stage " ++ s ++ " not loaded, missing phases/" ++ p ++ "/" ++ s ++ ".lua?"
  | .duplicateAction p s a => "duplicate action " ++ a ++ " in stage " ++ p ++ "/" ++ s
  | .noPackData => "no pack data found"

/-- The name of a fault. -/
def kind : StructuralFault → String
  | .duplicateOptions => "DuplicateOptions"
  | .optionsAfterPack => "OptionsAfterPack"
  | .duplicatePack => "DuplicatePack"
  | .packNotLoaded => "PackNotLoaded"
  | .duplicatePhase _ => "DuplicatePhase"
  | .phaseNotLoaded _ => "PhaseNotLoaded"
  | .duplicateStage .. => "DuplicateStage"
  | .stageNotLoaded .. => "StageNotLoaded"
  | .duplicateAction .. => "DuplicateAction"
  | .noPackData => "NoPackData"

end StructuralFault

/-- Why entries make no pack. -/
inductive LoadFault where
  | script (path : String) (fault : ScriptFault)
  | structural (path : String) (fault : StructuralFault)
  /-- All entries have been taken, and something is missing. -/
  | incomplete (fault : StructuralFault)
deriving DecidableEq, Inhabited

namespace LoadFault

/-- The wording of a fault. -/
def message : LoadFault → String
  | .script path f => path ++ ": " ++ f.message
  | .structural path f => path ++ ": " ++ f.message
  | .incomplete f => f.message

/-- The name of a fault. -/
def kind : LoadFault → String
  | .script _ f => f.kind
  | .structural _ f => f.kind
  | .incomplete f => f.kind

end LoadFault

/-- What a load was doing. -/
inductive LoadStage where
  | reading | executing | building
deriving DecidableEq, Repr

/-- The name of a stage. -/
def LoadStage.name : LoadStage → String
  | .reading => "reading"
  | .executing => "executing"
  | .building => "building"

/-- Why a load gives no pack. -/
inductive LoaderFault where
  | reading (fault : ReadFault)
  | executing (fault : LoadFault)
  | building (reason : String)
deriving DecidableEq, Inhabited

namespace LoaderFault

/-- The stage in which the load was. -/
def stage : LoaderFault → LoadStage
  | .reading _ => .reading
  | .executing _ => .executing
  | .building _ => .building

/-- The wording of a fault. -/
def message : LoaderFault → String
  | .reading f => "couldn't read entries: " ++ f.message
  | .executing f => "couldn't load entries: " ++ f.message
  | .building reason => "couldn't build pack: pack builder rejected the tree: " ++ reason

/-- The name of a fault. -/
def kind : LoaderFault → String
  | .reading f => f.kind
  | .executing f => f.kind
  | .building _ => "Build"

end LoaderFault

end StoryPack
