/-
Faults of scripts.

* `ScriptFault` — why a script gives no scope;
* `ScriptFault.message` — the wording.
-/
import StoryPack.Script.Heap
import StoryPack.Text.Utf8

namespace StoryPack

/-- Why a script gives no scope. A label names the script. -/
inductive ScriptFault where
  /-- The source is no script. -/
  | compile (label message : String)
  /-- The script has failed. -/
  | runtime (label message : String)
  /-- The script has run more instructions than it may. -/
  | resourceLimit (label : String) (budget : Nat)
  /-- The scope that the script leaves is no table. -/
  | scopeNotTable (label scope found : String)
  /-- The interpreter can not be set up. -/
  | host (message : String)
deriving DecidableEq, Inhabited

namespace ScriptFault

/-- The name of a fault. -/
def kind : ScriptFault → String
  | .compile .. => "Compile"
  | .runtime .. => "Runtime"
  | .resourceLimit .. => "ResourceLimit"
  | .scopeNotTable .. => "ScopeNotTable"
  | .host .. => "Host"

/-- The wording of a fault. -/
def message : ScriptFault → String
  | .compile label m => "compile error in " ++ label ++ ": " ++ m
  | .runtime label m => "runtime error in " ++ label ++ ": " ++ m
  | .resourceLimit label budget =>
    label ++ ": script overran resource limits (" ++ toString budget ++ " instructions)"
  | .scopeNotTable label scope found =>
    label ++ ": `" ++ scope ++ "` must be a table, got " ++ found
  | .host m => "interpreter setup failed: " ++ m

/-- The fault of an interpreter that has no memory left. -/
def outOfMemory : ScriptFault := .host (Utf8.lossy Script.HostFault.memory.shown)

end ScriptFault

end StoryPack
