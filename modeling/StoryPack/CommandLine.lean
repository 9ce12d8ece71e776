/-
The command line.

`talepack` loads one archive and writes what is in it: an outline, or the whole
tree as JSON.  The arguments are read from left to right, and the first thing
wrong with them, or the first question for help or the version, ends the reading.

* `Command.ofArguments?` — what the arguments ask for;
* `Command.run` — the answer, given the files that the command reads.
-/
import StoryPack.Pack.Loader
import StoryPack.Json.Printer

namespace StoryPack

/-- What a load is told on the command line. -/
structure LoadRequest where
  archive : String
  config : Option String := none
  budget : Option Nat := none
  json : Bool := false
deriving DecidableEq, Repr, Inhabited

/-- What can be asked for on the command line. -/
inductive Command where
  | help
  | version
  | load (request : LoadRequest)
deriving DecidableEq, Repr, Inhabited

namespace Command

/-! ### Arguments -/

/-- What the arguments up to some point have told. -/
structure Told where
  archive : Option String := none
  config : Option String := none
  budget : Option Nat := none
  json : Bool := false
deriving Inhabited

/-- The path that an argument names; the empty text names none. -/
def path? (s : String) : Option String := if s.isEmpty then none else some s

/-- The number that digits spell. -/
def digits? (cs : List Char) : Option Nat :=
  if cs.isEmpty then none
  else cs.foldlM (fun n c => if c.isDigit then some (10 * n + (c.toNat - 48)) else none) 0

/-- The budget that an argument spells: digits, perhaps with a sign, of a number of 32 bits. -/
def budget? (s : String) : Option Nat :=
  match s.toList with
  | '-' :: cs => (digits? cs).filter fun n => n == 0
  | '+' :: cs => (digits? cs).filter fun n => n < 0x100000000
  | cs => (digits? cs).filter fun n => n < 0x100000000

/-- Takes up an archive; there can be one. -/
def Told.addArchive (t : Told) (s : String) : Option Told :=
  match t.archive with
  | none => (path? s).map fun p => { t with archive := some p }
  | some _ => none

/-- Takes up a config; there can be one. -/
def Told.addConfig (t : Told) (s : String) : Option Told :=
  match t.config with
  | none => (path? s).map fun p => { t with config := some p }
  | some _ => none

/-- Takes up a budget; there can be one. -/
def Told.addBudget (t : Told) (s : String) : Option Told :=
  match t.budget with
  | none => (budget? s).map fun n => { t with budget := some n }
  | some _ => none

/-- Takes up the wish for JSON, which can be told once. -/
def Told.addJson (t : Told) : Option Told :=
  if t.json then none else some { t with json := true }

/-- The load that has been told, if the archive has. -/
def Told.command? (t : Told) : Option Command :=
  t.archive.map fun a =>
    .load { archive := a, config := t.config, budget := t.budget, json := t.json }

/-- The options that are followed by a value. -/
inductive Setting where
  | config | budget
deriving DecidableEq, Repr

/-- What an argument is, where options can stand. -/
inductive Argument where
  /-- An archive. -/
  | plain
  /-- All arguments after it are archives. -/
  | divider
  | help
  | version
  | json
  /-- A setting, and its value if that is attached. -/
  | setting (s : Setting) (value : Option String)
  | unknown
deriving DecidableEq, Repr

/-- What an argument is. A letter after one hyphen may be followed by others. -/
def Argument.of (s : String) : Argument :=
  match s.toList with
  | ['-', '-'] => .divider
  | '-' :: '-' :: cs =>
    let name := String.ofList (cs.takeWhile (· != '='))
    let value :=
      match cs.dropWhile (· != '=') with
      | _ :: v => some (String.ofList v)
      | [] => none
    if name == "config" then .setting .config value
    else if name == "budget" then .setting .budget value
    else if value.isSome then .unknown
    else if name == "json" then .json
    else if name == "help" then .help
    else if name == "version" then .version
    else .unknown
  | '-' :: 'h' :: _ => .help
  | '-' :: 'V' :: _ => .version
  | '-' :: _ :: _ => .unknown
  | _ => .plain

/-- Takes up the value of a setting. -/
def Told.set (t : Told) : Setting → String → Option Told
  | .config => t.addConfig
  | .budget => t.addBudget

/-- Reads the arguments after the divider. -/
def readPlain (t : Told) (args : List String) : Option Command :=
  (args.foldlM Told.addArchive t).bind Told.command?

/-- Reads the arguments. A value that is not attached is the next argument, which must not look like
an option. -/
def readFrom (t : Told) : List String → Option Command
  | [] => t.command?
  | a :: rest =>
    match Argument.of a with
    | .plain => (t.addArchive a).bind fun t => readFrom t rest
    | .divider => readPlain t rest
    | .help => some .help
    | .version => some .version
    | .json => t.addJson.bind fun t => readFrom t rest
    | .setting s (some v) => (t.set s v).bind fun t => readFrom t rest
    | .setting s none =>
      match rest with
      | v :: rest =>
        if Argument.of v = .plain then (t.set s v).bind fun t => readFrom t rest else none
      | [] => none
    | .unknown => none

/-- What the arguments ask for; nothing when they are wrong. -/
def ofArguments? (args : List String) : Option Command := readFrom {} args

/-! ### Answers -/

/-- What a command answers. -/
structure Answer where
  exit : Nat := 0
  /-- What goes to the standard output. -/
  output : String := ""
  /-- The report of what has failed. -/
  report : Option String := none
deriving DecidableEq, Repr, Inhabited

/-- The name of the command. -/
def name : String := "talepack"

/-- The way to call the command. -/
def usage : String := "Usage: " ++ name ++ " [OPTIONS] <ARCHIVE>"

/-- The help text. -/
def helpText : String :=
  "Load a story pack archive\n\n" ++ usage ++ "\n\n" ++
    "Arguments:\n" ++
    "  <ARCHIVE>  Pack archive (.zip, .tar or .tar.gz)\n\n" ++
    "Options:\n" ++
    "      --config <CONFIG>  Loader config as JSON\n" ++
    "      --budget <BUDGET>  Instruction budget per script, 0 disables it\n" ++
    "      --json             Print the whole tree as JSON\n" ++
    "  -h, --help             Print help\n" ++
    "  -V, --version          Print version\n"

/-- The name with the version. -/
def versionText : String := name ++ " 0.1.0\n"

/-- The answer that reports a failure. -/
def failure (what : String) : Answer := { exit := 1, report := some (name ++ ": " ++ what) }

/-- The answer to arguments that are wrong. -/
def refusal : Answer := { exit := 2 }

/-- The answer of a load that asks for more room than can be asked for: it is aborted. -/
def aborted : Answer := { exit := 134 }

/-- The config that a load is to be under, or the report of why there is none. -/
def configOf (r : LoadRequest) (read : String → Option ByteArray) : Except String Config := do
  let config ←
    match r.config with
    | none => .ok {}
    | some path =>
      match (read path).bind Utf8.text? with
      | none => .error ("couldn't read " ++ path ++ ": " ++ ReadFault.detail)
      | some text =>
        match Config.ofJson text with
        | .ok c => .ok c
        | .error _ => .error ("invalid loader config: " ++ ReadFault.detail)
  match r.budget with
  | none => .ok config
  | some n => .ok { config with instructionBudget := if n = 0 then none else some n }

/-- The pack of an archive that may be missing. -/
def packOf (config : Config) (archive : Option ByteArray) : Except LoaderFault Pack :=
  match Loader.new config with
  | .error f => .error (.executing f)
  | .ok loader =>
    match archive with
    | none => .error (.reading .io)
    | some b => (loader.load (Archive.ofFile b) .ok).2

/-- What is written about a pack. -/
def written (r : LoadRequest) (p : Pack) : String :=
  if r.json then p.toJson.pretty ++ "\n"
  else String.join (p.outline.map fun line => line ++ "\n")

/-- The files that a command reads. -/
def files : Command → List String
  | .load r => r.config.toList ++ [r.archive]
  | _ => []

/-- The answer to a command, given what is in the files that can be read. -/
def run (read : String → Option ByteArray) : Command → Answer
  | .help => { output := helpText }
  | .version => { output := versionText }
  | .load r =>
    match configOf r read with
    | .error what => failure what
    | .ok config =>
      match packOf config (read r.archive) with
      | .error (.reading (.capacity ..)) => aborted
      | .error f => failure (f.stage.name ++ " failed: " ++ f.message)
      | .ok p => { output := written r p }

/-- The answer to arguments. -/
def answer (read : String → Option ByteArray) (args : List String) : Answer :=
  match ofArguments? args with
  | none => refusal
  | some c => c.run read

end Command

end StoryPack
