/-
Loading packs.

A loader has an interpreter that all its loads share, and the limits that they
keep.  A load reads the entries of an archive, assembles them and hands the pack
to a builder.

* `Loader.execute` — assembles entries that have been sorted;
* `Loader.loadFiles` — the pack of the files of an archive;
* `Loader.load` — the pack of an archive.
-/
import StoryPack.Pack.Assembler
import StoryPack.Archive.Container
import StoryPack.Config

namespace StoryPack

/-- A loader. -/
structure Loader where
  host : Host
  config : Config
deriving Inhabited

namespace Loader

/-- A loader for some limits. -/
def new (config : Config) : Except LoadFault Loader :=
  match Host.new config.memoryLimit with
  | .ok host => .ok { host := host, config := config }
  | .error f => .error (.script "<host>" f)

/-- Assembles entries in the given order. -/
def assemble (l : Loader) (entries : List Entry) : Host × Except LoadFault Pack :=
  match Assembler.new l.host with
  | (host, .error f) => (host, .error (.script "<globals>" f))
  | (host, .ok a) =>
    match a.acceptAll host l.config.instructionBudget entries with
    | (host, _, .error f) => (host, .error f)
    | (host, a, .ok ()) => (host, a.finish)

/-- Assembles entries in the given order. What the load has kept is given up in the end. -/
def execute (l : Loader) (entries : List Entry) : Loader × Except LoadFault Pack :=
  let (host, r) := l.assemble entries
  let host := { host with
    interpreter := { host.interpreter with held := l.host.interpreter.held } }
  ({ l with host := host }, r)

/-- The pack of the files of an archive, as a builder accepts or changes it. -/
def loadFiles (l : Loader) (files : Listing) (build : Pack → Except String Pack) :
    Loader × Except LoaderFault Pack :=
  match files.entries l.config.maxEntryBytes with
  | .error f => (l, .error (.reading f))
  | .ok entries =>
    let (l, r) := l.execute entries
    match r with
    | .error f => (l, .error (.executing f))
    | .ok pack =>
      match build pack with
      | .error reason => (l, .error (.building reason))
      | .ok pack => (l, .ok pack)

/-- The pack of an archive. -/
def load (l : Loader) (archive : Archive) (build : Pack → Except String Pack) :
    Loader × Except LoaderFault Pack :=
  l.loadFiles archive.listing build

end Loader

/-- The pack of an archive, loaded under the default limits. -/
def loadPack (archive : Archive) : Except LoaderFault Pack :=
  match Loader.new {} with
  | .error f => .error (.executing f)
  | .ok l => (l.load archive .ok).2

end StoryPack
