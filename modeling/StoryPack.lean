import StoryPack.Archive.Container
import StoryPack.Archive.Crc32
import StoryPack.Archive.Gzip
import StoryPack.Archive.Huffman
import StoryPack.Archive.Inflate
import StoryPack.Archive.Member
import StoryPack.Archive.Tar
import StoryPack.Archive.Zip
import StoryPack.Bytes
import StoryPack.CommandLine
import StoryPack.Config
import StoryPack.Entry.Address
import StoryPack.Entry.Basic
import StoryPack.Json.Basic
import StoryPack.Json.Printer
import StoryPack.Json.Reader
import StoryPack.Main
import StoryPack.Number.Dyadic
import StoryPack.Number.Integral
import StoryPack.Number.Places
import StoryPack.Number.Shortest
import StoryPack.Pack.Assembler
import StoryPack.Pack.Directory
import StoryPack.Pack.Fault
import StoryPack.Pack.Loader
import StoryPack.Pack.Tree
import StoryPack.Sandbox.Fault
import StoryPack.Sandbox.Host
import StoryPack.Sandbox.Interpreter
import StoryPack.Sandbox.Snapshot
import StoryPack.Sandbox.View
import StoryPack.Scope.Basic
import StoryPack.Scope.Json
import StoryPack.Script.Action
import StoryPack.Script.Arithmetic
import StoryPack.Script.Code
import StoryPack.Script.Compilation
import StoryPack.Script.Emitter
import StoryPack.Script.Heap
import StoryPack.Script.Library
import StoryPack.Script.Library.Argument
import StoryPack.Script.Library.Base
import StoryPack.Script.Library.Format
import StoryPack.Script.Library.Loading
import StoryPack.Script.Library.Maths
import StoryPack.Script.Library.Names
import StoryPack.Script.Library.Packing
import StoryPack.Script.Library.Strings
import StoryPack.Script.Library.Tables
import StoryPack.Script.Live
import StoryPack.Script.Machine
import StoryPack.Script.Numeral
import StoryPack.Script.Operation
import StoryPack.Script.Parser
import StoryPack.Script.Pattern
import StoryPack.Script.Run
import StoryPack.Script.Table
import StoryPack.Script.Token
import StoryPack.Script.Tree
import StoryPack.Script.Value
import StoryPack.Text.Utf8
import StoryPack.Proofs.Pack.Directory
import StoryPack.Proofs.Pack.Nodes
import StoryPack.Proofs.Pack.Assembly
import StoryPack.Proofs.Entry.Order
import StoryPack.Proofs.Pack.Load
import StoryPack.Proofs.Script.Lookup
import StoryPack.Proofs.Confinement.Guard
import StoryPack.Proofs.Confinement.Ward
import StoryPack.Proofs.Confinement.Metatable
import StoryPack.Proofs.Confinement.Action
import StoryPack.Proofs.Confinement.Operation
import StoryPack.Proofs.Confinement.Library.Base
import StoryPack.Proofs.Confinement.Library.Tables
import StoryPack.Proofs.Confinement.Library.Maths
import StoryPack.Proofs.Confinement.Library.Strings
import StoryPack.Proofs.Confinement.Library
import StoryPack.Proofs.Confinement.Frame
import StoryPack.Proofs.Confinement.Machine
import StoryPack.Proofs.Confinement.Instruction
import StoryPack.Proofs.Confinement.Protected
import StoryPack.Proofs.Confinement.Run
import StoryPack.Proofs.Confinement.Extension
import StoryPack.Proofs.Script.Budget
import StoryPack.Proofs.Confinement.Budget
import StoryPack.Proofs.Script.Fill
import StoryPack.Proofs.Confinement.Interpreter
import StoryPack.Proofs.Confinement.Factory
import StoryPack.Proofs.Confinement.Start
import StoryPack.Proofs.Confinement.Refusal
import StoryPack.Proofs.Confinement.Host
import StoryPack.Proofs.Confinement.Session
import StoryPack.Proofs.Confinement.Snapshot
import StoryPack.Proofs.Confinement.Capability
import StoryPack.Proofs.Confinement.Denial
import StoryPack.Proofs.Confinement.Immutability
import StoryPack.Proofs.Pack.Shuffle
import StoryPack.Proofs.Renaming.Action
import StoryPack.Proofs.Renaming.Library.Base
import StoryPack.Proofs.Renaming.Library
import StoryPack.Proofs.Renaming.Machine
import StoryPack.Proofs.Renaming.Host
import StoryPack.Proofs.Confinement.Loading
import StoryPack.Proofs.Pack.Independence
import StoryPack.Proofs.Pack.Interference
import StoryPack.Proofs.Script.Marks
import StoryPack.Proofs.Script.Border
import StoryPack.Proofs.Script.Traversal
import StoryPack.Proofs.Scope.Order
import StoryPack.Proofs.Scope.Agreement
import StoryPack.Proofs.Scope.Spelling
import StoryPack.Proofs.Scope.Snapshot
import StoryPack.Proofs.Scope.Backing
import StoryPack.Proofs.Scope.Diagnosis
import StoryPack.Proofs.Script.Finding
import StoryPack.Proofs.Scope.RoundTrip
import StoryPack.Proofs.Confinement.Showing
import StoryPack.Proofs.Confinement.Bindings
import StoryPack.Proofs.Confinement.Mirroring
import StoryPack.Proofs.Pack.Ancestry
import StoryPack.Proofs.Pack.Threading
import StoryPack.Proofs.Pack.Atomicity
import StoryPack.Proofs.Script.Straight
import StoryPack.Proofs.Archive.Inflate
import StoryPack.Proofs.Archive.Tar
import StoryPack.Proofs.Archive.Gzip
import StoryPack.Proofs.Archive.Container
import StoryPack.Proofs.Archive.Truncation
import StoryPack.Proofs.Archive.Inert
import StoryPack.Proofs.Text.Ascii
import StoryPack.Proofs.Bytes
import StoryPack.Proofs.Archive.Member
import StoryPack.Proofs.Archive.Item
import StoryPack.Proofs.Archive.TarWriting
import StoryPack.Proofs.Archive.ZipWriting
import StoryPack.Proofs.Archive.Agreement
import StoryPack.Proofs.Archive.Twins
import StoryPack.Proofs.Association
import StoryPack.Proofs.StableSort
import StoryPack.Proofs.Entry.Address
import StoryPack.Proofs.Entry.Grammar
import StoryPack.Proofs.Entry.Sorting
import StoryPack.Proofs.Archive.Delivery
import StoryPack.Proofs.Archive.Limit
import StoryPack.Proofs.Archive.Capacity
import StoryPack.Proofs.Json.Members
import StoryPack.Proofs.Scope.Rendering
import StoryPack.Proofs.Confinement.Iteration
import StoryPack.Proofs.Number.Comparison
import StoryPack.Proofs.Number.Whole
import StoryPack.Proofs.Scope.Equality
import StoryPack.Proofs.Scope.Integers
import StoryPack.Proofs.Primitives.Preservation
import StoryPack.Proofs.Script.Packed
import StoryPack.Proofs.Confinement.Passage
import StoryPack.Proofs.Confinement.Watch
import StoryPack.Proofs.Confinement.Entrance
import StoryPack.Proofs.Confinement.Protection
import StoryPack.Proofs.Pack.Parts
import StoryPack.Proofs.Archive.Normalization
import StoryPack.Proofs.Confinement.Soundness
import StoryPack.Proofs.Scope.Entries
