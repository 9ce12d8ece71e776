/-
The base library.

Functions on values of every type.  The protected calls are not here: they need
the stack of calls and belong to the machine; `load` needs the compiler.

* `Library.runBase` — what a base function does with its arguments.
-/
import StoryPack.Script.Library.Argument
import StoryPack.Text.Utf8

namespace StoryPack.Script.Library

open StoryPack.Script.Action

/-- Throws the first argument; a string gets the position of the function `level` calls up. -/
def throwValue (v : Value) (level : Int64) : Action (List Value) :=
  match v with
  | .str s => if 0 < level then fail (.located level.toNatClampNeg s) else fail (.value v)
  | v => fail (.value v)

/-- The digits and letters of a number in some base, from a position on: its value, and the position
after it; `none` when a digit is too large for the base. -/
def digitsInBase (b : ByteArray) (base : Nat) : (fuel : Nat) → (i n : Nat) → Option (Nat × Nat)
  | 0, i, n => some (n, i)
  | fuel + 1, i, n =>
    let c := Bytes.byte b i
    let d : Option Nat :=
      if 48 ≤ c && c ≤ 57 then some (c.toNat - 48)
      else if 65 ≤ c && c ≤ 90 then some (c.toNat - 55)
      else if 97 ≤ c && c ≤ 122 then some (c.toNat - 87)
      else none
    match d with
    | some d => if d < base then digitsInBase b base fuel (i + 1) (n * base + d) else none
    | none => some (n, i)

/-- The integer that a byte string spells in some base. -/
def integerInBase? (b : ByteArray) (base : Nat) : Option Int64 :=
  let (negative, start) := Numeral.sign b (Numeral.blanks b 0)
  match digitsInBase b base (b.size + 1) start 0 with
  | some (n, i) =>
    if i == start || Numeral.blanks b i != b.size then none
    else some (Int64.ofInt (if negative then -(n : Int) else n))
  | none => none

/-- Reads a number from a string, in some base when one is given. -/
def tonumber (args : List Value) : Action (List Value) := do
  let v := Argument.get args 1
  if (Argument.get args 2).isNil then
    match v with
    | .int _ | .float _ => pure [v]
    | .str s => pure [(Numeral.number? s).getD .nil]
    | _ => do
      let _ ← Argument.present args 1
      pure [.nil]
  else do
    let base ← Argument.integer args 2
    match v with
    | .str s => do
      Argument.check (2 ≤ base && base ≤ 36) 2 "base out of range"
      pure [((integerInBase? s base.toNatClampNeg).map Value.int).getD .nil]
    | _ => Argument.wrongType args 1 "string"

/-- The arguments from a place on, or their count. -/
def select (args : List Value) : Action (List Value) := do
  let rest := args.drop 1
  match Argument.get args 1 with
  | .str s =>
    if Bytes.byte s 0 == 35 then pure [.int (Int64.ofNat rest.length)] else byNumber rest
  | _ => byNumber rest
where
  byNumber (rest : List Value) : Action (List Value) := do
    let i ← Argument.integer args 1
    let n : Int := args.length
    let i : Int := if i < 0 then n + i.toInt else min i.toInt n
    Argument.check (1 ≤ i) 1 "index out of range"
    pure (rest.drop (i.toNat - 1))

/-- The entry after a key in a table. -/
def nextEntry (r : Nat) (key : Value) : Action (List Value) := fun h =>
  let following : Table.Following :=
    match key with
    | .nil => (h.table r).after none
    | key =>
      match key.toKey? with
      | some k => (h.table r).after (some k)
      | none => .invalid
  match following with
  | .entry k v => .done h [k.toValue, v]
  | .done => .done h [.nil]
  | .invalid => .failed h (.operation "invalid key to 'next'".toUTF8)

/-- Gives a table another metatable, unless the present one is protected. -/
def setmetatable (args : List Value) : Action (List Value) := do
  let r ← Argument.table args 1
  let meta? ←
    match Argument.get args 2 with
    | .table m => pure (some m)
    | .nil => if Argument.given args 2 then pure none else Argument.wrongType args 2 "nil or table"
    | _ => Argument.wrongType args 2 "nil or table"
  let protection ← read fun h => h.metafield (.table r) Event.metatable
  if !protection.isNil then raise "cannot change a protected metatable"
  else
    modify fun h => h.setMetatable r meta?
    pure [.table r]

/-- The metatable of a value, or what stands for it. That of an error object is not shown. -/
def getmetatable (v : Value) : Action (List Value) := read fun h =>
  match h.metatable? v, v with
  | none, .fault _ => [.bool false]
  | none, _ => [.nil]
  | some m, _ =>
    match h.getKey m (.str Event.metatable) with
    | .nil => [.table m]
    | shown => [shown]

/-- What an option of the collector gives. It only answers: no sandbox has this function, and the
collector runs at its own pace. -/
def collectOption (option : String) : Action (List Value) :=
  match option with
  | "count" => do
    let used ← read (·.used)
    pure [.float (floatOfInt used / 1024.0)]
  | "step" | "isrunning" => pure [.bool true]
  | "generational" | "incremental" => do pure [← text "incremental"]
  | "collect" | "stop" | "restart" | "setpause" | "setstepmul" => pure [.int 0]
  | _ => badArgument 1 ("invalid option '" ++ option ++ "'")

/-- What a base function does. -/
def runBase (f : BaseFunction) (args : List Value) : Action (List Value) :=
  match f with
  | .assert => do
    if (Argument.get args 1).truthy then pure args
    else
      let _ ← Argument.present args 1
      throwValue (args.getD 1 (.ofString "assertion failed!")) 1
  | .collectgarbage => do
    collectOption (Utf8.lossy (← Argument.stringOr args 1 "collect".toUTF8))
  | .error => do
    let level ← Argument.integerOr args 2 1
    throwValue (Argument.get args 1) level
  | .getmetatable => do getmetatable (← Argument.present args 1)
  | .ipairs => do
    let v ← Argument.present args 1
    pure [.builtin (.base .ipairsStep), v, .int 0]
  | .ipairsStep => do
    let i := (← Argument.integer args 2) + 1
    let v ← Operation.index (Argument.get args 1) (.int i)
    pure (if v.isNil then [.nil] else [.int i, v])
  | .next => do nextEntry (← Argument.table args 1) (Argument.get args 2)
  | .pairs => do
    let v ← Argument.present args 1
    match ← read fun h => h.metafield v Event.pairs with
    | .nil => pure [.builtin (.base .next), v, .nil]
    | f =>
      let vs ← call f [v]
      pure [vs.getD 0 .nil, vs.getD 1 .nil, vs.getD 2 .nil]
  | .load | .loadfile | .dofile | .pcall | .xpcall => pure []
  | .print => do
    for v in args do
      let _ ← Operation.shown v
    pure []
  | .rawequal => do
    let a ← Argument.present args 1
    let b ← Argument.present args 2
    pure [.bool (rawEqual a b)]
  | .rawget => do
    let r ← Argument.table args 1
    let k ← Argument.present args 2
    read fun h => [(h.table r).getValue k]
  | .rawlen =>
    match Argument.get args 1 with
    | .table r => read fun h => [.int (Int64.ofNat (h.table r).length)]
    | .str s => pure [.int (Int64.ofNat s.size)]
    | _ => Argument.wrongType args 1 "table or string"
  | .rawset => do
    let r ← Argument.table args 1
    let k ← Argument.present args 2
    let v ← Argument.present args 3
    Operation.rawSet r k v
    pure [.table r]
  | .select => select args
  | .setmetatable => setmetatable args
  | .tonumber => tonumber args
  | .tostring => do
    let s ← Operation.shown (← Argument.present args 1)
    pure [← string s]
  | .type => do
    let v ← Argument.present args 1
    pure [.ofString v.typeName]
  | .warn => do
    let _ ← Argument.string args 1
    for i in List.range args.length do
      let _ ← Argument.string args (i + 1)
    pure []

end StoryPack.Script.Library
