/-
The string library.

Strings are byte strings.  Positions count from 1, and negative ones count from
the end.

* `Library.runString` — what a string function does with its arguments;
* `Library.nextMatch` — the step of a search for all matches;
* `Library.stringArith` — arithmetic on strings that spell numbers.
-/
import StoryPack.Script.Library.Format
import StoryPack.Script.Library.Packing
import StoryPack.Script.Pattern

namespace StoryPack.Script.Library

open StoryPack.Script.Action

/-- The last position, counted from 1, that an index means. -/
def endIndex (i : Int64) (size : Nat) : Nat :=
  if (size : Int) < i.toInt then size
  else if 0 ≤ i then i.toNatClampNeg
  else if i.toInt < -(size : Int) then 0
  else ((size : Int) + i.toInt + 1).toNat

/-- The largest size of a string that is built at once. -/
def sizeLimit : Nat := 2147483647

/-- Fails because of a pattern. -/
def ofPattern {α : Type} (r : Except Pattern.Fault α) : Action α :=
  match r with
  | .ok a => pure a
  | .error f => raise f.message

/-- The value of what a capture holds. -/
def heldValue : Pattern.Held → Action Value
  | .piece b => string b
  | .position n => pure (.int (Int64.ofNat n))

/-- The values of the captures of a match. -/
def captureValues (src : ByteArray) (s e : Nat) (caps : Array Pattern.Capture) (whole : Bool) :
    Action (List Value) := do
  let held ← ofPattern (Pattern.allHeld src s e caps whole)
  held.mapM heldValue

/-- Finds a pattern: `find` gives its place, `match` what it captures. -/
def find (args : List Value) (places : Bool) : Action (List Value) := do
  let src ← Argument.string args 1
  let p ← Argument.string args 2
  let start := Packing.startIndex (← Argument.integerOr args 3 1) src.size - 1
  if start > src.size then pure [.nil]
  else if places && ((Argument.get args 4).truthy || Pattern.isPlain p) then
    match Bytes.find? src p start with
    | some i => pure [.int (Int64.ofNat (i + 1)), .int (Int64.ofNat (i + p.size))]
    | none => pure [.nil]
  else
    let anchored := Bytes.byte p 0 == 94
    match ← ofPattern (Pattern.search src p anchored start) with
    | none => pure [.nil]
    | some (s, e, caps) =>
      if places then do
        let vs ← captureValues src s e caps false
        pure (.int (Int64.ofNat (s + 1)) :: .int (Int64.ofNat e) :: vs)
      else captureValues src s e caps true

/-- The next match of a search that does not end where the last one ended. -/
def searchFrom (src p : ByteArray) (last : Option Nat) (s : Nat) :
    Except Pattern.Fault (Option (Nat × Nat × Array Pattern.Capture)) :=
  match Pattern.matchAt src p s 0 with
  | .error f => .error f
  | .ok (some (e, caps)) =>
    if last == some e then
      if s < src.size then searchFrom src p last (s + 1) else .ok none
    else .ok (some (s, e, caps))
  | .ok none => if s < src.size then searchFrom src p last (s + 1) else .ok none
termination_by src.size - s

/-- The step of a search for all matches. -/
def nextMatch (r : Nat) : Action (List Value) := do
  let st ← read fun h => (h.searches[r]?).getD default
  if st.position > st.subject.size then pure []
  else
    match ← ofPattern (searchFrom st.subject st.pattern st.last st.position) with
    | none => pure []
    | some (s, e, caps) =>
      modify fun h =>
        { h with searches := h.searches.set! r { st with position := e, last := some e } }
      captureValues st.subject s e caps true

/-- A search for all matches. -/
def gmatch (args : List Value) : Action (List Value) := do
  let src ← Argument.string args 1
  let p ← Argument.string args 2
  let start := Packing.startIndex (← Argument.integerOr args 3 1) src.size - 1
  let start := min start (src.size + 1)
  let r ← update fun h => h.newSearch ⟨src, p, start, none⟩
  pure [.function (.matcher r)]

/-- Puts captures into a replacement text. -/
def expand (src : ByteArray) (s e : Nat) (caps : Array Pattern.Capture) (text : ByteArray) :
    (fuel : Nat) → (i : Nat) → ByteArray → Action ByteArray
  | 0, _, acc => pure acc
  | fuel + 1, i, acc =>
    if i ≥ text.size then pure acc
    else
      let c := Bytes.byte text i
      if c != 37 then expand src s e caps text fuel (i + 1) (acc.push c)
      else
        let d := Bytes.byte text (i + 1)
        if d == 37 then expand src s e caps text fuel (i + 2) (acc.push 37)
        else if d == 48 then expand src s e caps text fuel (i + 2) (acc ++ src.extract s e)
        else if Pattern.isDigit d then do
          match ← ofPattern (Pattern.held src s e caps (d.toNat - 49)) with
          | .piece b => expand src s e caps text fuel (i + 2) (acc ++ b)
          | .position n => expand src s e caps text fuel (i + 2) (acc ++ (toString n).toUTF8)
        else raise "invalid use of '%' in replacement string"

/-- What replaces a match. -/
def replacement (src : ByteArray) (s e : Nat) (caps : Array Pattern.Capture) (by_ : Value) :
    Action ByteArray := do
  let whole := src.extract s e
  match by_ with
  | .table r => do
    let key ← heldValue (← ofPattern (Pattern.held src s e caps 0))
    finish whole (← Operation.index (.table r) key)
  | .function f => do
    let vs ← captureValues src s e caps true
    finish whole (← call1 (.function f) vs)
  | v =>
    match Operation.bytes? v with
    | some text => expand src s e caps text (text.size + 1) 0 ByteArray.empty
    | none => pure whole
where
  finish (whole : ByteArray) (v : Value) : Action ByteArray :=
    match v with
    | .nil | .bool false => pure whole
    | v =>
      match Operation.bytes? v with
      | some b => pure b
      | none => raise ("invalid replacement value (a " ++ v.typeName ++ ")")

/-- Replaces matches from position `s` on; `n` have been replaced. -/
def replaceFrom (src p : ByteArray) (by_ : Value) (most : Option Nat) (anchored : Bool) :
    (fuel : Nat) → (s n : Nat) → (last : Option Nat) → ByteArray → Action (ByteArray × Nat)
  | 0, s, n, _, acc => pure (acc ++ src.extract s src.size, n)
  | fuel + 1, s, n, last, acc =>
    if most.any (· ≤ n) then pure (acc ++ src.extract s src.size, n)
    else do
      match ← ofPattern (Pattern.matchAt src p s (if anchored then 1 else 0)) with
      | some (e, caps) =>
        if last == some e then skip fuel s n last acc
        else
          let b ← replacement src s e caps by_
          reserve (acc.size + b.size)
          let acc := acc ++ b
          if anchored then pure (acc ++ src.extract e src.size, n + 1)
          else replaceFrom src p by_ most anchored fuel e (n + 1) (some e) acc
      | none => skip fuel s n last acc
where
  /-- Passes over one byte that no match takes. -/
  skip (fuel s n : Nat) (last : Option Nat) (acc : ByteArray) : Action (ByteArray × Nat) :=
    if s < src.size then
      let acc := acc.push (Bytes.byte src s)
      if anchored then pure (acc ++ src.extract (s + 1) src.size, n)
      else replaceFrom src p by_ most anchored fuel (s + 1) n last acc
    else pure (acc, n)

/-- Replaces the matches of a pattern. -/
def gsub (args : List Value) : Action (List Value) := do
  let src ← Argument.string args 1
  let p ← Argument.string args 2
  let by_ := Argument.get args 3
  let suited :=
    match by_ with
    | .int _ | .float _ | .str _ | .table _ | .function _ => true
    | _ => false
  let most ←
    if (Argument.get args 4).isNil then pure none
    else do
      let n ← Argument.integer args 4
      pure (some n.toNatClampNeg)
  if !suited then Argument.wrongType args 3 "string/function/table"
  else
    let anchored := Bytes.byte p 0 == 94
    let (b, n) ← replaceFrom src p by_ most anchored (2 * src.size + 3) 0 0 none ByteArray.empty
    pure [← string b, .int (Int64.ofNat n)]

/-- Copies of a string with a separator between them. -/
def rep (args : List Value) : Action (List Value) := do
  let s ← Argument.string args 1
  let n ← Argument.integer args 2
  let sep ← Argument.stringOr args 3 ByteArray.empty
  if n ≤ 0 then pure [.str ByteArray.empty]
  else
    let n := n.toNatClampNeg
    if n * (s.size + sep.size) > sizeLimit then raise "resulting string too large"
    else
      let size := n * s.size + (n - 1) * sep.size
      reserve size
      if s.size == 1 && sep.size == 0 then pure [← string (Bytes.replicate n (Bytes.byte s 0))]
      else
        let unit := s ++ sep
        let b :=
          (n - 1).fold (fun _ _ (acc : ByteArray) => acc ++ unit) (ByteArray.emptyWithCapacity size)
        pure [← string (b ++ s)]

/-- How compiled code begins: its mark, the version, and the sizes and forms of numbers. A function
is dumped as no more than this, since compiled code is never loaded. -/
def binaryHead : ByteArray :=
  ⟨#[0x1b, 0x4c, 0x75, 0x61, 0x54, 0, 0x19, 0x93, 0x0d, 0x0a, 0x1a, 0x0a, 4, 8, 8, 0x78, 0x56, 0, 0,
    0, 0, 0, 0, 0, 0, 0, 0, 0, 0x28, 0x77, 0x40]⟩

/-- What a string function does. -/
def runString (f : StringFunction) (args : List Value) : Action (List Value) :=
  match f with
  | .byte => do
    let s ← Argument.string args 1
    let i ← Argument.integerOr args 2 1
    let first := Packing.startIndex i s.size
    let j ← Argument.integerOr args 3 i
    let last := endIndex j s.size
    if first > last then pure []
    else pure ((s.extract (first - 1) last).toList.map fun c => .int (Int64.ofNat c.toNat))
  | .char => do
    let bytes ← (List.range args.length).mapM fun k => do
      let i ← Argument.integer args (k + 1)
      Argument.check (0 ≤ i && i ≤ 255) (k + 1) "value out of range"
      pure i.toUInt64.toUInt8
    pure [← Action.string ⟨bytes.toArray⟩]
  | .dump => do
    match ← Argument.function args 1 with
    | .function (.closure _) => pure [← Action.string binaryHead]
    | _ => raise "unable to dump given function"
  | .find => find args true
  | .format => Format.apply args
  | .gmatch => gmatch args
  | .gsub => gsub args
  | .len => do
    let s ← Argument.string args 1
    pure [.int (Int64.ofNat s.size)]
  | .lower => do
    let s ← Argument.string args 1
    pure [← Action.string ⟨s.data.map Pattern.toLower⟩]
  | .match => find args false
  | .pack => Packing.pack args
  | .packsize => Packing.size args
  | .rep => rep args
  | .reverse => do
    let s ← Argument.string args 1
    pure [← Action.string ⟨s.data.reverse⟩]
  | .sub => do
    let s ← Argument.string args 1
    let first := Packing.startIndex (← Argument.integer args 2) s.size
    let last := endIndex (← Argument.integerOr args 3 (-1)) s.size
    pure [← Action.string (s.extract (first - 1) last)]
  | .unpack => Packing.unpack args
  | .upper => do
    let s ← Argument.string args 1
    pure [← Action.string ⟨s.data.map Pattern.toUpper⟩]

/-- An operator on strings that spell numbers; otherwise the second operand's metatable decides. -/
def stringArith (op : Arith) (args : List Value) : Action (List Value) := do
  let a := Argument.get args 1
  let b := Argument.get args 2
  match Numeral.ofValue? a, Numeral.ofValue? b with
  | some x, some y => pure [← Operation.arith op x y]
  | _, _ =>
    let h ← heap
    match b, h.metafield b op.event with
    | .str _, _ | _, .nil =>
      raise ("attempt to " ++ op.eventName ++
        " a '" ++ a.typeName ++ "' with a '" ++ b.typeName ++ "'")
    | _, f => pure [← call1 f [a, b]]

end StoryPack.Script.Library
