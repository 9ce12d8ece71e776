/-
The table library.

Lists are tables with values at 1, …, n, read and written through metamethods.

* `Library.runTable` — what a table function does with its arguments;
* `Library.sortRange` — the sort by partition around a median of three.
-/
import StoryPack.Script.Library.Argument

namespace StoryPack.Script.Library

open StoryPack.Script.Action

/-- Which uses of a list a function makes. -/
structure Use where
  reads : Bool := false
  writes : Bool := false
  length : Bool := false

/-- A table, or a value whose metatable allows the uses. -/
def list (args : List Value) (n : Nat) (u : Use) : Action Value := fun h =>
  let v := Argument.get args n
  match v with
  | .table _ => .done h v
  | _ =>
    let has (needed : Bool) (event : ByteArray) : Bool := !needed || !(h.metafield v event).isNil
    if (h.metatable? v).isSome && has u.reads Event.index && has u.writes Event.newindex &&
        has u.length Event.len then .done h v
    else Argument.wrongType args n "table" h

/-- The length of a list. -/
def lengthOf (v : Value) : Action Int64 := do
  match ← Operation.length v with
  | .int i => pure i
  | .float x =>
    match Numeral.floatToInteger? x with
    | some i => pure i
    | none => raise "object length is not an integer"
  | .str s =>
    match Numeral.toInteger? (.str s) with
    | some i => pure i
    | none => raise "object length is not an integer"
  | _ => raise "object length is not an integer"

/-- A list and its length. -/
def sizedList (args : List Value) (n : Nat) (u : Use) : Action (Value × Int64) := do
  let v ← list args n { u with length := true }
  pure (v, ← lengthOf v)

/-- The item of a list at an index. -/
@[inline] def item (t : Value) (i : Int64) : Action Value := Operation.index t (.int i)

/-- Writes the item of a list at an index. -/
@[inline] def setItem (t : Value) (i : Int64) (v : Value) : Action PUnit :=
  Operation.setIndex t (.int i) v

/-- Writes two items. -/
def setItems (t : Value) (i j : Int64) (a b : Value) : Action PUnit := do
  setItem t i a
  setItem t j b

/-- Moves the items from `i` down to above `stop` up by one. -/
def shiftUp (t : Value) (stop : Int64) : (fuel : Nat) → (i : Int64) → Action PUnit
  | 0, _ => pure ⟨⟩
  | fuel + 1, i =>
    if stop < i then do
      setItem t i (← item t (i - 1))
      shiftUp t stop fuel (i - 1)
    else pure ⟨⟩

/-- Moves the items from `i` up to `stop` down by one. -/
def shiftDown (t : Value) (stop : Int64) : (fuel : Nat) → (i : Int64) → Action PUnit
  | 0, _ => pure ⟨⟩
  | fuel + 1, i =>
    if i < stop then do
      setItem t i (← item t (i + 1))
      shiftDown t stop fuel (i + 1)
    else pure ⟨⟩

/-- Inserts a value at a position, at the end by default. -/
def insert (args : List Value) : Action (List Value) := do
  let (t, n) ← sizedList args 1 { reads := true, writes := true }
  let e := n + 1
  match args.length with
  | 2 => do
    setItem t e (Argument.get args 2)
    pure []
  | 3 => do
    let pos ← Argument.integer args 2
    Argument.check ((pos - 1).toUInt64 < e.toUInt64) 2 "position out of bounds"
    shiftUp t pos (e - pos).toUInt64.toNat e
    setItem t pos (Argument.get args 3)
    pure []
  | _ => raise "wrong number of arguments to 'insert'"

/-- Removes the value at a position, at the end by default. -/
def remove (args : List Value) : Action (List Value) := do
  let (t, size) ← sizedList args 1 { reads := true, writes := true }
  let pos ← Argument.integerOr args 2 size
  if pos != size then
    Argument.check ((pos - 1).toUInt64 ≤ size.toUInt64) 2 "position out of bounds"
  let v ← item t pos
  shiftDown t size (size - pos).toUInt64.toNat pos
  setItem t (max pos size) .nil
  pure [v]

/-- The pieces of a list from `i` to `j` joined; a separator stands before all but the first. -/
def joinFrom (t : Value) (sep : ByteArray) (j : Int64) : (fuel : Nat) → (i : Int64) → ByteArray →
    Action ByteArray
  | 0, _, acc => pure acc
  | fuel + 1, i, acc => do
    let v ← item t i
    match Operation.bytes? v with
    | some b =>
      let acc := acc ++ b
      if i < j then
        reserve acc.size
        joinFrom t sep j fuel (i + 1) (acc ++ sep)
      else pure acc
    | none =>
      fail (.located 1
        (("invalid value (at index " ++ toString i.toInt ++ ") in table for 'concat'").toUTF8))

/-- The strings of a list in one. -/
def concat (args : List Value) : Action (List Value) := do
  let (t, n) ← sizedList args 1 { reads := true }
  let sep ← Argument.stringOr args 2 ByteArray.empty
  let i ← Argument.integerOr args 3 1
  let j ← Argument.integerOr args 4 n
  if j < i then pure [← string ByteArray.empty]
  else
    let b ← joinFrom t sep j ((j.toInt - i.toInt).toNat + 1) i ByteArray.empty
    pure [← string b]

/-- The items from `i` on, `n` of them, appended to the reversed ones. -/
def itemsFrom (t : Value) : (n : Nat) → (i : Int64) → List Value → Action (List Value)
  | 0, _, acc => pure acc.reverse
  | n + 1, i, acc => do
    let v ← item t i
    itemsFrom t n (i + 1) (v :: acc)

/-- The items of a list. Their number has a fixed bound: it does not matter how much of the stack
the calls under way have taken, which an interpreter counts as well. -/
def unpack (args : List Value) : Action (List Value) := do
  let t := Argument.get args 1
  let i ← Argument.integerOr args 2 1
  let j ← if (Argument.get args 3).isNil then lengthOf t else Argument.integer args 3
  if j < i then pure []
  else
    let n := (j.toInt - i.toInt).toNat + 1
    if n ≥ 1000000 then raise "too many results to unpack"
    else itemsFrom t n i []

/-- Moves items upward in place or into another list: `n` items, in ascending order. -/
def copyUp (a b : Value) : (n : Nat) → (f t : Int64) → Action PUnit
  | 0, _, _ => pure ⟨⟩
  | n + 1, f, t => do
    setItem b t (← item a f)
    copyUp a b n (f + 1) (t + 1)

/-- Moves `n` items in descending order. -/
def copyDown (a b : Value) : (n : Nat) → (f t : Int64) → Action PUnit
  | 0, _, _ => pure ⟨⟩
  | n + 1, f, t => do
    setItem b t (← item a f)
    copyDown a b n (f - 1) (t - 1)

/-- Copies items from one place to another. -/
def move (args : List Value) : Action (List Value) := do
  let f ← Argument.integer args 2
  let e ← Argument.integer args 3
  let t ← Argument.integer args 4
  let target := if (Argument.get args 5).isNil then 1 else 5
  let a ← list args 1 { reads := true }
  let b ← list args target { writes := true }
  if f ≤ e then
    Argument.check (0 < f || e.toInt < maxInt + f.toInt) 3 "too many elements to move"
    let n := (e.toInt - f.toInt).toNat + 1
    Argument.check (t.toInt ≤ maxInt - n + 1) 4 "destination wrap around"
    let apart := e < t || t ≤ f
    let same ← if apart || target == 1 then pure true else Operation.equal a b
    if apart || !same then copyUp a b n f t
    else copyDown a b n (f + Int64.ofNat (n - 1)) (t + Int64.ofNat (n - 1))
  pure [b]

/-! ### Sorting -/

/-- Whether one value comes before another. -/
def before (less : Value) (a b : Value) : Action Bool :=
  if less.isNil then Operation.less a b
  else do
    let v ← call1 less [a, b]
    pure v.truthy

/-- Fails because the comparison is no order. -/
def noOrder {α : Type} : Action α := raise "invalid order function for sorting"

/-- The first index after `i` whose item does not come before the pivot: the index and the item. -/
def scanUp (t less pivot : Value) (up : Int64) : (fuel : Nat) → (i : Int64) → Action (Int64 × Value)
  | 0, _ => noOrder
  | fuel + 1, i => do
    let i := i + 1
    let v ← item t i
    if ← before less v pivot then
      if i == up - 1 then noOrder else scanUp t less pivot up fuel i
    else pure (i, v)

/-- The first index before `j` whose item the pivot does not come before. -/
def scanDown (t less pivot : Value) (i : Int64) :
    (fuel : Nat) → (j : Int64) → Action (Int64 × Value)
  | 0, _ => noOrder
  | fuel + 1, j => do
    let j := j - 1
    let v ← item t j
    if ← before less pivot v then
      if j < i then noOrder else scanDown t less pivot i fuel j
    else pure (j, v)

/-- Exchanges items until the scans meet; gives the place of the pivot, which stands at `up - 1`. -/
def partition (t less pivot : Value) (lo up : Int64) : (fuel : Nat) → (i j : Int64) → Action Int64
  | 0, _, _ => noOrder
  | fuel + 1, i, j => do
    let span := (up.toInt - lo.toInt).toNat + 2
    let (i, a) ← scanUp t less pivot up span i
    let (j, b) ← scanDown t less pivot i span j
    if j < i then
      -- the pivot and the item at `i` change places
      setItems t (up - 1) i a pivot
      pure i
    else
      setItems t i j b a
      partition t less pivot lo up fuel i j

/-- Brings the outer items of a range in order. -/
def orderEnds (t less : Value) (lo up : Int64) : Action PUnit := do
  let a ← item t lo
  let b ← item t up
  if ← before less b a then setItems t lo up b a else pure ⟨⟩

/-- Brings an item in order with the outer items of its range. -/
def orderMiddle (t less : Value) (lo up p : Int64) : Action PUnit := do
  let v ← item t p
  let a ← item t lo
  if ← before less v a then setItems t p lo a v
  else
    let b ← item t up
    if ← before less b v then setItems t p up b v else pure ⟨⟩

/-- Takes the item at `p` as the pivot, and sorts the parts of the range beside it: the shorter part
first, then the longer one. -/
def sortAround (t less : Value) (lo up p : Int64) (sort : Int64 → Int64 → Action PUnit) :
    Action PUnit := do
  let pivot ← item t p
  let last ← item t (up - 1)
  setItems t p (up - 1) last pivot
  let p ← partition t less pivot lo up ((up.toInt - lo.toInt).toNat + 2) lo (up - 1)
  if p - lo < up - p then
    sort lo (p - 1)
    sort (p + 1) up
  else
    sort (p + 1) up
    sort lo (p - 1)

/-- Sorts the items from `lo` to `up`. -/
def sortRange (t less : Value) : (fuel : Nat) → (lo up : Int64) → Action PUnit
  | 0, _, _ => pure ⟨⟩
  | fuel + 1, lo, up =>
    if up ≤ lo then pure ⟨⟩
    else do
      orderEnds t less lo up
      if up - lo == 1 then pure ⟨⟩
      else do
        orderMiddle t less lo up ((lo + up) / 2)
        if up - lo == 2 then pure ⟨⟩
        else sortAround t less lo up ((lo + up) / 2) (sortRange t less fuel)

/-- Sorts a list. -/
def sort (args : List Value) : Action (List Value) := do
  let (t, n) ← sizedList args 1 { reads := true, writes := true }
  if 1 < n then
    Argument.check (n.toInt < 2147483647) 1 "array too big"
    let less ←
      if (Argument.get args 2).isNil then pure .nil else Argument.function args 2
    sortRange t less n.toNatClampNeg 1 n
  pure []

/-- A new table of the arguments and their count. -/
def packed (args : List Value) : Action (List Value) := do
  let t := (Table.sized args.length 1).setFrom 0 args
  let t := t.set (.str "n".toUTF8) (.int (Int64.ofNat args.length))
  let r ← newTable t
  pure [.table r]

/-- What a table function does. -/
def runTable (f : TableFunction) (args : List Value) : Action (List Value) :=
  match f with
  | .concat => concat args
  | .insert => insert args
  | .move => move args
  | .pack => packed args
  | .remove => remove args
  | .sort => sort args
  | .unpack => unpack args

end StoryPack.Script.Library
