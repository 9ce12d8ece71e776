/-
Raw tables.

A table maps keys to values other than `nil`.  It keeps the values of the
integer keys 1, 2, … up to some size in an array and all other entries in slots,
in the order of their insertion.  When the slots are full, the array takes the
largest power of two of which more than half is in use, and the slots grow to a
power of two.  The sizes decide which border `length` finds when there are gaps.

* `Table.get`, `Table.set` — reading and writing an entry;
* `Table.length` — a border: an index with a value whose successor has none;
* `Table.after?` — the entry after a key, in a fixed order of all entries.
-/
import StoryPack.Script.Value
import StoryPack.Number.Integral
import Std.Data.HashMap

namespace StoryPack.Script

/-- The key that a value is, if it can index a table: a whole double is its integer, and neither
`nil` nor NaN is a key. -/
def Value.toKey? : Value → Option Key
  | .nil => none
  | .bool b => some (.bool b)
  | .int i => some (.int i)
  | .float x =>
    match Double.of x with
    | .nan => none
    | .infinite _ => some (.float x.toBits)
    | .finite d =>
      match d.toInt?.bind int64? with
      | some i => some (.int i)
      | none => some (.float x.toBits)
  | .str s => some (.str s)
  | .table r => some (.table r)
  | .function f => some (.function f)
  | .fault r => some (.fault r)

/-- A table: its array, its slots with their positions, and the reference of its metatable. -/
structure Table where
  /-- The values of the keys 1, 2, …; `nil` where there is none. -/
  array : Array Value := #[]
  /-- The other entries in the order of insertion; a removed one keeps its key with `nil`. -/
  slots : Array (Key × Value) := #[]
  /-- The slot of each key. -/
  index : Std.HashMap Key Nat := ∅
  /-- How many slots there may be before the table is laid out anew. -/
  capacity : Nat := 0
  metatable : Option Nat := none
deriving Inhabited

namespace Table

/-- The place of an integer in the array, if it lies there. -/
@[inline] def arrayIndex? (t : Table) (i : Int64) : Option Nat :=
  if 0 < i then
    let n := i.toNatClampNeg - 1
    if n < t.array.size then some n else none
  else none

/-- The value in the slot of a key. -/
def getSlot (t : Table) (k : Key) : Value :=
  match t.index[k]? with
  | some n => (t.slots[n]?.map (·.2)).getD .nil
  | none => .nil

/-- The value of an integer key. -/
@[inline] def getInt (t : Table) (i : Int64) : Value :=
  match t.arrayIndex? i with
  | some n => (t.array[n]?).getD .nil
  | none => if t.slots.isEmpty then .nil else t.getSlot (.int i)

/-- The value of a key; `nil` when there is none. -/
@[inline] def get (t : Table) (k : Key) : Value :=
  match k with
  | .int i => t.getInt i
  | k => if t.slots.isEmpty then .nil else t.getSlot k

/-- The value that a value indexes; `nil` when it is no key. -/
def getValue (t : Table) (v : Value) : Value :=
  match v.toKey? with
  | some k => t.get k
  | none => .nil

/-- The least `b` with `n ≤ 2^b`. -/
def ceilLog2 (n : Nat) : Nat := if n ≤ 1 then 0 else Nat.log2 (n - 1) + 1

/-- Counts a positive integer key into the bin of its power of two. -/
def countKey (bins : Array Nat) (k : Key) : Array Nat :=
  match k with
  | .int i => if 0 < i then bins.modify (ceilLog2 i.toNatClampNeg) (· + 1) else bins
  | _ => bins

/-- Counts the integer keys: bin `b` holds the number of keys above `2^(b-1)` up to `2^b`. -/
def keyBins (t : Table) (extra : Key) : Array Nat :=
  let bins := t.array.size.fold (fun i _ bins =>
    if (t.array[i]!).isNil then bins else countKey bins (.int (Int64.ofNat (i + 1))))
    (Array.replicate 66 0)
  let bins := t.slots.foldl (fun bins e => if e.2.isNil then bins else countKey bins e.1) bins
  countKey bins extra

/-- The largest power of two of which the counted keys fill more than half, and how many keys lie
within it. -/
def arraySize (bins : Array Nat) : Nat × Nat :=
  let total := bins.foldl (· + ·) 0
  let rec go (fuel b a size count : Nat) : Nat × Nat :=
    match fuel with
    | 0 => (size, count)
    | fuel + 1 =>
      let p := Nat.pow 2 b
      if p / 2 < total then
        let a := a + bins.getD b 0
        if p / 2 < a then go fuel (b + 1) a p a else go fuel (b + 1) a size count
      else (size, count)
  go 62 0 0 0 0

/-- How many entries hold a value. -/
def count (t : Table) : Nat :=
  t.array.foldl (fun n v => if v.isNil then n else n + 1) 0 +
    t.slots.foldl (fun n e => if e.2.isNil then n else n + 1) 0

/-- Puts an entry whose key is new into the array or into a slot. -/
def place (t : Table) (k : Key) (v : Value) : Table :=
  match k with
  | .int i =>
    match t.arrayIndex? i with
    | some n => { t with array := t.array.set! n v }
    | none => { t with index := t.index.insert k t.slots.size, slots := t.slots.push (k, v) }
  | k => { t with index := t.index.insert k t.slots.size, slots := t.slots.push (k, v) }

/-- The least power of two that holds `n` slots; no slots need none. -/
def slotCapacity (n : Nat) : Nat := if n == 0 then 0 else Nat.pow 2 (ceilLog2 n)

/-- Lays the entries out anew in an array of the given size and room for `slots` slots. -/
def resize (t : Table) (size slots : Nat) : Table :=
  let kept := t.array.extract 0 size
  let array := kept ++ Array.replicate (size - kept.size) .nil
  let start : Table :=
    { array := array, capacity := slotCapacity slots, metatable := t.metatable }
  let moved := t.slots.foldl (fun (u : Table) e => if e.2.isNil then u else u.place e.1 e.2) start
  (t.array.size - size).fold (fun i _ (u : Table) =>
    let v := t.array[size + i]!
    if v.isNil then u else u.place (.int (Int64.ofNat (size + i + 1))) v) moved

/-- Adds an entry for a key that has no place yet. -/
def add (t : Table) (k : Key) (v : Value) : Table :=
  if t.slots.size < t.capacity then t.place k v
  else
    let (size, within) := arraySize (t.keyBins k)
    let t := t.resize size (t.count + 1 - within)
    t.place k v

/-- Gives a key a value; `nil` removes it. -/
def set (t : Table) (k : Key) (v : Value) : Table :=
  match (match k with | .int i => t.arrayIndex? i | _ => none) with
  | some n => { t with array := t.array.set! n v }
  | none =>
    match t.index[k]? with
    | some n => { t with slots := t.slots.set! n (k, v) }
    | none => if v.isNil then t else t.add k v

/-- A border of the array between a present index `i` (or zero) and an absent `j`. -/
def arrayBorder (a : Array Value) : (fuel : Nat) → (i j : Nat) → Nat
  | 0, i, _ => i
  | fuel + 1, i, j =>
    if j - i ≤ 1 then i
    else
      let m := (i + j) / 2
      if (a[m - 1]!).isNil then arrayBorder a fuel i m else arrayBorder a fuel m j

/-- A border between a present index `i` and an absent `j`, by halving. -/
def keyBorder (t : Table) : (fuel : Nat) → (i j : Nat) → Nat
  | 0, i, _ => i
  | fuel + 1, i, j =>
    if j - i ≤ 1 then i
    else
      let m := (i + j) / 2
      if (t.getInt (Int64.ofNat m)).isNil then keyBorder t fuel i m else keyBorder t fuel m j

/-- The greatest index. -/
def maxSlot : Nat := 0x7fffffffffffffff

/-- Doubles a positive present index until an absent one is found, and searches between. -/
def borderAbove (t : Table) : (fuel : Nat) → (i : Nat) → Nat
  | 0, i => i
  | fuel + 1, i =>
    let j := i * 2
    if j > maxSlot then
      if (t.getInt (Int64.ofNat maxSlot)).isNil then keyBorder t 64 i maxSlot
      else maxSlot
    else if (t.getInt (Int64.ofNat j)).isNil then keyBorder t 64 i j
    else borderAbove t fuel j

/-- A border of the table. -/
def length (t : Table) : Nat :=
  let n := t.array.size
  if 0 < n && (t.array[n - 1]!).isNil then
    if 2 ≤ n && !(t.array[n - 2]!).isNil then n - 1 else arrayBorder t.array 64 0 n
  else if t.slots.isEmpty || (t.getInt (Int64.ofNat (n + 1))).isNil then n
  else borderAbove t 64 (max n 1)

/-- What comes after a key. -/
inductive Following where
  | entry (k : Key) (v : Value)
  | done
  | invalid

/-- The first slot from `n` on that holds a value. -/
def fromSlot (t : Table) (n : Nat) : Following :=
  if h : n < t.slots.size then
    let e := t.slots[n]
    if e.2.isNil then fromSlot t (n + 1) else .entry e.1 e.2
  else .done
termination_by t.slots.size - n

/-- The first entry from place `n` of the array on. -/
def fromArray (t : Table) (n : Nat) : Following :=
  if h : n < t.array.size then
    let v := t.array[n]
    if v.isNil then fromArray t (n + 1) else .entry (.int (Int64.ofNat (n + 1))) v
  else fromSlot t 0
termination_by t.array.size - n

/-- The entry after a key; the first one for `none`. -/
def after (t : Table) : Option Key → Following
  | none => t.fromArray 0
  | some k =>
    match (match k with | .int i => t.arrayIndex? i | _ => none) with
    | some n => t.fromArray (n + 1)
    | none =>
      match t.index[k]? with
      | some n => t.fromSlot (n + 1)
      | none => .invalid

/-- All entries in order. -/
def entries (t : Table) : List (Key × Value) :=
  let fromArray := (List.range t.array.size).filterMap fun i =>
    let v := t.array[i]!
    if v.isNil then none else some (Key.int (Int64.ofNat (i + 1)), v)
  fromArray ++ t.slots.toList.filter fun e => !e.2.isNil

/-- The greatest size that an array is asked to have in advance. -/
def maxArray : Nat := 0x3fffffffffffffff

/-- A table of which the array and the slots have been given their sizes in advance. -/
def sized (array slots : Nat) : Table :=
  { array := Array.replicate (min array maxArray) .nil, capacity := slotCapacity slots }

/-- Gives the integers after `n` the values of a list. -/
def setFrom (t : Table) (n : Nat) (vs : List Value) : Table :=
  (vs.foldl (fun (acc : Table × Nat) v =>
    (acc.1.set (.int (Int64.ofNat (acc.2 + 1))) v, acc.2 + 1)) (t, n)).1

/-- How many bytes a table counts for. -/
def weight (t : Table) : Nat := 56 + 16 * t.array.size + 40 * t.capacity

end Table

end StoryPack.Script
