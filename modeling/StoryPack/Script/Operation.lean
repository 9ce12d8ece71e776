/-
The operators with their metamethods.

Each operator first tries what it means on plain values and otherwise asks the
metatables of its operands.  The same actions serve scripts and library
functions.

* `Operation.index`, `Operation.setIndex` — reading and writing through tables;
* `Operation.arith`, `Operation.concat`, `Operation.length` — operators;
* `Operation.equal`, `Operation.less`, `Operation.lessOrEqual` — comparisons;
* `Operation.shown` — the text of a value.
-/
import StoryPack.Script.Action
import StoryPack.Script.Arithmetic

namespace StoryPack.Script

/-! The keys under which metatables hold their entries. -/

namespace Event

def index : ByteArray := "__index".toUTF8
def newindex : ByteArray := "__newindex".toUTF8
def call : ByteArray := "__call".toUTF8
def concat : ByteArray := "__concat".toUTF8
def len : ByteArray := "__len".toUTF8
def eq : ByteArray := "__eq".toUTF8
def lt : ByteArray := "__lt".toUTF8
def le : ByteArray := "__le".toUTF8
def close : ByteArray := "__close".toUTF8
def pairs : ByteArray := "__pairs".toUTF8
def metatable : ByteArray := "__metatable".toUTF8
def tostring : ByteArray := "__tostring".toUTF8
def name : ByteArray := "__name".toUTF8
def mode : ByteArray := "__mode".toUTF8

end Event

/-- The name of an operator, as its metamethod has it. -/
def Arith.eventName : Arith → String
  | .add => "add"
  | .sub => "sub"
  | .mul => "mul"
  | .mod => "mod"
  | .pow => "pow"
  | .div => "div"
  | .idiv => "idiv"
  | .band => "band"
  | .bor => "bor"
  | .bxor => "bxor"
  | .shl => "shl"
  | .shr => "shr"
  | .unm => "unm"
  | .bnot => "bnot"

/-- The metatable key of an operator. -/
def Arith.event (op : Arith) : ByteArray := ("__" ++ op.eventName).toUTF8

/-- The name of a value's type in messages: a text under `__name` in its metatable counts. -/
def Heap.typeName (h : Heap) (v : Value) : ByteArray :=
  match v with
  | .table _ =>
    match h.metafield v Event.name with
    | .str s => s
    | _ => v.typeName.toUTF8
  | v => v.typeName.toUTF8

namespace Operation

open StoryPack.Script.Action

/-- How long a chain of metatables may be. -/
def chainLimit : Nat := 2000

/-- Fails because an operand has the wrong type. -/
def wrongType {α : Type} (verb : String) (v : Value) (which : Option Nat) : Action α := fun h =>
  match which with
  | some n => .failed h (.operand verb (h.typeName v) n)
  | none =>
    .failed h
      (.operation (("attempt to " ++ verb ++ " a ").toUTF8 ++ h.typeName v ++ " value".toUTF8))

/-- Reads on along a chain of metatables; `which` names the operand at its start. -/
def indexFrom : (fuel : Nat) → (which : Option Nat) → Value → Value → Action Value
  | 0, _, _, _ => fail (.operation "'__index' chain too long; possibly a loop".toUTF8)
  | fuel + 1, which, object, key => fun h =>
    match object with
    | .table r =>
      let t := h.table r
      let v := t.getValue key
      if !v.isNil then .done h v
      else
        match t.metatable with
        | none => .done h .nil
        | some m =>
          match h.getKey m (.str Event.index) with
          | .nil => .done h .nil
          | .function f => call1 (.function f) [object, key] h
          | next => indexFrom fuel none next key h
    | _ =>
      match h.metafield object Event.index with
      | .nil => wrongType "index" object which h
      | .function f => call1 (.function f) [object, key] h
      | next => indexFrom fuel none next key h

/-- The value of a key in a value. -/
def index (object key : Value) : Action Value := indexFrom chainLimit (some 0) object key

/-- Gives a key of a table a value, without metamethods. -/
def rawSet (r : Nat) (key value : Value) : Action PUnit := fun h =>
  match key.toKey? with
  | some k => .done (h.setKey r k value) ⟨⟩
  | none =>
    match key with
    | .nil => .failed h (.operation "table index is nil".toUTF8)
    | _ => .failed h (.operation "table index is NaN".toUTF8)

/-- Writes on along a chain of metatables. -/
def setIndexFrom : (fuel : Nat) → (which : Option Nat) → Value → Value → Value → Action PUnit
  | 0, _, _, _, _ => fail (.operation "'__newindex' chain too long; possibly a loop".toUTF8)
  | fuel + 1, which, object, key, value => fun h =>
    match object with
    | .table r =>
      let meta? := (h.table r).metatable
      match meta? with
      | none => rawSet r key value h
      | some m =>
        if !((h.table r).getValue key).isNil then rawSet r key value h
        else
          match h.getKey m (.str Event.newindex) with
          | .nil => rawSet r key value h
          | .function f =>
            (call (.function f) [object, key, value] h).andThen fun _ h => .done h ⟨⟩
          | next => setIndexFrom fuel none next key value h
    | _ =>
      match h.metafield object Event.newindex with
      | .nil => wrongType "index" object which h
      | .function f => (call (.function f) [object, key, value] h).andThen fun _ h => .done h ⟨⟩
      | next => setIndexFrom fuel none next key value h

/-- Gives a key of a value a value. -/
def setIndex (object key value : Value) : Action PUnit :=
  setIndexFrom chainLimit (some 0) object key value

/-- The first metamethod of two operands. -/
def binaryHandler (h : Heap) (event : ByteArray) (a b : Value) : Value :=
  match h.metafield a event with
  | .nil => h.metafield b event
  | f => f

/-- A failed operator on numbers or other values. -/
def arithFailure (op : Arith) (a b : Value) : Action Value :=
  if op.isBitwise then
    match a.kind, b.kind with
    | .number, .number => fail (.notIntegral (if a.integral?.isNone then 0 else 1))
    | .number, _ => wrongType "perform bitwise operation on" b (some 1)
    | _, _ => wrongType "perform bitwise operation on" a (some 0)
  else
    match a.kind with
    | .number => wrongType "perform arithmetic on" b (some 1)
    | _ => wrongType "perform arithmetic on" a (some 0)

/-- An arithmetic or bitwise operator. -/
def arith (op : Arith) (a b : Value) : Action Value :=
  match arithmetic op a b with
  | .value v => pure v
  | .divisionByZero => fail (.operation "attempt to divide by zero".toUTF8)
  | .remainderByZero => fail (.operation "attempt to perform 'n%0'".toUTF8)
  | .unsuited => fun h =>
    match binaryHandler h op.event a b with
    | .nil => arithFailure op a b h
    | f => call1 f [a, b] h

/-- The bytes of a string or a number. -/
def bytes? (v : Value) : Option ByteArray :=
  match v with
  | .str s => some s
  | v => Numeral.printed? v

/-- Joins values pairwise from the right; the list in front of the last value is reversed. -/
def concatPairs : (before : List Value) → (last : Value) → Action Value
  | [], last => pure last
  | a :: before, last => fun h =>
    match bytes? a, bytes? last with
    | some x, some y => concatPairs before (.str (x ++ y)) (h.countString (x.size + y.size))
    | some _, none => byHandler before a last last (before.length + 1) h
    | none, _ => byHandler before a last a before.length h
where
  /-- Asks the metatables of a pair of which the value `bad`, at place `which`, is no string. -/
  byHandler (before : List Value) (a last bad : Value) (which : Nat) : Action Value := fun h =>
    match binaryHandler h Event.concat a last with
    | .nil => wrongType "concatenate" bad (some which) h
    | f => (call1 f [a, last] h).andThen fun v h => concatPairs before v h

/-- Joins two or more values: strings and numbers at once, others pairwise from the right. -/
def concat (values : List Value) : Action Value :=
  match values.mapM bytes? with
  | some parts => do
    let size := parts.foldl (fun n b => n + b.size) 0
    reserve size
    string (parts.foldl (fun (acc : ByteArray) b => acc ++ b) ByteArray.empty)
  | none =>
    match values.reverse with
    | [] => string ByteArray.empty
    | last :: before => concatPairs before last

/-- The length of a value. -/
def length (v : Value) : Action Value := fun h =>
  match v with
  | .str s => .done h (.int (Int64.ofNat s.size))
  | .table r =>
    match h.metafield v Event.len with
    | .nil => .done h (.int (Int64.ofNat (h.table r).length))
    | f => call1 f [v, v] h
  | _ =>
    match h.metafield v Event.len with
    | .nil => wrongType "get length of" v (some 0) h
    | f => call1 f [v, v] h

/-- Equality; two tables that differ may have a metamethod for it. -/
def equal (a b : Value) : Action Bool := fun h =>
  if rawEqual a b then .done h true
  else
    match a, b with
    | .table _, .table _ =>
      match binaryHandler h Event.eq a b with
      | .nil => .done h false
      | f => (call1 f [a, b] h).andThen fun v h => .done h v.truthy
    | _, _ => .done h false

/-- Fails because two values have no order. -/
def noOrder {α : Type} (a b : Value) : Action α := fun h =>
  let s := h.typeName a
  let t := h.typeName b
  .failed h (.operation
    (if s == t then "attempt to compare two ".toUTF8 ++ s ++ " values".toUTF8
    else "attempt to compare ".toUTF8 ++ s ++ " with ".toUTF8 ++ t))

/-- A comparison that plain values do not settle. -/
def compareBy (event : ByteArray) (a b : Value) : Action Bool := fun h =>
  match binaryHandler h event a b with
  | .nil => noOrder a b h
  | f => (call1 f [a, b] h).andThen fun v h => .done h v.truthy

/-- Whether one value is less than or equal to another that plain values do not settle. Without a
metamethod for it, the other must not be less. -/
def notGreater (a b : Value) : Action Bool := fun h =>
  match binaryHandler h Event.le a b, binaryHandler h Event.lt b a with
  | .nil, .nil => noOrder a b h
  | .nil, f => (call1 f [b, a] h).andThen fun v h => .done h (!v.truthy)
  | f, _ => (call1 f [a, b] h).andThen fun v h => .done h v.truthy

/-- Whether one value is less than another. -/
def less (a b : Value) : Action Bool :=
  match lessThan? a b with
  | some r => pure r
  | none =>
    match a, b with
    | .str s, .str t => pure (Bytes.cmp s t == .lt)
    | _, _ => compareBy Event.lt a b

/-- Whether one value is less than or equal to another. -/
def lessOrEqual (a b : Value) : Action Bool :=
  match lessEqual? a b with
  | some r => pure r
  | none =>
    match a, b with
    | .str s, .str t => pure (Bytes.cmp s t != .gt)
    | _, _ => notGreater a b

/-- A comparison. -/
def compare (op : Comparison) (a b : Value) : Action Bool :=
  match op with
  | .eq => equal a b
  | .lt => less a b
  | .le => lessOrEqual a b

/-- The text of an object: its type and its address. -/
def objectText (h : Heap) (v : Value) : ByteArray :=
  let name :=
    match h.metafield v Event.name with
    | .str s => s
    | _ => v.typeName.toUTF8
  name ++ (": 0x" ++ Bytes.hexNat (h.place v) 12).toUTF8

/-- The text of a value without metamethods. -/
def plainText (h : Heap) (v : Value) : ByteArray :=
  match v with
  | .nil => "nil".toUTF8
  | .bool true => "true".toUTF8
  | .bool false => "false".toUTF8
  | .str s => s
  | .fault r => ((h.faults[r]?).map HostFault.shown).getD ByteArray.empty
  | v => (Numeral.printed? v).getD (objectText h v)

/-- The text of a value. -/
def shown (v : Value) : Action ByteArray := fun h =>
  match h.metafield v Event.tostring with
  | .nil => .done h (plainText h v)
  | f => (call1 f [v] h).andThen fun t h =>
      match bytes? t with
      | some s => .done h s
      | none => .failed h (.located 1 "'__tostring' must return a string".toUTF8)

end Operation

end StoryPack.Script
