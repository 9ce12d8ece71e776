/-
Renamings of references.

Objects are told apart by their references, and by nothing else that an operator
looks at.  So an operator on plain values gives the same when all references are
renamed, as long as none of them fall together.

* `Renaming` — maps of the references of each arena into each other;
* `Renaming.value`, `Renaming.key`, … — what becomes of values, keys, errors;
* `Renaming.rawEqual_value`, `Renaming.toKey?_value`, … — what stays as it is.
-/
import StoryPack.Script.Operation
import Mathlib.Data.Option.Basic

namespace StoryPack.Script

/-- Maps of the references of each arena, none of which fall together. The cell that stands for no
variable stays where it is. -/
structure Renaming where
  table : Nat → Nat
  closure : Nat → Nat
  cell : Nat → Nat
  search : Nat → Nat
  fault : Nat → Nat
  table_injective : Function.Injective table
  closure_injective : Function.Injective closure
  cell_injective : Function.Injective cell
  search_injective : Function.Injective search
  fault_injective : Function.Injective fault
  cell_zero : cell 0 = 0

namespace Renaming

variable (σ : Renaming)

/-- A function with its reference renamed. -/
def function : Script.Function → Script.Function
  | .closure r => .closure (σ.closure r)
  | .builtin f => .builtin f
  | .matcher r => .matcher (σ.search r)

/-- A value with its reference renamed. -/
def value : Value → Value
  | .nil => .nil
  | .bool b => .bool b
  | .int i => .int i
  | .float x => .float x
  | .str s => .str s
  | .table r => .table (σ.table r)
  | .function f => .function (σ.function f)
  | .fault r => .fault (σ.fault r)

/-- A key with its reference renamed. -/
def key : Key → Key
  | .bool b => .bool b
  | .int i => .int i
  | .float bits => .float bits
  | .str s => .str s
  | .table r => .table (σ.table r)
  | .function f => .function (σ.function f)
  | .fault r => .fault (σ.fault r)

/-- Values with their references renamed. -/
def values (vs : List Value) : List Value := vs.map σ.value

/-- An error with the references in it renamed. -/
def raised : Raised → Raised
  | .value v => .value (σ.value v)
  | .located level m => .located level m
  | .argument n m => .argument n m
  | .operation m => .operation m
  | .operand verb t which => .operand verb t which
  | .notIntegral which => .notIntegral which
  | .host f => .host f
  | .memory => .memory

@[simp] theorem function_closure (r : Nat) :
    σ.function (.closure r) = .closure (σ.closure r) := rfl
@[simp] theorem function_builtin (f : Builtin) : σ.function (.builtin f) = .builtin f := rfl
@[simp] theorem function_matcher (r : Nat) : σ.function (.matcher r) = .matcher (σ.search r) := rfl

@[simp] theorem value_nil : σ.value .nil = .nil := rfl
@[simp] theorem value_bool (b : Bool) : σ.value (.bool b) = .bool b := rfl
@[simp] theorem value_int (i : Int64) : σ.value (.int i) = .int i := rfl
@[simp] theorem value_float (x : Float) : σ.value (.float x) = .float x := rfl
@[simp] theorem value_str (s : ByteArray) : σ.value (.str s) = .str s := rfl
@[simp] theorem value_table (r : Nat) : σ.value (.table r) = .table (σ.table r) := rfl
@[simp] theorem value_function (f : Script.Function) :
    σ.value (.function f) = .function (σ.function f) := rfl
@[simp] theorem value_fault (r : Nat) : σ.value (.fault r) = .fault (σ.fault r) := rfl
@[simp] theorem value_builtin (f : Builtin) : σ.value (.builtin f) = .builtin f := rfl
@[simp] theorem value_ofString (s : String) : σ.value (.ofString s) = .ofString s := rfl

@[simp] theorem key_int (i : Int64) : σ.key (.int i) = .int i := rfl
@[simp] theorem key_str (s : ByteArray) : σ.key (.str s) = .str s := rfl

theorem function_injective : Function.Injective σ.function := by
  intro f g h
  cases f <;> cases g <;> simp only [function, Script.Function.closure.injEq,
    Script.Function.builtin.injEq, Script.Function.matcher.injEq, reduceCtorEq] at h ⊢
  · exact σ.closure_injective h
  · exact h
  · exact σ.search_injective h

theorem key_injective : Function.Injective σ.key := by
  intro k l h
  cases k <;> cases l <;> simp only [key, Key.bool.injEq, Key.int.injEq, Key.float.injEq,
    Key.str.injEq, Key.table.injEq, Key.function.injEq, Key.fault.injEq, reduceCtorEq] at h ⊢
  case table.table => exact σ.table_injective h
  case function.function => exact σ.function_injective h
  case fault.fault => exact σ.fault_injective h
  all_goals exact h

/-! ### Lists -/

@[simp] theorem values_nil : σ.values [] = [] := rfl

@[simp] theorem values_cons (v : Value) (vs : List Value) :
    σ.values (v :: vs) = σ.value v :: σ.values vs := rfl

@[simp] theorem values_append (vs ws : List Value) :
    σ.values (vs ++ ws) = σ.values vs ++ σ.values ws := List.map_append

@[simp] theorem length_values (vs : List Value) : (σ.values vs).length = vs.length :=
  List.length_map _

@[simp] theorem getD_values (vs : List Value) (i : Nat) :
    (σ.values vs).getD i .nil = σ.value (vs.getD i .nil) := by
  rw [values, List.getD_eq_getElem?_getD, List.getD_eq_getElem?_getD, List.getElem?_map]
  cases vs[i]? <;> rfl

@[simp] theorem headD_values (vs : List Value) :
    (σ.values vs).headD .nil = σ.value (vs.headD .nil) := by
  cases vs <;> rfl

@[simp] theorem drop_values (vs : List Value) (n : Nat) :
    (σ.values vs).drop n = σ.values (vs.drop n) := List.map_drop.symm

@[simp] theorem take_values (vs : List Value) (n : Nat) :
    (σ.values vs).take n = σ.values (vs.take n) := List.map_take.symm

@[simp] theorem reverse_values (vs : List Value) :
    (σ.values vs).reverse = σ.values vs.reverse := List.map_reverse.symm

/-! ### Types -/

variable (v w : Value)

@[simp] theorem kind_value : (σ.value v).kind = v.kind := by cases v <;> rfl

@[simp] theorem typeName_value : (σ.value v).typeName = v.typeName := by
  rw [Value.typeName, kind_value, Value.typeName]

@[simp] theorem hostTypeName_value : (σ.value v).hostTypeName = v.hostTypeName := by
  cases v <;> rfl

@[simp] theorem truthy_value : (σ.value v).truthy = v.truthy := by cases v <;> rfl

@[simp] theorem isNil_value : (σ.value v).isNil = v.isNil := by cases v <;> rfl

@[simp] theorem value_constant (c : Constant) : σ.value c.value = c.value := by cases c <;> rfl

@[simp] theorem value_eq_nil_iff : σ.value v = .nil ↔ v = .nil := by cases v <;> simp

/-! ### Numbers and strings -/

@[simp] theorem ofValue?_value : Numeral.ofValue? (σ.value v) = Numeral.ofValue? v := by
  cases v <;> rfl

@[simp] theorem toInteger?_value : Numeral.toInteger? (σ.value v) = Numeral.toInteger? v := by
  rw [Numeral.toInteger?, ofValue?_value, Numeral.toInteger?]

@[simp] theorem toFloat?_value : Numeral.toFloat? (σ.value v) = Numeral.toFloat? v := by
  rw [Numeral.toFloat?, ofValue?_value, Numeral.toFloat?]

@[simp] theorem printed?_value : Numeral.printed? (σ.value v) = Numeral.printed? v := by
  cases v <;> rfl

@[simp] theorem bytes?_value : Operation.bytes? (σ.value v) = Operation.bytes? v := by
  cases v <;> rfl

@[simp] theorem integral?_value : (σ.value v).integral? = v.integral? := by cases v <;> rfl

@[simp] theorem arithmetic_value (op : Arith) :
    arithmetic op (σ.value v) (σ.value w) = arithmetic op v w := by
  cases v <;> cases w <;> rfl

@[simp] theorem lessThan?_value : lessThan? (σ.value v) (σ.value w) = lessThan? v w := by
  cases v <;> cases w <;> rfl

@[simp] theorem lessEqual?_value : lessEqual? (σ.value v) (σ.value w) = lessEqual? v w := by
  cases v <;> cases w <;> rfl

@[simp] theorem rawEqual_value : rawEqual (σ.value v) (σ.value w) = rawEqual v w := by
  cases v <;> cases w <;> try rfl
  case table.table r s => simp [rawEqual, σ.table_injective.eq_iff]
  case function.function f g => simp [rawEqual, σ.function_injective.eq_iff]
  case fault.fault r s => simp [rawEqual, σ.fault_injective.eq_iff]

/-- A number holds no reference. -/
theorem value_of_ofValue? {n : Value} (h : Numeral.ofValue? v = some n) : σ.value n = n := by
  cases v with
  | int i =>
    cases h
    rfl
  | float x =>
    cases h
    rfl
  | str s =>
    simp only [Numeral.ofValue?, Numeral.number?] at h
    split at h
    · cases h
      rfl
    · obtain ⟨x, -, rfl⟩ := Option.map_eq_some_iff.mp h
      rfl
  | _ => cases h

theorem value_of_integerArith {op : Arith} {i j : Int64} {n : Value}
    (h : integerArith op i j = .value n) : σ.value n = n := by
  cases op <;> simp only [integerArith] at h
  case mod | idiv =>
    split at h
    · cases h
    · cases h
      rfl
  all_goals
    cases h
    rfl

theorem value_of_floatArith {op : Arith} {x y : Float} {n : Value}
    (h : floatArith op x y = .value n) : σ.value n = n := by
  cases op <;> cases h <;> rfl

/-- What an operator on numbers gives holds no reference. -/
theorem value_of_arithmetic {op : Arith} {n : Value} (h : arithmetic op v w = .value n) :
    σ.value n = n := by
  unfold arithmetic at h
  split at h
  · exact σ.value_of_integerArith h
  · split at h
    · split at h
      · exact σ.value_of_integerArith h
      · cases h
    · exact σ.value_of_floatArith h
  · split at h
    · split at h
      · exact σ.value_of_integerArith h
      · cases h
    · exact σ.value_of_floatArith h
  · split at h
    · split at h
      · exact σ.value_of_integerArith h
      · cases h
    · exact σ.value_of_floatArith h
  · cases h

/-! ### Keys -/

@[simp] theorem toKey?_value : (σ.value v).toKey? = v.toKey?.map σ.key := by
  cases v with
  | float x =>
    simp only [value, Value.toKey?]
    split
    · rfl
    · rfl
    · split <;> rfl
  | _ => rfl

@[simp] theorem value_toValue (k : Key) : σ.value k.toValue = (σ.key k).toValue := by
  cases k <;> rfl

end Renaming

end StoryPack.Script
