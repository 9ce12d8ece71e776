/-
Arithmetic on numbers.

Integers wrap at 64 bits and doubles follow the usual rules; a mixed pair counts
as doubles.  Quotients and remainders of `//` and `%` round toward minus
infinity.  Bitwise operators take integers and whole doubles.

* `arithmetic` — an operator on two values, when both are numbers;
* `lessThan?`, `lessEqual?` — the exact order of two numbers;
* `rawEqual` — equality without metamethods.
-/
import StoryPack.Script.Numeral

namespace StoryPack.Script

/-- The outcome of an operator on two values. -/
inductive Outcome where
  | value (v : Value)
  /-- The operands are no numbers, or no integers where they have to be. -/
  | unsuited
  | divisionByZero
  | remainderByZero

/-- The quotient of integers, rounded toward minus infinity; the divisor is not zero. -/
def floorDiv (a b : Int64) : Int64 :=
  if b == -1 then 0 - a
  else
    let q := a / b
    if (a % b != 0) && ((a < 0) != (b < 0)) then q - 1 else q

/-- The remainder of integers, with the sign of the divisor, which is not zero. -/
def floorMod (a b : Int64) : Int64 :=
  if b == -1 then 0
  else
    let r := a % b
    if r != 0 && ((r < 0) != (b < 0)) then r + b else r

/-- The remainder of doubles, with the sign of the divisor. -/
def floorModFloat (a b : Float) : Float :=
  let r := truncatedRemainder a b
  if r > 0.0 then if b < 0.0 then r + b else r
  else if r < 0.0 then if b < 0.0 then r else r + b
  else r

/-- A power; squares are products. -/
def power (a b : Float) : Float := if b == 2.0 then a * a else Float.pow a b

/-- Shifts left, or right for a negative amount; zeros come in. -/
def shiftLeft (a b : Int64) : Int64 :=
  if b ≤ -64 || 64 ≤ b then 0
  else if 0 ≤ b then (a.toUInt64 <<< (UInt64.ofNat b.toNatClampNeg)).toInt64
  else (a.toUInt64 >>> (UInt64.ofNat (0 - b).toNatClampNeg)).toInt64

/-- An operator on integers. -/
def integerArith (op : Arith) (a b : Int64) : Outcome :=
  match op with
  | .add => .value (.int (a + b))
  | .sub => .value (.int (a - b))
  | .mul => .value (.int (a * b))
  | .mod => if b == 0 then .remainderByZero else .value (.int (floorMod a b))
  | .idiv => if b == 0 then .divisionByZero else .value (.int (floorDiv a b))
  | .pow => .value (.float (power (floatOfInt64 a) (floatOfInt64 b)))
  | .div => .value (.float (floatOfInt64 a / floatOfInt64 b))
  | .band => .value (.int (a &&& b))
  | .bor => .value (.int (a ||| b))
  | .bxor => .value (.int (a ^^^ b))
  | .shl => .value (.int (shiftLeft a b))
  | .shr => .value (.int (if b == Int64.minValue then 0 else shiftLeft a (0 - b)))
  | .unm => .value (.int (0 - a))
  | .bnot => .value (.int (~~~ a))

/-- An operator on doubles. -/
def floatArith (op : Arith) (a b : Float) : Outcome :=
  match op with
  | .add => .value (.float (a + b))
  | .sub => .value (.float (a - b))
  | .mul => .value (.float (a * b))
  | .mod => .value (.float (floorModFloat a b))
  | .idiv => .value (.float (floorFloat (a / b)))
  | .pow => .value (.float (power a b))
  | .div => .value (.float (a / b))
  | .unm => .value (.float (-a))
  | _ => .unsuited

/-- Whether an operator works on bits. -/
def Arith.isBitwise : Arith → Bool
  | .band | .bor | .bxor | .shl | .shr | .bnot => true
  | _ => false

/-- The integer of a number. -/
def Value.integral? : Value → Option Int64
  | .int i => some i
  | .float x => Numeral.floatToInteger? x
  | _ => none

/-- An operator on two values. -/
def arithmetic (op : Arith) (a b : Value) : Outcome :=
  match a, b with
  | .int i, .int j => integerArith op i j
  | .float x, .float y =>
    if op.isBitwise then
      match a.integral?, b.integral? with
      | some i, some j => integerArith op i j
      | _, _ => .unsuited
    else floatArith op x y
  | .int i, .float y =>
    if op.isBitwise then
      match b.integral? with
      | some j => integerArith op i j
      | none => .unsuited
    else floatArith op (floatOfInt64 i) y
  | .float x, .int j =>
    if op.isBitwise then
      match a.integral? with
      | some i => integerArith op i j
      | none => .unsuited
    else floatArith op x (floatOfInt64 j)
  | _, _ => .unsuited

/-- Whether the first of two numbers is less; `none` when they are not two numbers. -/
def lessThan? (a b : Value) : Option Bool :=
  match a, b with
  | .int i, .int j => some (i < j)
  | .float x, .float y => some (x < y)
  | .int i, .float y => some (compareIntFloat i.toInt y == some .lt)
  | .float x, .int j => some (compareIntFloat j.toInt x == some .gt)
  | _, _ => none

/-- Whether the first of two numbers is less or equal. -/
def lessEqual? (a b : Value) : Option Bool :=
  match a, b with
  | .int i, .int j => some (i ≤ j)
  | .float x, .float y => some (x ≤ y)
  | .int i, .float y =>
    some (compareIntFloat i.toInt y == some .lt || compareIntFloat i.toInt y == some .eq)
  | .float x, .int j =>
    some (compareIntFloat j.toInt x == some .gt || compareIntFloat j.toInt x == some .eq)
  | _, _ => none

/-- Equality without metamethods: numbers by value, strings by content, all else by identity. -/
def rawEqual (a b : Value) : Bool :=
  match a, b with
  | .nil, .nil => true
  | .bool p, .bool q => p == q
  | .int i, .int j => i == j
  | .float x, .float y => x == y
  | .int i, .float y => compareIntFloat i.toInt y == some .eq
  | .float x, .int j => compareIntFloat j.toInt x == some .eq
  | .str s, .str t => s == t
  | .table r, .table s => r == s
  | .function f, .function g => f == g
  | .fault r, .fault s => r == s
  | _, _ => false

end StoryPack.Script
