/-
Integers and doubles.

Both kinds of number denote exact values, and this file compares and converts
them by those values, in integer arithmetic.

* `integerOf?` — the integer that a double denotes, if it denotes one;
* `floorOf?`, `ceilOf?` — the integers next to a finite double;
* `floatOfInt` — the double nearest to an integer, ties to even;
* `clampInt64` — the 64-bit integer nearest to an integer;
* `compareIntFloat` — the order of an integer and a double that is a number;
* `truncatedRemainder` — the exact remainder of a division rounded toward zero.
-/
import StoryPack.Number.Dyadic

namespace StoryPack

namespace Dyadic

/-- The value with its sign, as a quotient of an integer and a positive natural. -/
def signedFraction (d : Dyadic) : Int × Nat :=
  let (num, den) := d.fraction
  (if d.negative then -(num : Int) else (num : Int), den)

/-- The largest integer that is not above the value. -/
def floor (d : Dyadic) : Int :=
  let (num, den) := d.signedFraction
  Int.fdiv num den

/-- The smallest integer that is not below the value. -/
def ceil (d : Dyadic) : Int :=
  let (num, den) := d.signedFraction
  Int.neg (Int.fdiv (-num) den)

/-- The integer that the value is, if it is one. -/
def toInt? (d : Dyadic) : Option Int :=
  let (num, den) := d.signedFraction
  if num % (den : Int) == 0 then some (num / (den : Int)) else none

/-- The order of an integer and a value. -/
def compareInt (i : Int) (d : Dyadic) : Ordering :=
  let (num, den) := d.signedFraction
  compare (i * (den : Int)) num

end Dyadic

/-- The integer that a double denotes. -/
def integerOf? (x : Float) : Option Int :=
  match Double.of x with
  | .finite d => d.toInt?
  | _ => none

/-- The largest integer not above a finite double. -/
def floorOf? (x : Float) : Option Int :=
  match Double.of x with
  | .finite d => some d.floor
  | _ => none

/-- The smallest integer not below a finite double. -/
def ceilOf? (x : Float) : Option Int :=
  match Double.of x with
  | .finite d => some d.ceil
  | _ => none

/-- The double nearest to an integer, ties to even. -/
def floatOfInt (i : Int) : Float := Dyadic.toFloat ⟨i < 0, i.natAbs, 0⟩

/-- The double nearest to a 64-bit integer. -/
def floatOfInt64 (i : Int64) : Float := floatOfInt i.toInt

/-- The least 64-bit integer. -/
def minInt : Int := -0x8000000000000000

/-- The greatest 64-bit integer. -/
def maxInt : Int := 0x7fffffffffffffff

/-- Whether an integer has 64 bits. -/
def isInt64 (i : Int) : Bool := minInt ≤ i && i ≤ maxInt

/-- The 64-bit integer of that value, if there is one. -/
def int64? (i : Int) : Option Int64 := if isInt64 i then some (Int64.ofInt i) else none

/-- The 64-bit integer nearest to an integer. -/
def clampInt64 (i : Int) : Int64 :=
  if i < minInt then Int64.ofInt minInt
  else if maxInt < i then Int64.ofInt maxInt
  else Int64.ofInt i

/-- The order of an integer and a double; `none` when the double is no number. -/
def compareIntFloat (i : Int) (x : Float) : Option Ordering :=
  match Double.of x with
  | .nan => none
  | .infinite negative => some (if negative then .gt else .lt)
  | .finite d => some (Dyadic.compareInt i d)

/-- `x - y · n` for the quotient's integer part `n`, exactly; it has the sign of `x`. No number when
`x` is infinite or `y` is zero; `x` itself when `y` is infinite. -/
def truncatedRemainder (x y : Float) : Float :=
  match Double.of x, Double.of y with
  | .finite a, .finite b =>
    if b.significand == 0 then 0.0 / 0.0
    else
      -- both in units of the smaller exponent
      let e := min a.exponent b.exponent
      let m := a.significand * Nat.pow 2 (a.exponent - e).toNat
      let n := b.significand * Nat.pow 2 (b.exponent - e).toNat
      Dyadic.toFloat ⟨a.negative, m % n, e⟩
  | .finite _, .infinite _ => x
  | _, _ => 0.0 / 0.0

/-- The largest whole double not above `x`; `x` itself when it is not finite. -/
def floorFloat (x : Float) : Float :=
  match Double.of x with
  | .finite d =>
    if 0 ≤ d.exponent || d.significand == 0 then x
    else
      let i := d.floor
      if i == 0 then (if d.negative then -0.0 else 0.0) else floatOfInt i
  | _ => x

/-- The whole double next to `x` toward zero; `x` itself when it is not finite. -/
def truncFloat (x : Float) : Float :=
  match Double.of x with
  | .finite d =>
    if 0 ≤ d.exponent then x
    else Dyadic.toFloat ⟨d.negative, d.significand / Nat.pow 2 (-d.exponent).toNat, 0⟩
  | _ => x

end StoryPack
