/-
Floating-point numbers as exact fractions.

A finite double is `(-1)^s · m · 2^q` with natural `m`.  `Dyadic.ofFloat?` reads
these off the bits, and every printer of this library starts from them, so that
all rounding is done in exact natural arithmetic.

* `Dyadic.fraction` — the magnitude as a quotient of two naturals;
* `Dyadic.decimalExponent` — the exponent of the leading decimal digit;
* `roundHalfEven` — the nearest natural to a quotient, ties to the even one;
* `Dyadic.toFloat` — the double nearest to an exact value.
-/
namespace StoryPack

/-- The number `(-1)^negative · significand · 2^exponent`. -/
structure Dyadic where
  negative : Bool
  significand : Nat
  exponent : Int
deriving Repr, DecidableEq

/-- What a double is: no number, an infinity, or an exact value. -/
inductive Double where
  | nan
  | infinite (negative : Bool)
  | finite (value : Dyadic)
deriving Repr, DecidableEq

/-- Reads sign, exponent and significand off the bits of a double. -/
def Double.ofBits (bits : UInt64) : Double :=
  let n : Nat := bits.toNat
  let negative := n / 0x8000000000000000 == 1
  let e : Nat := n / 0x10000000000000 % 2048
  let m : Nat := n % 0x10000000000000
  if e == 2047 then if m == 0 then .infinite negative else .nan
  else if e == 0 then .finite ⟨negative, m, -1074⟩
  else .finite ⟨negative, m + 0x10000000000000, (e : Int) - 1075⟩

/-- What the double `x` is. -/
def Double.of (x : Float) : Double := Double.ofBits x.toBits

/-- The nearest natural to `num / den`; of two equally near the even one. -/
def roundHalfEven (num den : Nat) : Nat :=
  let q := num / den
  let r := num % den
  if 2 * r < den then q else if den < 2 * r then q + 1 else if q % 2 == 0 then q else q + 1

namespace Dyadic

/-- The magnitude as numerator and denominator. -/
def fraction (d : Dyadic) : Nat × Nat :=
  if 0 ≤ d.exponent then (d.significand * Nat.pow 2 d.exponent.toNat, 1)
  else (d.significand, Nat.pow 2 (-d.exponent).toNat)

/-- Whether `num / den` is at least `10^k`. -/
def atLeastPower (num den : Nat) (k : Int) : Bool :=
  if 0 ≤ k then den * Nat.pow 10 k.toNat ≤ num else den ≤ num * Nat.pow 10 (-k).toNat

/-- The largest `k` with `10^k ≤ num / den`, for a positive quotient. -/
def leadingExponent (num den : Nat) : Int :=
  let low := Int.fdiv (((Nat.log2 num : Int) - (Nat.log2 den : Int) - 1) * 30103) 100000 - 1
  if atLeastPower num den (low + 3) then low + 3
  else if atLeastPower num den (low + 2) then low + 2
  else if atLeastPower num den (low + 1) then low + 1
  else low

/-- The exponent of the leading decimal digit; `0` for zero. -/
def decimalExponent (d : Dyadic) : Int :=
  if d.significand == 0 then 0 else leadingExponent d.fraction.1 d.fraction.2

/-- The magnitude in units of `10^k`, as numerator and denominator. -/
def scaled (d : Dyadic) (k : Int) : Nat × Nat :=
  let (num, den) := d.fraction
  if 0 ≤ k then (num, den * Nat.pow 10 k.toNat) else (num * Nat.pow 10 (-k).toNat, den)

/-- The magnitude in units of `10^k`, rounded to the nearest natural, ties to even. -/
def digitsAt (d : Dyadic) (k : Int) : Nat :=
  let (num, den) := d.scaled k
  roundHalfEven num den

/-- The bits of the double nearest to `num / den · 2^q`, ties to even, for a positive quotient. -/
def bitsOfQuotient (num den : Nat) (q : Int) : UInt64 :=
  -- the exponent of the leading binary digit of num / den
  let lead : Int := (Nat.log2 num : Int) - (Nat.log2 den : Int)
  let ge (k : Int) : Bool :=
    if 0 ≤ k then den * Nat.pow 2 k.toNat ≤ num else den ≤ num * Nat.pow 2 (-k).toNat
  let lead := if ge lead then lead else lead - 1
  -- the unit of the last place, not below the least positive double
  let ulp : Int := max (lead + q - 52) (-1074)
  let shift := ulp - q
  let m := if 0 ≤ shift then roundHalfEven num (den * Nat.pow 2 shift.toNat)
    else roundHalfEven (num * Nat.pow 2 (-shift).toNat) den
  let (m, ulp) := if m == 0x20000000000000 then (0x10000000000000, ulp + 1) else (m, ulp)
  if ulp > 971 then 0x7ff0000000000000
  else if m < 0x10000000000000 then UInt64.ofNat m
  else UInt64.ofNat ((ulp + 1075).toNat * 0x10000000000000 + (m - 0x10000000000000))

/-- The double nearest to an exact value, ties to even. -/
def toFloat (d : Dyadic) : Float :=
  let bits : UInt64 :=
    if d.significand == 0 then 0
    else if (Nat.log2 d.significand : Int) + d.exponent > 1100 then 0x7ff0000000000000
    else if (Nat.log2 d.significand : Int) + d.exponent < -1100 then 0
    else bitsOfQuotient d.significand 1 d.exponent
  Float.ofBits (if d.negative then bits ||| 0x8000000000000000 else bits)

end Dyadic

/-- The double nearest to `digits · 10^e`, ties to even; far exponents give infinity or zero. -/
def floatOfDecimal (digits : Nat) (e : Int) : Float :=
  if digits == 0 then 0.0
  else
    let lead : Int := (Nat.log2 digits : Int) * 30103 / 100000 + e
    if lead > 400 then Float.ofBits 0x7ff0000000000000
    else if lead < -400 then 0.0
    else if 0 ≤ e then Float.ofBits (Dyadic.bitsOfQuotient (digits * Nat.pow 10 e.toNat) 1 0)
    else Float.ofBits (Dyadic.bitsOfQuotient digits (Nat.pow 10 (-e).toNat) 0)

end StoryPack
