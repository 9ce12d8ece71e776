/-
The shortest decimal that reads back.

A decimal reads back as a double when it lies in the interval of reals that
round to it; the ends belong to the interval exactly when the significand is
even.  For 1, 2, …, 17 digits `Shortest.digits` tests the two neighbours of the
value on the decimal grid of that many digits: the first grid with a hit wins,
and of two hits the nearer one.

`Shortest.text` lays the digits out: positional notation for decimal exponents
from -5 to 15 with at least one digit after the point, and otherwise an
exponent that carries its sign.
-/
import StoryPack.Number.Dyadic

namespace StoryPack.Shortest

/-- The interval of reals around a positive double that round to it: the two ends and the value
in one unit, and whether the ends belong to it. -/
structure Interval where
  low : Nat
  value : Nat
  high : Nat
  den : Nat
  closed : Bool

/-- The rounding interval of a positive double. -/
def interval (d : Dyadic) : Interval :=
  let m := d.significand
  -- in quarters of the unit 2^exponent
  let below := if m == 0x10000000000000 && d.exponent > -1074 then 4 * m - 1 else 4 * m - 2
  let above := 4 * m + 2
  let closed := m % 2 == 0
  if 0 ≤ d.exponent then
    let k := Nat.pow 2 d.exponent.toNat
    ⟨below * k, 4 * m * k, above * k, 4, closed⟩
  else ⟨below, 4 * m, above, 4 * Nat.pow 2 (-d.exponent).toNat, closed⟩

/-- Whether `n · num / den` lies in the interval. -/
def Interval.holds (i : Interval) (n num den : Nat) : Bool :=
  -- compare n · num / den with low / i.den and high / i.den
  let v := n * num * i.den
  if i.closed then i.low * den ≤ v && v ≤ i.high * den
  else i.low * den < v && v < i.high * den

/-- The distance of `n · num / den` to the value, in a common unit. -/
def Interval.distance (i : Interval) (n num den : Nat) : Nat :=
  let v := n * num * i.den
  let w := i.value * den
  (v - w) + (w - v)

/-- The decimal on the grid `10^k` that reads back and is nearest, if there is one. -/
def onGrid (i : Interval) (k : Int) : Option Nat :=
  let (num, den) := if 0 ≤ k then (Nat.pow 10 k.toNat, 1) else (1, Nat.pow 10 (-k).toNat)
  let down := (i.value * den) / (i.den * num)
  let up := down + 1
  match i.holds down num den, i.holds up num den with
  | true, true =>
    if i.distance up num den < i.distance down num den then some up
    else if i.distance down num den < i.distance up num den then some down
    else if down % 2 == 0 then some down else some up
  | true, false => some down
  | false, true => some up
  | false, false => none

/-- Tries the grids from `10^k` down, `fuel` of them. -/
def search (i : Interval) : (fuel : Nat) → (k : Int) → Nat × Int
  | 0, k => ((i.value * Nat.pow 10 (-k).toNat) / i.den, k)
  | fuel + 1, k =>
    match onGrid i k with
    | some 0 => search i fuel (k - 1)
    | some n => (n, k)
    | none => search i fuel (k - 1)

/-- Drops zeros from the end, counting them into the exponent. -/
def trim : (fuel : Nat) → Nat → Int → Nat × Int
  | 0, n, k => (n, k)
  | fuel + 1, n, k => if n % 10 == 0 && n != 0 then trim fuel (n / 10) (k + 1) else (n, k)

/-- The shortest `n`, `k` such that `n · 10^k` reads back as the positive value `d`. -/
def digits (d : Dyadic) : Nat × Int :=
  let (n, k) := search (interval d) 18 d.decimalExponent
  trim 20 n k

/-- The digits of the shortest decimal, laid out. -/
def textOfDigits (n : Nat) (k : Int) : String :=
  let ds := toString n
  let len : Int := ds.length
  let lead := len + k - 1
  if lead < -5 || lead > 15 then
    let mantissa := if ds.length == 1 then ds
      else String.ofList (ds.toList.take 1 ++ '.' :: ds.toList.drop 1)
    mantissa ++ (if lead < 0 then "e-" else "e+") ++ toString lead.natAbs
  else if 0 ≤ k then ds ++ String.ofList (List.replicate k.toNat '0') ++ ".0"
  else if lead < 0 then
    "0." ++ String.ofList (List.replicate (-lead - 1).toNat '0') ++ ds
  else
    let cut := (len + k).toNat
    String.ofList (ds.toList.take cut ++ '.' :: ds.toList.drop cut)

/-- The shortest text of a finite number. -/
def text (d : Dyadic) : String :=
  let sign := if d.negative then "-" else ""
  if d.significand == 0 then sign ++ "0.0"
  else
    let (n, k) := digits d
    sign ++ textOfDigits n k

end StoryPack.Shortest
