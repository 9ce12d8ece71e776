/-
Decimal and hexadecimal layouts of a chosen precision.

Four layouts of a finite number: a fixed count of places (`fixed`), one digit
before the point and an exponent (`scientific`), the shorter of the two for a
count of significant digits (`general`), and hexadecimal digits with a binary
exponent (`hexadecimal`).  All round the exact value to the nearest, ties to
even.  Signs are left to the caller: the layouts print magnitudes.
-/
import StoryPack.Number.Dyadic
import StoryPack.Bytes

namespace StoryPack.Places

/-- `count` zeros. -/
def zeros (count : Nat) : String := String.ofList (List.replicate count '0')

/-- A number in at least `width` digits. -/
def padded (n width : Nat) : String :=
  let s := toString n
  zeros (width - s.length) ++ s

/-- Inserts the point so that `places` digits follow it; `always` keeps a point at the end. -/
def withPoint (s : String) (places : Nat) (always : Bool) : String :=
  if places == 0 then if always then s ++ "." else s
  else
    let cs := s.toList
    let cut := cs.length - places
    String.ofList (cs.take cut ++ '.' :: cs.drop cut)

/-- Exactly `places` digits after the point. -/
def fixed (d : Dyadic) (places : Nat) (always : Bool) : String :=
  withPoint (padded (d.digitsAt (-(places : Int))) (places + 1)) places always

/-- A decimal exponent with its sign and at least two digits. -/
def exponentText (e : Int) : String :=
  (if e < 0 then "e-" else "e+") ++ padded e.natAbs 2

/-- The `count + 1` leading digits and the exponent of the first of them. -/
def leading (d : Dyadic) (count : Nat) : Nat × Int :=
  let e := d.decimalExponent
  let n := d.digitsAt (e - count)
  if n == Nat.pow 10 (count + 1) then (n / 10, e + 1) else (n, e)

/-- One digit before the point, `places` after it, and an exponent. -/
def scientific (d : Dyadic) (places : Nat) (always : Bool) : String :=
  let (n, e) := leading d places
  withPoint (padded n (places + 1)) places always ++ exponentText e

/-- Drops zeros at the end of the places, and a point that is left bare. -/
def dropZeros (s : String) : String :=
  let cs := s.toList
  if cs.contains '.' then
    let r := cs.reverse.dropWhile (· == '0')
    String.ofList ((match r with | '.' :: rest => rest | r => r).reverse)
  else s

/-- `count` significant digits: positional for exponents from -4 to below `count`, else
scientific; zeros at the end go unless `keep`. -/
def general (d : Dyadic) (count : Nat) (keep : Bool) : String :=
  let p := if count == 0 then 1 else count
  let (_, e) := leading d (p - 1)
  if e < -4 || (p : Int) ≤ e then
    let (n, e) := leading d (p - 1)
    let m := withPoint (padded n p) (p - 1) keep
    (if keep then m else dropZeros m) ++ exponentText e
  else
    let m := fixed d ((p : Int) - 1 - e).toNat keep
    if keep then m else dropZeros m

/-- Drops zero hexadecimal digits at the end. -/
def trimHex : (fuel : Nat) → Nat → Nat → Nat × Nat
  | 0, n, k => (n, k)
  | fuel + 1, n, k => if k > 0 && n % 16 == 0 then trimHex fuel (n / 16) (k - 1) else (n, k)

/-- Hexadecimal digits: one before the point, then as many as needed or `places` of them,
and a binary exponent. -/
def hexadecimal (d : Dyadic) (places : Option Nat) (always : Bool) : String :=
  -- thirteen digits after the point hold the whole significand
  let (lead, rest, e) : Nat × Nat × Int :=
    if d.significand == 0 then (0, 0, 0)
    else if d.significand < 0x10000000000000 then (0, d.significand, -1022)
    else (1, d.significand - 0x10000000000000, d.exponent + 52)
  let (whole, count) : Nat × Nat :=
    match places with
    | none => trimHex 13 (lead * 0x10000000000000 + rest) 13
    | some p =>
      if p < 13 then (roundHalfEven (lead * 0x10000000000000 + rest) (Nat.pow 16 (13 - p)), p)
      else ((lead * 0x10000000000000 + rest) * Nat.pow 16 (p - 13), p)
  let ds := Bytes.hexNat (whole % Nat.pow 16 count) count
  "0x" ++ Bytes.hexNat (whole / Nat.pow 16 count) 1 ++
    (if count == 0 then (if always then "." else "") else "." ++ ds) ++
    (if e < 0 then "p-" else "p+") ++ toString e.natAbs

end StoryPack.Places
