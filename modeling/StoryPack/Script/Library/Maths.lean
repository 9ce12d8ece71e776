/-
The math library.

Functions on numbers.  Where a result is whole and fits, roundings give integers.
The random functions give the least number of their range: nothing that a pack
holds may hang on chance.

* `Library.runMath` — what a math function does with its arguments.
-/
import StoryPack.Script.Library.Argument

namespace StoryPack.Script.Library

open StoryPack.Script.Action

/-- The number pi. -/
def pi : Float := Float.ofBits 0x400921fb54442d18

/-- A whole double as an integer if it fits. -/
def wholeValue (x : Float) : Value :=
  match Numeral.floatToInteger? x with
  | some i => .int i
  | none => .float x

/-- The rounding of an argument by a function on integers' doubles. -/
def rounded (args : List Value) (round : Float → Option Int) : Action (List Value) := do
  match Argument.get args 1 with
  | .int i => pure [.int i]
  | _ => do
    let x ← Argument.number args 1
    pure [match round x with
      | some i =>
        match int64? i with
        | some i => .int i
        | none => .float (floatOfInt i)
      | none => .float x]

/-- A function of one double. -/
def unary (args : List Value) (f : Float → Float) : Action (List Value) := do
  pure [.float (f (← Argument.number args 1))]

/-- The first argument that none of the later ones replaces. -/
def extreme (args : List Value) (replaces : Value → Value → Action Bool) : Action (List Value) := do
  let first ← Argument.present args 1
  let best ← (args.drop 1).foldlM (fun best v => do
    if ← replaces v best then pure v else pure best) first
  pure [best]

/-- The remainder of a division rounded toward zero. -/
def fmod (args : List Value) : Action (List Value) := do
  match Argument.get args 1, Argument.get args 2 with
  | .int a, .int b =>
    if b == 0 then badArgument 2 "zero"
    else if b == -1 then pure [.int 0]
    else pure [.int (a % b)]
  | _, _ => do
    let x ← Argument.number args 1
    let y ← Argument.number args 2
    pure [.float (truncatedRemainder x y)]

/-- A logarithm, natural by default. -/
def logarithm (args : List Value) : Action (List Value) := do
  let x ← Argument.number args 1
  if (Argument.get args 2).isNil then pure [.float (Float.log x)]
  else
    let base ← Argument.number args 2
    pure [.float
      (if base == 2.0 then Float.log2 x
      else if base == 10.0 then Float.log10 x
      else Float.log x / Float.log base)]

/-- A number from a range. -/
def random (args : List Value) : Action (List Value) := do
  match args.length with
  | 0 => pure [.float 0.0]
  | 1 => do
    let up ← Argument.integer args 1
    if up == 0 then pure [.int 0]
    else
      Argument.check (1 ≤ up) 1 "interval is empty"
      pure [.int 1]
  | 2 => do
    let low ← Argument.integer args 1
    let up ← Argument.integer args 2
    Argument.check (low ≤ up) 2 "interval is empty"
    pure [.int low]
  | _ => raise "wrong number of arguments"

/-- A double as a fraction below one and a power of two. -/
def fraction (x : Float) : Float × Int :=
  match Double.of x with
  | .finite d =>
    if d.significand == 0 then (x, 0)
    else
      let k : Int := Nat.log2 d.significand + 1
      (Dyadic.toFloat { d with exponent := -k }, d.exponent + k)
  | _ => (x, 0)

/-- A double times a power of two. -/
def scaled (x : Float) (e : Int) : Float :=
  match Double.of x with
  | .finite d => Dyadic.toFloat { d with exponent := d.exponent + e }
  | _ => x

/-- What a math function does. -/
def runMath (f : MathFunction) (args : List Value) : Action (List Value) :=
  match f with
  | .abs => do
    match Argument.get args 1 with
    | .int i => pure [.int (if i < 0 then 0 - i else i)]
    | _ => unary args Float.abs
  | .acos => unary args Float.acos
  | .asin => unary args Float.asin
  | .atan => do
    let y ← Argument.number args 1
    let x ← Argument.numberOr args 2 1.0
    pure [.float (Float.atan2 y x)]
  | .ceil => rounded args ceilOf?
  | .cos => unary args Float.cos
  | .cosh => unary args Float.cosh
  | .deg => unary args fun x => x * (180.0 / pi)
  | .exp => unary args Float.exp
  | .floor => rounded args floorOf?
  | .fmod => fmod args
  | .frexp => do
    let (m, e) := fraction (← Argument.number args 1)
    pure [.float m, .int (Int64.ofInt e)]
  | .ldexp => do
    let x ← Argument.number args 1
    let e ← Argument.integer args 2
    pure [.float (scaled x e.toInt)]
  | .log => logarithm args
  | .log10 => unary args Float.log10
  | .max => extreme args fun v best => Operation.less best v
  | .min => extreme args fun v best => Operation.less v best
  | .modf => do
    match Argument.get args 1 with
    | .int i => pure [.int i, .float 0.0]
    | _ => do
      let x ← Argument.number args 1
      let whole := truncFloat x
      pure [wholeValue whole, .float (if x == whole then 0.0 else x - whole)]
  | .pow => do
    let x ← Argument.number args 1
    let y ← Argument.number args 2
    pure [.float (Float.pow x y)]
  | .rad => unary args fun x => x * (pi / 180.0)
  | .random => random args
  | .randomseed => do
    if args.isEmpty then pure [.int 0, .int 0]
    else
      let n ← Argument.number args 1
      let m ← Argument.integerOr args 2 0
      pure [wholeValue n, .int m]
  | .sin => unary args Float.sin
  | .sinh => unary args Float.sinh
  | .sqrt => unary args Float.sqrt
  | .tan => unary args Float.tan
  | .tanh => unary args Float.tanh
  | .tointeger => do
    let v ← Argument.present args 1
    pure [((Numeral.toInteger? v).map Value.int).getD .nil]
  | .type => do
    let v ← Argument.present args 1
    pure [match v with
      | .int _ => .ofString "integer"
      | .float _ => .ofString "float"
      | _ => .nil]
  | .ult => do
    let a ← Argument.integer args 1
    let b ← Argument.integer args 2
    pure [.bool (a.toUInt64 < b.toUInt64)]

end StoryPack.Script.Library
