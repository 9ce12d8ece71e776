/-
The math library on values whose references are renamed.

Its functions look at numbers and give numbers.  Only `max` and `min` compare,
and may so call metamethods; they give one of their arguments.

* `Library.runMath_renamed` — the functions of the math library.
-/
import StoryPack.Proofs.Renaming.Library.Base
import StoryPack.Script.Library.Maths

namespace StoryPack.Script.Library

variable {σ : Renaming} (args : List Value)

theorem unary_renamed (f : Float → Float) :
    (unary args f).Renamed σ σ.values (unary (σ.values args) f) :=
  .andThen (Argument.number_renamed args 1) fun x => .pure [Value.float (f x)]

theorem value_wholeValue (x : Float) : σ.value (wholeValue x) = wholeValue x := by
  unfold wholeValue
  cases Numeral.floatToInteger? x <;> rfl

/-- A double that is rounded; it stays a double when it is no integer. -/
def roundedFloat (round : Float → Option Int) (x : Float) : Value :=
  match round x with
  | some i =>
    match int64? i with
    | some i => .int i
    | none => .float (floatOfInt i)
  | none => .float x

theorem rounded_renamed (round : Float → Option Int) :
    (rounded args round).Renamed σ σ.values (rounded (σ.values args) round) := by
  have hround : Action.Renamed σ σ.values
      (do pure [roundedFloat round (← Argument.number args 1)])
      (do pure [roundedFloat round (← Argument.number (σ.values args) 1)]) := by
    refine .andThen (Argument.number_renamed args 1) fun x => .pure_of_eq ?_
    unfold roundedFloat
    cases round x with
    | none => rfl
    | some i =>
      dsimp only
      cases int64? i <;> rfl
  unfold rounded
  rw [Argument.get_values]
  cases Argument.get args 1 with
  | int i => exact .pure [Value.int i]
  | _ => exact hround

theorem extreme_renamed {replaces : Value → Value → Action Bool}
    (hreplaces : ∀ v w, (replaces v w).Renamed σ id (replaces (σ.value v) (σ.value w))) :
    (extreme args replaces).Renamed σ σ.values (extreme (σ.values args) replaces) := by
  refine .bind (Argument.present_renamed args 1) fun first => ?_
  rw [σ.drop_values]
  refine .bind (.foldlM (args.drop 1) (fun best v => ?_) first) fun best => .pure [best]
  refine .andThen (hreplaces v best) fun c => ?_
  exact .ite (fun _ => .pure v) fun _ => .pure best

theorem fmod_renamed : (fmod args).Renamed σ σ.values (fmod (σ.values args)) := by
  have hfloat : Action.Renamed σ σ.values
      (do
        let x ← Argument.number args 1
        let y ← Argument.number args 2
        pure [.float (truncatedRemainder x y)])
      (do
        let x ← Argument.number (σ.values args) 1
        let y ← Argument.number (σ.values args) 2
        pure [.float (truncatedRemainder x y)]) :=
    .andThen (Argument.number_renamed args 1) fun x =>
      .andThen (Argument.number_renamed args 2) fun y => .pure [Value.float _]
  unfold fmod
  rw [Argument.get_values, Argument.get_values]
  cases Argument.get args 1 with
  | int a =>
    cases Argument.get args 2 with
    | int b =>
      refine .ite (fun _ => .badArgument _ _) fun _ => ?_
      exact .ite (fun _ => .pure [Value.int 0]) fun _ => .pure [Value.int (a % b)]
    | _ => exact hfloat
  | _ => exact hfloat

theorem logarithm_renamed : (logarithm args).Renamed σ σ.values (logarithm (σ.values args)) := by
  refine .andThen (Argument.number_renamed args 1) fun x => ?_
  rw [Argument.get_values, σ.isNil_value]
  refine .ite (fun _ => .pure [Value.float _]) fun _ => ?_
  exact .andThen (Argument.number_renamed args 2) fun base => .pure [Value.float _]

theorem random_renamed : (random args).Renamed σ σ.values (random (σ.values args)) := by
  unfold random
  rw [σ.length_values]
  split
  · exact .pure [Value.float 0.0]
  · refine .andThen (Argument.integer_renamed args 1) fun up => ?_
    refine .ite (fun _ => .pure [Value.int 0]) fun _ => ?_
    exact .andThen (Argument.check_renamed _ _ _) fun _ => .pure [Value.int 1]
  · refine .andThen (Argument.integer_renamed args 1) fun low => ?_
    refine .andThen (Argument.integer_renamed args 2) fun up => ?_
    exact .andThen (Argument.check_renamed _ _ _) fun _ => .pure [Value.int low]
  · exact .raise _

/-- The functions of the math library. -/
theorem runMath_renamed (f : MathFunction) :
    (runMath f args).Renamed σ σ.values (runMath f (σ.values args)) := by
  have hnumber := Argument.number_renamed (σ := σ) args
  have hinteger := Argument.integer_renamed (σ := σ) args
  cases f with
  | abs =>
    have hunary := unary_renamed (σ := σ) args Float.abs
    unfold runMath
    dsimp only
    rw [Argument.get_values]
    cases Argument.get args 1 with
    | int i => exact .pure [Value.int _]
    | _ => exact hunary
  | atan =>
    exact .andThen (hnumber 1) fun y => .andThen (Argument.numberOr_renamed args 2 1.0) fun x =>
      .pure [Value.float _]
  | ceil | floor => exact rounded_renamed args _
  | fmod => exact fmod_renamed args
  | frexp => exact .andThen (hnumber 1) fun x => .pure [Value.float _, Value.int _]
  | ldexp =>
    exact .andThen (hnumber 1) fun x => .andThen (hinteger 2) fun e => .pure [Value.float _]
  | log => exact logarithm_renamed args
  | max => exact extreme_renamed args fun v best => Operation.less_renamed best v
  | min => exact extreme_renamed args fun v best => Operation.less_renamed v best
  | modf =>
    have hparts : Action.Renamed σ σ.values
        (do
          let x ← Argument.number args 1
          let whole := truncFloat x
          pure [wholeValue whole, .float (if x == whole then 0.0 else x - whole)])
        (do
          let x ← Argument.number (σ.values args) 1
          let whole := truncFloat x
          pure [wholeValue whole, .float (if x == whole then 0.0 else x - whole)]) := by
      refine .andThen (hnumber 1) fun x => .pure_of_eq ?_
      rw [σ.values_cons, value_wholeValue]
      rfl
    unfold runMath
    dsimp only
    rw [Argument.get_values]
    cases Argument.get args 1 with
    | int i => exact .pure [Value.int i, Value.float 0.0]
    | _ => exact hparts
  | pow => exact .andThen (hnumber 1) fun x => .andThen (hnumber 2) fun y => .pure [Value.float _]
  | random => exact random_renamed args
  | randomseed =>
    unfold runMath
    dsimp only
    rw [show (σ.values args).isEmpty = args.isEmpty from List.isEmpty_map]
    refine .ite (fun _ => .pure [Value.int 0, Value.int 0]) fun _ => ?_
    refine .andThen (hnumber 1) fun n => .andThen (Argument.integerOr_renamed args 2 0) fun m => ?_
    refine .pure_of_eq ?_
    rw [σ.values_cons, value_wholeValue]
    rfl
  | tointeger =>
    refine .bind (Argument.present_renamed args 1) fun v => .pure_of_eq ?_
    rw [σ.toInteger?_value]
    cases Numeral.toInteger? v <;> rfl
  | type =>
    refine .bind (Argument.present_renamed args 1) fun v => .pure_of_eq ?_
    cases v <;> rfl
  | ult => exact .andThen (hinteger 1) fun a => .andThen (hinteger 2) fun b => .pure [Value.bool _]
  | acos | asin | cos | cosh | deg | exp | log10 | rad | sin | sinh | sqrt | tan | tanh =>
    exact unary_renamed args _

end StoryPack.Script.Library
