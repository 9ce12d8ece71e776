/-
The math library keeps what is fixed.

Its functions give numbers.  Only `max` and `min` compare, and may so call
metamethods; they give one of their arguments.

* `Library.runMath_obeys` — the functions of the math library.
-/
import StoryPack.Proofs.Confinement.Library.Base
import StoryPack.Script.Library.Maths

namespace StoryPack.Script.Library

variable {W : Ward} {n : Nat} {args : List Value}

theorem rounded_obeys (args : List Value) (round : Float → Option Int) :
    (rounded args round).Obeys W n (Oks W) := by
  unfold rounded
  split
  · exact .pure fun _ _ => by simp
  · refine .bind (Argument.number_obeys args 1) fun _ x _ _ => .pure fun _ _ => ?_
    split
    · split <;> simp
    · simp

theorem unary_obeys (args : List Value) (f : Float → Float) :
    (unary args f).Obeys W n (Oks W) :=
  .bind (Argument.number_obeys args 1) fun _ _ _ _ => .pure fun _ _ => by simp

theorem extreme_obeys (hargs : Oks W n args) {replaces : Value → Value → Action Bool}
    (hreplaces : ∀ k v w, v.Ok W k → w.Ok W k → (replaces v w).Obeys W k fun _ _ => True) :
    (extreme args replaces).Obeys W n (Oks W) := by
  refine .bind (Argument.present_obeys hargs 1) fun m first hm hfirst => ?_
  refine .bind (.foldlM (R := fun k v => v.Ok W k) (fun k hk => hfirst.mono hk)
    (fun k best hk hbest v hv => ?_) (fun i j v hij hv => Value.Ok.mono hv hij))
    fun k best _ hbest => .pure fun j hj => by simpa using hbest.mono hj
  have hv := ((hargs.drop 1).mono (Nat.le_trans hm hk)) v hv
  refine .bind (hreplaces k v best hv hbest) fun j less hj _ => ?_
  split
  · exact .pure fun _ hi => hv.mono (Nat.le_trans hj hi)
  · exact .pure fun _ hi => hbest.mono (Nat.le_trans hj hi)

theorem fmod_obeys (args : List Value) : (fmod args).Obeys W n (Oks W) := by
  unfold fmod
  split
  · split
    · exact .badArgument _ _
    · split
      · exact .pure fun _ _ => by simp
      · exact .pure fun _ _ => by simp
  · exact .bind (Argument.number_obeys args 1) fun _ _ _ _ =>
      .bind (Argument.number_obeys args 2) fun _ _ _ _ => .pure fun _ _ => by simp

theorem logarithm_obeys (args : List Value) : (logarithm args).Obeys W n (Oks W) := by
  refine .bind (Argument.number_obeys args 1) fun _ _ _ _ => ?_
  split
  · exact .pure fun _ _ => by simp
  · exact .bind (Argument.number_obeys args 2) fun _ _ _ _ => .pure fun _ _ => by simp

theorem random_obeys (args : List Value) : (random args).Obeys W n (Oks W) := by
  unfold random
  split
  · exact .pure fun _ _ => by simp
  · refine .bind (Argument.integer_obeys args 1) fun _ _ _ _ => ?_
    split
    · exact .pure fun _ _ => by simp
    · exact .bind (Argument.check_obeys _ _ _) fun _ _ _ _ => .pure fun _ _ => by simp
  · exact .bind (Argument.integer_obeys args 1) fun _ _ _ _ =>
      .bind (Argument.integer_obeys args 2) fun _ _ _ _ =>
        .bind (Argument.check_obeys _ _ _) fun _ _ _ _ => .pure fun _ _ => by simp
  · exact .raise _

theorem wholeValue_ok (x : Float) : (wholeValue x).Ok W n := by
  unfold wholeValue
  split <;> trivial

/-- The functions of the math library. -/
theorem runMath_obeys (f : MathFunction) (hargs : Oks W n args) :
    (runMath f args).Obeys W n (Oks W) := by
  cases f with
  | abs =>
    unfold runMath
    dsimp only
    split
    · exact .pure fun _ _ => by simp
    · exact unary_obeys _ _
  | atan =>
    exact .bind (Argument.number_obeys args 1) fun _ _ _ _ =>
      .bind (Argument.numberOr_obeys args 2 _) fun _ _ _ _ => .pure fun _ _ => by simp
  | ceil => exact rounded_obeys _ _
  | floor => exact rounded_obeys _ _
  | fmod => exact fmod_obeys _
  | frexp =>
    exact .bind (Argument.number_obeys args 1) fun _ _ _ _ => .pure fun _ _ => by simp
  | ldexp =>
    exact .bind (Argument.number_obeys args 1) fun _ _ _ _ =>
      .bind (Argument.integer_obeys args 2) fun _ _ _ _ => .pure fun _ _ => by simp
  | log => exact logarithm_obeys _
  | max =>
    exact extreme_obeys hargs fun _ _ _ hv hw => Operation.less_obeys hw hv
  | min =>
    exact extreme_obeys hargs fun _ _ _ hv hw => Operation.less_obeys hv hw
  | modf =>
    unfold runMath
    dsimp only
    split
    · exact .pure fun _ _ => by simp
    · refine .bind (Argument.number_obeys args 1) fun _ _ _ _ => .pure fun _ _ => ?_
      simpa using wholeValue_ok _
  | pow =>
    exact .bind (Argument.number_obeys args 1) fun _ _ _ _ =>
      .bind (Argument.number_obeys args 2) fun _ _ _ _ => .pure fun _ _ => by simp
  | random => exact random_obeys _
  | randomseed =>
    unfold runMath
    dsimp only
    split
    · exact .pure fun _ _ => by simp
    · exact .bind (Argument.number_obeys args 1) fun _ _ _ _ =>
        .bind (Argument.integerOr_obeys args 2 0) fun _ _ _ _ => .pure fun _ _ => by
          simpa using wholeValue_ok _
  | tointeger =>
    refine .bind (Argument.present_obeys hargs 1) fun _ v _ _ => .pure fun _ _ => ?_
    cases Numeral.toInteger? v <;> simp
  | type =>
    refine .bind (Argument.present_obeys hargs 1) fun _ v _ _ => .pure fun _ _ => ?_
    split <;> simp [Value.ofString]
  | ult =>
    exact .bind (Argument.integer_obeys args 1) fun _ _ _ _ =>
      .bind (Argument.integer_obeys args 2) fun _ _ _ _ => .pure fun _ _ => by simp
  | acos | asin | cos | cosh | deg | exp | log10 | rad | sin | sinh | sqrt | tan | tanh =>
    exact unary_obeys _ _

end StoryPack.Script.Library
