/-
The integer view of a value.

Integers and doubles denote rational numbers.  A value has an integer view when
what it denotes is an integer, of whatever size, and the view is the 64-bit integer
nearest to it.  Within the range of these it is the number itself and is equal to
the value; a number beyond the range gets the limit on its side, so that a view at
a limit says only that the number does not lie within.

* `Value.toInteger?_eq_some_iff` — the view is the nearest 64-bit integer;
* `Value.exists_toInteger?_of_isInt64` — within the range it is the number;
* `Value.toRat?_of_toInteger?` — so is every view between the limits;
* `Value.toInteger?_eq_maxInt_iff`, `Value.toInteger?_eq_minInt_iff` — a view at a limit;
* `Value.equal_toInteger?_iff` — which views are equal to their value.
-/
import StoryPack.Proofs.Number.Whole
import StoryPack.Proofs.Scope.Equality

namespace StoryPack

theorem toInt_clampInt64 (n : Int) : (clampInt64 n).toInt = max minInt (min n maxInt) := by
  have hofInt (i : Int) (hlow : minInt ≤ i) (hhigh : i ≤ maxInt) : (Int64.ofInt i).toInt = i := by
    refine Int64.toInt_ofInt_of_le ?_ ?_
    · exact hlow
    · exact Int.lt_add_one_of_le hhigh
  have hlimits : minInt ≤ maxInt := by decide
  unfold clampInt64
  split
  case isTrue hlow =>
    rw [hofInt _ (le_refl _) hlimits]
    omega
  case isFalse hlow =>
    split
    case isTrue hhigh =>
      rw [hofInt _ hlimits (le_refl _)]
      omega
    case isFalse hhigh =>
      rw [hofInt n (by omega) (by omega)]
      omega

theorem isInt64_iff {n : Int} : isInt64 n = true ↔ minInt ≤ n ∧ n ≤ maxInt := by
  rw [isInt64, Bool.and_eq_true, decide_eq_true_iff, decide_eq_true_iff]

namespace Scope.Value

/-- The rational number that a value denotes. -/
def toRat? : Value → Option ℚ
  | .integer i => some i.toInt
  | .number x => Double.toRat? x
  | _ => none

/-- The integer view is the 64-bit integer nearest to the integer that the value denotes. -/
theorem toInteger?_eq_some_iff {v : Value} {i : Int64} :
    v.toInteger? = some i ↔ ∃ n : Int, v.toRat? = some (n : ℚ) ∧ clampInt64 n = i := by
  cases v with
  | integer j =>
    have hclamp : clampInt64 j.toInt = j := by
      have hlow : minInt ≤ j.toInt := j.minValue_le_toInt
      have hhigh : j.toInt ≤ maxInt := j.toInt_le
      rw [← Int64.toInt_inj, toInt_clampInt64]
      omega
    constructor
    · intro h
      injection h with h
      exact ⟨j.toInt, rfl, hclamp.trans h⟩
    · rintro ⟨n, hn, rfl⟩
      have hn : j.toInt = n := by exact_mod_cast Option.some_inj.mp hn
      rw [← hn, hclamp]
      rfl
  | number x =>
    show (integerOf? x).map clampInt64 = some i ↔ _
    simp only [Option.map_eq_some_iff, integerOf?_eq_some_iff]
    rfl
  | _ => exact iff_of_false nofun fun h => nomatch h.choose_spec.1

/-- A value that denotes an integer is equal to it as far as the integer has 64 bits. -/
theorem equal_integer {v : Value} {i : Int64} (h : v.toRat? = some (i.toInt : ℚ)) :
    v.equal (.integer i) = true := by
  cases v with
  | integer j =>
    have h : j.toInt = i.toInt := by exact_mod_cast Option.some_inj.mp h
    exact beq_iff_eq.mpr (Int64.toInt_inj.mp h)
  | number x => exact floatOfInt_beq (integerOf?_eq_some_iff.mpr h)
  | _ => cases h

/-- What denotes an integer within the range has it as its view, and is equal to it. -/
theorem exists_toInteger?_of_isInt64 {v : Value} {n : Int} (h : v.toRat? = some (n : ℚ))
    (hn : isInt64 n = true) :
    ∃ i, v.toInteger? = some i ∧ i.toInt = n ∧ v.equal (.integer i) = true := by
  rw [isInt64_iff] at hn
  have hvalue : (clampInt64 n).toInt = n := by
    rw [toInt_clampInt64]
    omega
  refine ⟨clampInt64 n, toInteger?_eq_some_iff.mpr ⟨n, h, rfl⟩, hvalue, equal_integer ?_⟩
  rwa [hvalue]

/-- A view between the limits is the number that the value denotes, and equal to the value. -/
theorem toRat?_of_toInteger? {v : Value} {i : Int64} (h : v.toInteger? = some i)
    (hlow : minInt < i.toInt) (hhigh : i.toInt < maxInt) :
    v.toRat? = some (i.toInt : ℚ) ∧ v.equal (.integer i) = true := by
  obtain ⟨n, hn, rfl⟩ := toInteger?_eq_some_iff.mp h
  have hvalue : (clampInt64 n).toInt = n := by
    rw [toInt_clampInt64] at hlow hhigh ⊢
    omega
  rw [← hvalue] at hn
  exact ⟨hn, equal_integer hn⟩

/-- The greatest view stands for every integer that is not below it. -/
theorem toInteger?_eq_maxInt_iff {v : Value} :
    v.toInteger? = some (Int64.ofInt maxInt) ↔ ∃ n : Int, v.toRat? = some (n : ℚ) ∧ maxInt ≤ n := by
  have hmax : (Int64.ofInt maxInt).toInt = maxInt := by decide
  have hlimits : minInt < maxInt := by decide
  rw [toInteger?_eq_some_iff]
  refine exists_congr fun n => and_congr_right fun _ => ?_
  rw [← Int64.toInt_inj, toInt_clampInt64, hmax]
  omega

/-- The least view stands for every integer that is not above it. -/
theorem toInteger?_eq_minInt_iff {v : Value} :
    v.toInteger? = some (Int64.ofInt minInt) ↔ ∃ n : Int, v.toRat? = some (n : ℚ) ∧ n ≤ minInt := by
  have hmin : (Int64.ofInt minInt).toInt = minInt := by decide
  have hlimits : minInt < maxInt := by decide
  rw [toInteger?_eq_some_iff]
  refine exists_congr fun n => and_congr_right fun _ => ?_
  rw [← Int64.toInt_inj, toInt_clampInt64, hmin]
  omega

/-- The double nearest to the greatest 64-bit integer is the one after it. -/
theorem floatOfInt_maxInt : (floatOfInt maxInt == floatOfInt (maxInt + 1)) = true := by
  decide +kernel

/-- A whole double and its view are equal when the double is within the range, or next after it. -/
theorem floatOfInt_clampInt64_beq_iff {x : Float} {n : Int} (h : integerOf? x = some n) :
    (floatOfInt64 (clampInt64 n) == x) = true ↔ minInt ≤ n ∧ n ≤ maxInt + 1 := by
  have hsame := floatOfInt_beq h
  have hlimits : minInt ≤ maxInt := by decide
  unfold floatOfInt64
  rw [toInt_clampInt64]
  constructor
  · intro hbeq
    by_contra hout
    rcases lt_or_ge n minInt with hlow | hlow
    · -- the least view has a double of its own
      rw [min_eq_left (by omega), max_eq_left (by omega)] at hbeq
      have hdigits : Dyadic.Spells minInt.natAbs 63 0 := ⟨by decide, by decide, by decide⟩
      have heq := eq_of_floatOfInt_beq h (fun _ => ⟨_, _, hdigits⟩) hbeq
      omega
    · -- the greatest one shares its double with the integer after it
      rw [min_eq_right (by omega), max_eq_right hlimits] at hbeq
      have hdigits : Dyadic.Spells (maxInt + 1).natAbs 63 0 := ⟨by decide, by decide, by decide⟩
      have hnext : (floatOfInt (maxInt + 1) == x) = true :=
        Double.beq_trans ((Double.beq_comm _ _).trans floatOfInt_maxInt) hbeq
      have heq := eq_of_floatOfInt_beq h (fun _ => ⟨_, _, hdigits⟩) hnext
      omega
  · rintro ⟨hlow, hhigh⟩
    rcases lt_or_eq_of_le hhigh with hlt | rfl
    · rwa [min_eq_left (by omega), max_eq_right hlow]
    · rw [min_eq_right (by omega), max_eq_right hlimits]
      exact Double.beq_trans floatOfInt_maxInt hsame

/-- A value and its view are equal when the number is within the range, or next after it. -/
theorem equal_toInteger?_iff {v : Value} {i : Int64} {n : Int} (h : v.toInteger? = some i)
    (hn : v.toRat? = some (n : ℚ)) :
    v.equal (.integer i) = true ↔ minInt ≤ n ∧ n ≤ maxInt + 1 := by
  cases v with
  | integer j =>
    have hn : j.toInt = n := by exact_mod_cast Option.some_inj.mp hn
    have hlow : minInt ≤ j.toInt := j.minValue_le_toInt
    have hhigh : j.toInt ≤ maxInt := j.toInt_le
    injection h with h
    exact iff_of_true (beq_iff_eq.mpr h) (by omega)
  | number x =>
    have hx : integerOf? x = some n := integerOf?_eq_some_iff.mpr hn
    have hclamp : some (clampInt64 n) = some i := by
      rw [← h]
      show _ = (integerOf? x).map clampInt64
      rw [hx]
      rfl
    injection hclamp with hclamp
    show (floatOfInt64 i == x) = true ↔ _
    rw [← hclamp]
    exact floatOfInt_clampInt64_beq_iff hx
  | _ => cases h

/-- `2 ^ 64` has the greatest view, and is not equal to it. -/
example : (number 18446744073709551616.0).toInteger? = some (Int64.ofInt maxInt) ∧
    (number 18446744073709551616.0).equal (.integer (Int64.ofInt maxInt)) = false := by
  decide +kernel

end Scope.Value

end StoryPack
