/-
Equality of scopes.

Equality of values is reflexive where every double is a number, and symmetric.  It
need not be transitive: an integer is compared with a double by the double that is
nearest to it, and two integers beyond `2 ^ 53` can have the same one.  It is
transitive among values whose integers have doubles of their own, and so it is an
equivalence for these.

* `Value.equal_self`, `Value.equal_comm` — it is reflexive and symmetric;
* `Value.equal_trans` — it is transitive where the integers are exact;
* `Table.equivalence_equal` — so it is an equivalence of tables;
* `Table.equal_not_trans` — and in general it is not.
-/
import StoryPack.Proofs.Number.Comparison
import StoryPack.Scope.Basic

namespace StoryPack.Scope

namespace Value

mutual

/-- Every double in a value is a number. -/
def IsNumeric : Value → Prop
  | .number x => x.isNaN = false
  | .table entries => entriesNumeric entries
  | _ => True

def entriesNumeric : List (Key × Value) → Prop
  | [] => True
  | (_, v) :: rest => v.IsNumeric ∧ entriesNumeric rest

end

mutual

/-- Every integer in a value has a double of its own. -/
def IsExact : Value → Prop
  | .integer i => i.toInt.natAbs ≤ 2 ^ 53
  | .table entries => entriesExact entries
  | _ => True

def entriesExact : List (Key × Value) → Prop
  | [] => True
  | (_, v) :: rest => v.IsExact ∧ entriesExact rest

end

mutual

theorem equal_self : ∀ {v : Value}, v.IsNumeric → v.equal v = true
  | .boolean _, _ | .integer _, _ | .text _, _ | .function _, _ => by
    unfold equal
    exact beq_self_eq_true _
  | .number _, h => by
    unfold equal
    exact Double.beq_self h
  | .table _, h => by
    unfold equal
    exact equalEntries_self h

theorem equalEntries_self : ∀ {entries : List (Key × Value)}, entriesNumeric entries →
    equalEntries entries entries = true
  | [], _ => rfl
  | (k, v) :: rest, h => by
    unfold equalEntries
    rw [beq_self_eq_true, equal_self h.1, equalEntries_self h.2]
    rfl

end

mutual

theorem equal_comm : ∀ v w : Value, v.equal w = w.equal v
  | .boolean a, w => by
    cases w with
    | boolean b => exact Bool.beq_comm
    | _ => rfl
  | .integer i, w => by
    cases w with
    | integer j => exact Bool.beq_comm
    | _ => rfl
  | .number x, w => by
    cases w with
    | number y => exact Double.beq_comm x y
    | _ => rfl
  | .text a, w => by
    cases w with
    | text b => exact Bool.beq_comm
    | _ => rfl
  | .function f, w => by
    cases w with
    | function g => exact Bool.beq_comm
    | _ => rfl
  | .table s, w => by
    cases w with
    | table t => exact equalEntries_comm s t
    | _ => rfl

theorem equalEntries_comm : ∀ s t : List (Key × Value), equalEntries s t = equalEntries t s
  | [], [] => rfl
  | [], _ :: _ => rfl
  | _ :: _, [] => rfl
  | (k, v) :: s, (k', v') :: t => by
    unfold equalEntries
    rw [equal_comm v v', equalEntries_comm s t, Bool.beq_comm]

end

/-- What numbers are compared by: the number that the double of an integer stands for, and that of a
double. -/
def number? : Value → Option Float.Model.UnpackedFloat
  | .integer i => Double.number? (floatOfInt64 i)
  | .number x => Double.number? x
  | _ => none

/-- Values that are equal to a number stand for the same number. -/
theorem number?_of_equal {v w : Value} (h : v.equal w = true) : v.number? = w.number? := by
  cases v with
  | integer i =>
    cases w with
    | integer j => rw [beq_iff_eq.mp h]
    | number y => exact (Double.beq_iff.mp h).1
    | _ => cases h
  | number x =>
    cases w with
    | integer j => exact (Double.beq_iff.mp h).1.symm
    | number y => exact (Double.beq_iff.mp h).1
    | _ => cases h
  | _ =>
    cases w with
    | integer | number => cases h
    | _ => rfl

/-- What is equal to a double stands for the same number. -/
theorem equal_number_iff {v : Value} {x : Float} :
    v.equal (.number x) = true ↔ v.number? = Double.number? x ∧ (Double.number? x).isSome := by
  have hnone (h : v.number? = none) :
      ¬ (v.number? = Double.number? x ∧ (Double.number? x).isSome) := fun hx => by
    rw [← hx.1, h] at hx
    cases hx.2
  cases v with
  | integer i =>
    refine Double.beq_iff.trans (and_congr_right fun hsame => ?_)
    rw [hsame]
  | number y =>
    refine Double.beq_iff.trans (and_congr_right fun hsame => ?_)
    rw [hsame]
  | _ => exact iff_of_false nofun (hnone rfl)

/-- Through a double equality goes on. -/
theorem equal_number_trans {u v : Value} {x : Float} (huv : u.equal v = true)
    (hv : v.equal (.number x) = true) : u.equal (.number x) = true := by
  rw [equal_number_iff] at hv ⊢
  exact ⟨(number?_of_equal huv).trans hv.1, hv.2⟩

mutual

/-- Where the integers are exact, values that are equal to a third one are equal. -/
theorem equal_trans : ∀ {u v w : Value}, u.IsExact → w.IsExact → u.equal v = true →
    v.equal w = true → u.equal w = true
  | .boolean a, v, w, _, _, huv, hvw => by
    cases v with
    | boolean b => rwa [beq_iff_eq.mp huv]
    | _ => cases huv
  | .text a, v, w, _, _, huv, hvw => by
    cases v with
    | text b => rwa [beq_iff_eq.mp huv]
    | _ => cases huv
  | .function f, v, w, _, _, huv, hvw => by
    cases v with
    | function g => rwa [beq_iff_eq.mp huv]
    | _ => cases huv
  | .integer i, v, w, hi, hw, huv, hvw => by
    cases w with
    | integer j =>
      have hsame := (number?_of_equal huv).trans (number?_of_equal hvw)
      exact beq_iff_eq.mpr (Int64.toInt_inj.mp (floatOfInt_inj hi hw hsame))
    | number x => exact equal_number_trans huv hvw
    | _ =>
      cases v with
      | integer | number => cases hvw
      | _ => cases huv
  | .number x, v, w, _, _, huv, hvw => by
    rw [equal_comm] at huv hvw ⊢
    exact equal_number_trans hvw huv
  | .table s, v, w, hs, hw, huv, hvw => by
    cases v with
    | table t =>
      cases w with
      | table r => exact equalEntries_trans hs hw huv hvw
      | _ => cases hvw
    | _ => cases huv

theorem equalEntries_trans : ∀ {r s t : List (Key × Value)}, entriesExact r → entriesExact t →
    equalEntries r s = true → equalEntries s t = true → equalEntries r t = true
  | [], s, t, _, _, hrs, hst => by
    cases s with
    | nil => exact hst
    | cons => cases hrs
  | (k, v) :: r, s, t, hr, ht, hrs, hst => by
    cases s with
    | nil => cases hrs
    | cons e s =>
      cases t with
      | nil => cases hst
      | cons e' t =>
        unfold equalEntries at hrs hst ⊢
        rw [Bool.and_eq_true, Bool.and_eq_true, beq_iff_eq] at hrs hst ⊢
        obtain ⟨⟨hk, hv⟩, hrest⟩ := hrs
        obtain ⟨⟨hk', hv'⟩, hrest'⟩ := hst
        exact ⟨⟨hk.trans hk', equal_trans hr.1 ht.1 hv hv'⟩,
          equalEntries_trans hr.2 ht.2 hrest hrest'⟩

end

end Value

namespace Table

/-- A table in which every double is a number and every integer has a double of its own. -/
def IsPlain (t : Table) : Prop := Value.entriesNumeric t.entries ∧ Value.entriesExact t.entries

/-- Among plain tables equality is an equivalence. -/
theorem equivalence_equal :
    Equivalence fun s t : {t : Table // t.IsPlain} => s.1.equal t.1 = true where
  refl t := Value.equalEntries_self t.2.1
  symm h := (Value.equalEntries_comm _ _).trans h
  trans {r _ t} hrs hst := Value.equalEntries_trans r.2.2 t.2.2 hrs hst

/-- A table with one number. -/
def ofNumber (v : Value) : Table := ⟨[(.text "n", v)]⟩

/-- Beyond `2 ^ 53` a double is equal to two integers. -/
theorem equal_not_trans :
    (ofNumber (.integer 9007199254740993)).equal (ofNumber (.number 9007199254740992.0)) = true ∧
      (ofNumber (.number 9007199254740992.0)).equal (ofNumber (.integer 9007199254740992)) = true ∧
      (ofNumber (.integer 9007199254740993)).equal (ofNumber (.integer 9007199254740992)) =
      false := by
  decide +kernel

end Table

end StoryPack.Scope
