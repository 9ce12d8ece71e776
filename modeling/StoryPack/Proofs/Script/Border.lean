/-
The border that is the length of a table.

A table may have several borders when there are gaps among its integers, and
which of them is its length depends on its layout.  Searches by halving lead to
it; they end before they run out of steps, since all indices have 64 bits.

* `Table.arrayBorder_spec`, `Table.keyBorder_spec` — the searches between a
  present and an absent index;
* `Table.borderAbove_spec` — the search above the array;
* `Table.Sound.endsAt_length` — nothing stands after the length;
* `Table.Sound.present_length` — something stands at the length, if it is not zero.
-/
import StoryPack.Proofs.Script.Lookup

namespace StoryPack.Script

theorem Value.eq_nil_of_isNil {v : Value} (h : v.isNil) : v = .nil := by
  cases v with
  | nil => rfl
  | _ => cases h

/-- Indices are different integers. -/
theorem ofNat_inj {m n : Nat} (hm : m ≤ Table.maxSlot) (hn : n ≤ Table.maxSlot)
    (h : Int64.ofNat m = Int64.ofNat n) : m = n := by
  have hmax : Table.maxSlot = 0x7fffffffffffffff := rfl
  have hclamp := congrArg Int64.toNatClampNeg h
  rwa [Int64.toNatClampNeg_ofNat_of_lt (by omega), Int64.toNatClampNeg_ofNat_of_lt (by omega)]
    at hclamp

namespace Table

variable {t : Table}

/-- The integers of the array stand in it in order. -/
theorem Sound.getInt_array (ht : t.Sound) {n : Nat} (hn : n < t.array.size) :
    t.getInt (Int64.ofNat (n + 1)) = t.array[n]! := by
  have hplace : t.arrayPlace? (.int (Int64.ofNat (n + 1))) = some n :=
    (arrayPlace?_eq_some_iff ht.bound).mpr ⟨rfl, hn⟩
  calc t.getInt (Int64.ofNat (n + 1)) = t.find (.int (Int64.ofNat (n + 1))) :=
        ht.get_eq_find (.int (Int64.ofNat (n + 1)))
    _ = t.array[n]! := by
      rw [find, hplace, getElem!_pos t.array n hn]
      simp [hn]

/-- A search in the array ends before an absent index. -/
theorem arrayBorder_spec {a : Array Value} {fuel i j : Nat} (hij : i < j)
    (hfuel : j - i ≤ Nat.pow 2 fuel) (hj : (a[j - 1]!).isNil) :
    arrayBorder a fuel i j < j ∧ (a[arrayBorder a fuel i j]!).isNil := by
  induction fuel generalizing i j with
  | zero =>
    have hnext : j - 1 = i := by
      have : Nat.pow 2 0 = 1 := rfl
      omega
    exact ⟨hij, hnext ▸ hj⟩
  | succ fuel ih =>
    have hpow : Nat.pow 2 (fuel + 1) = Nat.pow 2 fuel * 2 := rfl
    unfold arrayBorder
    split
    · have hnext : j - 1 = i := by omega
      exact ⟨hij, hnext ▸ hj⟩
    · dsimp only
      split
      · rename_i hm
        obtain ⟨hlt, hnil⟩ := ih (i := i) (j := (i + j) / 2) (by omega) (by omega) hm
        exact ⟨by omega, hnil⟩
      · exact ih (i := (i + j) / 2) (j := j) (by omega) (by omega) hj

/-- A search among all integers ends before an absent index. -/
theorem keyBorder_spec {fuel i j : Nat} (hij : i < j) (hfuel : j - i ≤ Nat.pow 2 fuel)
    (hj : (t.getInt (Int64.ofNat j)).isNil) :
    keyBorder t fuel i j < j ∧ (t.getInt (Int64.ofNat (keyBorder t fuel i j + 1))).isNil := by
  induction fuel generalizing i j with
  | zero =>
    have hnext : j = i + 1 := by
      have : Nat.pow 2 0 = 1 := rfl
      omega
    exact ⟨hij, hnext ▸ hj⟩
  | succ fuel ih =>
    have hpow : Nat.pow 2 (fuel + 1) = Nat.pow 2 fuel * 2 := rfl
    unfold keyBorder
    split
    · have hnext : j = i + 1 := by omega
      exact ⟨hij, hnext ▸ hj⟩
    · dsimp only
      split
      · rename_i hm
        obtain ⟨hlt, hnil⟩ := ih (i := i) (j := (i + j) / 2) (by omega) (by omega) hm
        exact ⟨by omega, hnil⟩
      · exact ih (i := (i + j) / 2) (j := j) (by omega) (by omega) hj

/-- Nothing stands after an index, unless it is the greatest one. -/
def EndsAt (t : Table) (n : Nat) : Prop :=
  n ≤ maxSlot ∧ (n = maxSlot ∨ t.get (.int (Int64.ofNat (n + 1))) = .nil)

/-- The indices are doubled until an absent one is found. After so many steps the next one would be
greater than all indices. -/
theorem borderAbove_spec {fuel i : Nat} (hpos : 0 < i) (hle : i ≤ maxSlot)
    (hfuel : Nat.pow 2 64 ≤ i * Nat.pow 2 fuel) : t.EndsAt (borderAbove t fuel i) := by
  have hmax : maxSlot < Nat.pow 2 63 := by decide
  induction fuel generalizing i with
  | zero =>
    have hpow : i * Nat.pow 2 0 = i := Nat.mul_one i
    have h64 : Nat.pow 2 64 = Nat.pow 2 63 * 2 := rfl
    omega
  | succ fuel ih =>
    have h64 : Nat.pow 2 64 = Nat.pow 2 63 * 2 := rfl
    -- what the search between two indices finds
    have hbetween {j : Nat} (hij : i < j) (hj : j ≤ maxSlot)
        (hnil : (t.getInt (Int64.ofNat j)).isNil) : t.EndsAt (keyBorder t 64 i j) := by
      obtain ⟨hlt, hafter⟩ := @keyBorder_spec t 64 i j hij (by omega) hnil
      exact ⟨by omega, .inr (Value.eq_nil_of_isNil hafter)⟩
    unfold borderAbove
    dsimp only
    split
    · split
      · rename_i hnil
        by_cases hlast : i = maxSlot
        · have hstay : keyBorder t 64 i maxSlot = maxSlot := by
            rw [hlast]
            exact if_pos (by omega)
          exact ⟨Nat.le_of_eq hstay, .inl hstay⟩
        · exact hbetween (by omega) (Nat.le_refl _) hnil
      · exact ⟨Nat.le_refl _, .inl rfl⟩
    · split
      · exact hbetween (by omega) (by omega) ‹_›
      · refine ih (by omega) (by omega) ?_
        calc Nat.pow 2 64 ≤ i * Nat.pow 2 (fuel + 1) := hfuel
          _ = i * 2 * Nat.pow 2 fuel := by
            rw [show Nat.pow 2 (fuel + 1) = Nat.pow 2 fuel * 2 from rfl,
              Nat.mul_comm (Nat.pow 2 fuel) 2, Nat.mul_assoc]

/-- The length of a table is a border, however its entries are laid out. -/
theorem Sound.endsAt_length (ht : t.Sound) : t.EndsAt t.length := by
  have hbound := ht.bound
  have hmax : maxSlot = 0x7fffffffffffffff := rfl
  have hpow : Nat.pow 2 64 = 0x10000000000000000 := by decide
  unfold length
  dsimp only
  split
  · rename_i hlast
    obtain ⟨hpos, hnil⟩ := Bool.and_eq_true_iff.mp hlast
    have hpos : 0 < t.array.size := of_decide_eq_true hpos
    split
    · -- the last item of the array is absent
      have hget := ht.getInt_array (n := t.array.size - 1) (by omega)
      exact ⟨by omega, .inr (hget.trans (Value.eq_nil_of_isNil hnil))⟩
    · obtain ⟨hlt, hafter⟩ := @arrayBorder_spec t.array 64 0 t.array.size hpos (by omega) hnil
      have hget := ht.getInt_array hlt
      exact ⟨by omega, .inr (hget.trans (Value.eq_nil_of_isNil hafter))⟩
  · split
    · rename_i hnone
      by_cases hlast : t.array.size = maxSlot
      · exact ⟨Nat.le_of_eq hlast, .inl hlast⟩
      refine ⟨by omega, .inr ?_⟩
      rcases Bool.or_eq_true_iff.mp hnone with hempty | hnil
      · -- the next integer has no place in the array, and nothing has a slot
        have hplace : t.arrayPlace? (.int (Int64.ofNat (t.array.size + 1))) = none := by
          refine Option.eq_none_iff_forall_ne_some.mpr fun n hn => ?_
          obtain ⟨hkey, hlt⟩ := (arrayPlace?_eq_some_iff ht.bound).mp hn
          have := ofNat_inj (by omega) (by omega) (Key.int.inj hkey)
          omega
        rw [ht.get_eq_find, find, hplace]
        exact ht.getSlot_of_isEmpty hempty _
      · exact Value.eq_nil_of_isNil hnil
    · exact borderAbove_spec (by omega) (by omega) (Nat.le_mul_of_pos_left _ (by omega))

/-! ### The index below a border -/

/-- Something stands at an index, if it is not zero. -/
def Present (t : Table) (n : Nat) : Prop := n = 0 ∨ (t.get (.int (Int64.ofNat n))).isNil = false

/-- A search in the array stays at present indices. -/
theorem arrayBorder_present {a : Array Value} {fuel i j : Nat}
    (hi : i = 0 ∨ (a[i - 1]!).isNil = false) :
    arrayBorder a fuel i j = 0 ∨ (a[arrayBorder a fuel i j - 1]!).isNil = false := by
  induction fuel generalizing i j with
  | zero => exact hi
  | succ fuel ih =>
    unfold arrayBorder
    dsimp only
    split
    · exact hi
    · split
      · exact ih hi
      · exact ih (.inr (Bool.eq_false_iff.mpr ‹_›))

/-- A search among all integers stays at present indices. -/
theorem keyBorder_present {fuel i j : Nat} (hi : t.Present i) :
    t.Present (keyBorder t fuel i j) := by
  induction fuel generalizing i j with
  | zero => exact hi
  | succ fuel ih =>
    unfold keyBorder
    dsimp only
    split
    · exact hi
    · split
      · exact ih hi
      · exact ih (.inr (Bool.eq_false_iff.mpr ‹_›))

theorem borderAbove_present {fuel i : Nat} (hi : t.Present i) :
    t.Present (borderAbove t fuel i) := by
  induction fuel generalizing i with
  | zero => exact hi
  | succ fuel ih =>
    unfold borderAbove
    dsimp only
    split
    · split
      · exact keyBorder_present hi
      · exact .inr (Bool.eq_false_iff.mpr ‹_›)
    · split
      · exact keyBorder_present hi
      · exact ih (.inr (Bool.eq_false_iff.mpr ‹_›))

/-- Something stands at the length of a table, if it is not zero. -/
theorem Sound.present_length (ht : t.Sound) : t.Present t.length := by
  -- the places of the array are counted from zero
  have harray {n : Nat} (hn : n ≤ t.array.size) (h : n = 0 ∨ (t.array[n - 1]!).isNil = false) :
      t.Present n := by
    obtain rfl | hpresent := h
    · exact .inl rfl
    · by_cases hzero : n = 0
      · exact .inl hzero
      · refine .inr ?_
        have hget := ht.getInt_array (n := n - 1) (by omega)
        rw [Nat.sub_add_cancel (by omega)] at hget
        exact (congrArg Value.isNil hget).trans hpresent
  unfold length
  dsimp only
  split
  · rename_i hlast
    obtain ⟨hpos, hnil⟩ := Bool.and_eq_true_iff.mp hlast
    have hpos : 0 < t.array.size := of_decide_eq_true hpos
    split
    · rename_i hbefore
      obtain ⟨htwo, hsome⟩ := Bool.and_eq_true_iff.mp hbefore
      exact harray (by omega) (.inr (by simpa [Nat.sub_sub] using hsome))
    · have hbound := ht.bound
      have hpow : Nat.pow 2 64 = 0x10000000000000000 := by decide
      obtain ⟨hlt, -⟩ := @arrayBorder_spec t.array 64 0 t.array.size hpos (by omega) hnil
      exact harray (by omega) (arrayBorder_present (.inl rfl))
  · rename_i hlast
    have hsize : t.Present t.array.size := by
      refine harray (Nat.le_refl _) ?_
      by_cases hpos : 0 < t.array.size
      · refine .inr (Bool.eq_false_iff.mpr fun hnil => hlast ?_)
        rw [hnil, decide_eq_true hpos]
        rfl
      · exact .inl (by omega)
    split
    · exact hsize
    · rename_i hafter
      refine borderAbove_present ?_
      -- when the array is empty, the first integer is found
      obtain hzero | hpos := Nat.eq_zero_or_pos t.array.size
      · have hfirst : (t.getInt (Int64.ofNat (t.array.size + 1))).isNil = false := by
          refine Bool.eq_false_iff.mpr fun hnil => hafter ?_
          rw [hnil, Bool.or_true]
        rw [hzero] at hfirst ⊢
        exact .inr hfirst
      · rwa [Nat.max_eq_left hpos]

end Table

end StoryPack.Script
