/-
Iterating over a table.

To iterate is to ask again and again for what comes after a key, beginning
without one.  Whatever the layout of a table, this comes to an end, and it has
then come to each entry once: through the array first, and then through the
slots.

* `Table.Follows` — what iterating comes to from some point on;
* `Table.Sound.follows_slots`, `Table.Sound.follows_array` — from a slot or a place
  of the array on;
* `Table.Sound.follows_entries` — from the beginning.
-/
import StoryPack.Proofs.Scope.Order

namespace StoryPack.Script.Table

variable {t : Table}

/-- What iterating comes to from some point on, up to its end. -/
inductive Follows (t : Table) : Following → List (Key × Value) → Prop
  | done : Follows t .done []
  | entry {k : Key} (v : Value) {rest : List (Key × Value)}
    (hrest : Follows t (t.after (some k)) rest) : Follows t (.entry k v) ((k, v) :: rest)

theorem after_some (t : Table) (k : Key) : t.after (some k) =
    match t.arrayPlace? k with
    | some n => t.fromArray (n + 1)
    | none =>
      match t.index[k]? with
      | some n => t.fromSlot (n + 1)
      | none => .invalid := rfl

/-- After the key of a slot come the slots behind it. -/
theorem Sound.after_slot (ht : t.Sound) {k : Key} {v : Value} {n : Nat}
    (hn : t.slots[n]? = some (k, v)) : t.after (some k) = t.fromSlot (n + 1) := by
  have hindex := ht.index hn
  have hplace : t.arrayPlace? k = none := by
    refine Option.eq_none_iff_forall_ne_some.mpr fun m hm => ?_
    rw [ht.apart hm] at hindex
    cases hindex
  rw [after_some, hplace, hindex]

/-- After an integer of the array comes the rest of the array. -/
theorem Sound.after_place (ht : t.Sound) {n : Nat} (hn : n < t.array.size) :
    t.after (some (.int (Int64.ofNat (n + 1)))) = t.fromArray (n + 1) := by
  have hplace : t.arrayPlace? (.int (Int64.ofNat (n + 1))) = some n :=
    (arrayPlace?_eq_some_iff ht.bound).mpr ⟨rfl, hn⟩
  rw [after_some, hplace]

/-- From a slot on, iterating comes to the slots that hold a value. -/
theorem Sound.follows_slots (ht : t.Sound) (n : Nat) :
    t.Follows (t.fromSlot n) ((t.slots.toList.drop n).filter fun e => !e.2.isNil) := by
  -- the induction is on the number of slots that are left
  induction hleft : t.slots.size - n generalizing n with
  | zero =>
    unfold fromSlot
    rw [dif_neg (by omega), List.drop_eq_nil_of_le (by rw [Array.length_toList]; omega)]
    exact .done
  | succ left ih =>
    have hn : n < t.slots.size := by omega
    have hrest := ih (n + 1) (by omega)
    have hslot : t.slots[n]? = some (t.slots[n].1, t.slots[n].2) := Array.getElem?_eq_getElem hn
    unfold fromSlot
    rw [dif_pos hn, List.drop_eq_getElem_cons (by rwa [Array.length_toList]), Array.getElem_toList]
    dsimp only
    split
    · rename_i hnil
      rwa [List.filter_cons_of_neg (by rw [hnil]; decide)]
    · rename_i hsome
      rw [List.filter_cons_of_pos (by rw [Bool.eq_false_iff.mpr hsome]; rfl)]
      refine .entry _ ?_
      rwa [ht.after_slot hslot]

/-- The entry at a place of the array. -/
def arrayItem (t : Table) (i : Nat) : Option (Key × Value) :=
  if (t.array[i]!).isNil then none else some (.int (Int64.ofNat (i + 1)), t.array[i]!)

theorem arrayEntries_succ {n : Nat} (hn : n < t.array.size) (count : Nat) :
    t.arrayEntries n (count + 1) =
      (if t.array[n].isNil then [] else [(.int (Int64.ofNat (n + 1)), t.array[n])]) ++
        t.arrayEntries (n + 1) count := by
  have hitem : t.array[n]! = t.array[n] := getElem!_pos t.array n hn
  -- the other entries are those from the next place on
  have hshift : (fun i => t.arrayItem (n + i)) ∘ Nat.succ = fun i => t.arrayItem (n + 1 + i) := by
    funext i
    show t.arrayItem (n + (i + 1)) = t.arrayItem (n + 1 + i)
    rw [Nat.add_right_comm n 1 i, Nat.add_assoc]
  show ((List.range (count + 1)).filterMap fun i => t.arrayItem (n + i)) = _
  rw [List.range_succ_eq_map, List.filterMap_cons, List.filterMap_map, hshift, Nat.add_zero]
  by_cases hnil : t.array[n].isNil = true
  · have hnone : t.arrayItem n = none := by
      unfold arrayItem
      rw [hitem, if_pos hnil]
    rw [hnone, if_pos hnil]
    rfl
  · have hsome : t.arrayItem n = some (.int (Int64.ofNat (n + 1)), t.array[n]) := by
      unfold arrayItem
      rw [hitem, if_neg hnil]
    rw [hsome, if_neg hnil]
    rfl

/-- From a place of the array on, iterating comes to the rest of the array and to the slots. -/
theorem Sound.follows_array (ht : t.Sound) (n : Nat) :
    t.Follows (t.fromArray n) (t.arrayEntries n (t.array.size - n) ++ t.slotEntries) := by
  -- the induction is on the number of places that are left
  induction hleft : t.array.size - n generalizing n with
  | zero =>
    unfold fromArray
    rw [dif_neg (by omega)]
    exact ht.follows_slots 0
  | succ left ih =>
    have hn : n < t.array.size := by omega
    have hrest := ih (n + 1) (by omega)
    unfold fromArray
    rw [dif_pos hn, arrayEntries_succ hn]
    dsimp only
    split
    · exact hrest
    · refine .entry _ ?_
      rwa [ht.after_place hn]

/-- Iterating comes to all entries of a table, each once. -/
theorem Sound.follows_entries (ht : t.Sound) : t.Follows (t.after none) t.entries := by
  rw [entries_eq]
  exact ht.follows_array 0

end StoryPack.Script.Table
