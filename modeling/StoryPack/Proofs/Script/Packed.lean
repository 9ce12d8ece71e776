/-
Lists in tables.

A list of values is packed into a table, with its length beside it, and unpacked
from there.  Some of the values may be `nil`, at the end as well, and the border
of the table does not tell how long the list was; its length does, and so the
whole list comes back.

* `Table.Packs` — a table that holds a list and its length;
* `Table.packs_of` — a list that has been put into a new table;
* `Library.packed_eq` — packing makes such a table;
* `Library.unpack_of_packs` — unpacking it gives the list;
* `Library.unpack_of_table` — at worst it fails.
-/
import StoryPack.Proofs.Script.Border
import StoryPack.Proofs.Script.Table
import StoryPack.Script.Library

namespace StoryPack.Script

namespace Table

variable {t : Table} {vs : List Value}

/-- A table that holds a list and its length, and has no metatable. -/
structure Packs (t : Table) (vs : List Value) : Prop where
  metatable : t.metatable = none
  count : t.get (.str "n".toUTF8) = .int (Int64.ofNat vs.length)
  item : vs.length ≤ maxSlot →
    ∀ i < vs.length, t.get (.int (Int64.ofNat (i + 1))) = vs.getD i .nil

theorem setFrom_cons (t : Table) (n : Nat) (v : Value) (vs : List Value) :
    t.setFrom n (v :: vs) = (t.set (.int (Int64.ofNat (n + 1))) v).setFrom (n + 1) vs := rfl

theorem Sound.setFrom (ht : Sound t) (n : Nat) (vs : List Value) : Sound (t.setFrom n vs) := by
  induction vs generalizing t n with
  | nil => exact ht
  | cons v vs ih => exact ih (ht.set _ v).1 (n + 1)

theorem metatable_setFrom (t : Table) (n : Nat) (vs : List Value) :
    (t.setFrom n vs).metatable = t.metatable := by
  induction vs generalizing t n with
  | nil => rfl
  | cons v vs ih => rw [setFrom_cons, ih, metatable_set]

/-- The integers up to the first one keep what they had. -/
theorem get_setFrom_of_le (ht : Sound t) {n k : Nat} (hk : k ≤ n) (hn : n + vs.length ≤ maxSlot) :
    (t.setFrom n vs).get (.int (Int64.ofNat k)) = t.get (.int (Int64.ofNat k)) := by
  induction vs generalizing t n with
  | nil => rfl
  | cons v vs ih =>
    rw [List.length_cons] at hn
    -- the keys are so small that their integers do not wrap
    have hne : Key.int (Int64.ofNat k) ≠ .int (Int64.ofNat (n + 1)) := fun heq => by
      have := ofNat_inj (by omega) (by omega) (Key.int.inj heq)
      omega
    rw [setFrom_cons, ih (ht.set _ v).1 (Nat.le_succ_of_le hk) (by omega), get_set ht, if_neg hne]

/-- The integers after the first one have the values of the list. -/
theorem get_setFrom (ht : Sound t) {n i : Nat} (hi : i < vs.length) (hn : n + vs.length ≤ maxSlot) :
    (t.setFrom n vs).get (.int (Int64.ofNat (n + i + 1))) = vs.getD i .nil := by
  induction vs generalizing t n i with
  | nil => cases hi
  | cons v vs ih =>
    rw [List.length_cons] at hi hn
    rw [setFrom_cons]
    cases i with
    | zero =>
      rw [Nat.add_zero, get_setFrom_of_le (ht.set _ v).1 (Nat.le_refl _) (by omega), get_set ht,
        if_pos rfl]
      rfl
    | succ i =>
      have hplace : n + (i + 1) + 1 = n + 1 + i + 1 := by omega
      rw [hplace, ih (ht.set _ v).1 (by omega) (by omega), List.getD_cons_succ]

/-- A list that has been put into a new table, with its length. -/
theorem packs_of (vs : List Value) :
    (((sized vs.length 1).setFrom 0 vs).set (.str "n".toUTF8)
      (.int (Int64.ofNat vs.length))).Packs vs := by
  have hsound := (sound_sized vs.length 1).setFrom 0 vs
  refine ⟨?_, ?_, fun hlength i hi => ?_⟩
  · rw [metatable_set, metatable_setFrom]
    rfl
  · rw [get_set hsound, if_pos rfl]
  · -- the count has a key of its own, so the items stay what they were
    have hget := get_setFrom (sound_sized vs.length 1) (n := 0) hi (by omega)
    rw [Nat.zero_add] at hget
    rw [get_set hsound, if_neg nofun, hget]

end Table

namespace Library

variable {h : Heap} {r : Nat} {vs : List Value}

/-- Packing makes a table that holds the list, and nothing else. -/
theorem packed_eq (vs : List Value) (h : Heap) :
    ∃ t : Table, t.Packs vs ∧ packed vs h = .done (h.newTable t).1 [.table (h.newTable t).2] :=
  ⟨_, Table.packs_of vs, rfl⟩

theorem bind_of_done {α β : Type} {m : Action α} {k : α → Action β} {h h' : Heap} {a : α}
    (hm : m h = .done h' a) : (m >>= k) h = k a h' := by
  show Action.bind m k h = _
  rw [Action.bind, hm]

/-- An item of a table without metatable. -/
theorem item_of_table (hmeta : (h.table r).metatable = none) (i : Int64) :
    item (.table r) i h = .done h ((h.table r).get (.int i)) := by
  show Operation.indexFrom Operation.chainLimit (some 0) (.table r) (.int i) h = _
  have hchain : Operation.chainLimit = 1999 + 1 := rfl
  rw [hchain, Operation.indexFrom]
  simp only [Table.getValue, Value.toKey?, hmeta]
  split
  · rfl
  · rename_i hnil
    cases hv : (h.table r).get (.int i) <;> simp_all [Value.isNil]

/-- The items of a packed list from one of them on. -/
theorem itemsFrom_of_packs (hpacks : (h.table r).Packs vs) (hlength : vs.length ≤ Table.maxSlot)
    {n i : Nat} (hn : i + n = vs.length) (acc : List Value) :
    itemsFrom (.table r) n (Int64.ofNat (i + 1)) acc h = .done h (acc.reverse ++ vs.drop i) := by
  induction n generalizing i acc with
  | zero =>
    rw [itemsFrom, List.drop_of_length_le (by omega), List.append_nil]
    rfl
  | succ n ih =>
    have hi : i < vs.length := by omega
    have hnext : Int64.ofNat (i + 1) + 1 = Int64.ofNat (i + 1 + 1) :=
      (Int64.ofNat_add (i + 1) 1).symm
    rw [itemsFrom, bind_of_done (item_of_table hpacks.metatable _), hpacks.item hlength i hi, hnext,
      ih (by omega), List.drop_eq_getElem_cons hi, List.reverse_cons, List.append_assoc,
      List.getD_eq_getElem?_getD, List.getElem?_eq_getElem hi]
    rfl

/-- The items of a table without metatable are read at once. -/
theorem itemsFrom_of_table (hmeta : (h.table r).metatable = none) (n : Nat) (i : Int64)
    (acc : List Value) : ∃ ws, itemsFrom (.table r) n i acc h = .done h ws := by
  induction n generalizing i acc with
  | zero => exact ⟨_, rfl⟩
  | succ n ih =>
    rw [itemsFrom, bind_of_done (item_of_table hmeta i)]
    exact ih (i + 1) _

theorem unpack_eq (r : Nat) (j : Int64) :
    unpack [.table r, .int 1, .int j] =
      if j < 1 then pure []
      else
        if (j.toInt - (1 : Int64).toInt).toNat + 1 ≥ 1000000 then
          Action.raise "too many results to unpack"
        else itemsFrom (.table r) ((j.toInt - (1 : Int64).toInt).toNat + 1) 1 [] := rfl

/-- Unpacking a table without metatable changes nothing and calls nothing. -/
theorem unpack_of_table (hmeta : (h.table r).metatable = none) (j : Int64) :
    (∃ ws, unpack [.table r, .int 1, .int j] h = .done h ws) ∨
      ∃ e, unpack [.table r, .int 1, .int j] h = .failed h e := by
  rw [unpack_eq]
  split
  · exact .inl ⟨_, rfl⟩
  · split
    · exact .inr ⟨_, rfl⟩
    · exact .inl (itemsFrom_of_table hmeta _ _ _)

/-- Unpacking a packed list gives the list. -/
theorem unpack_of_packs (hpacks : (h.table r).Packs vs) (hlength : vs.length < 1000000) :
    unpack [.table r, .int 1, .int (Int64.ofNat vs.length)] h = .done h vs := by
  have hcount : (Int64.ofNat vs.length).toInt = vs.length := Int64.toInt_ofNat_of_lt (by omega)
  have hone : (1 : Int64).toInt = 1 := rfl
  rw [unpack_eq]
  by_cases hempty : vs = []
  · subst hempty
    rfl
  · have hpos : 0 < vs.length := List.length_pos_of_ne_nil hempty
    have hle : ¬Int64.ofNat vs.length < 1 := by
      rw [Int64.lt_iff_toInt_lt, hcount, hone]
      omega
    have hn : ((Int64.ofNat vs.length).toInt - (1 : Int64).toInt).toNat + 1 = vs.length := by
      rw [hcount, hone]
      omega
    rw [if_neg hle, hn, if_neg (by omega)]
    have hmax : vs.length ≤ Table.maxSlot := by
      unfold Table.maxSlot
      omega
    exact itemsFrom_of_packs hpacks hmax (i := 0) (Nat.zero_add _) []

end Library

end StoryPack.Script
