/-
Tables whose references are renamed.

The renamed table has the renamed values and keys in the same places, so that
every reading, every border and every order of entries is the same, and so is
what a write does to the places.

* `Table.Renamed` — a table is another one with its references renamed;
* `Table.Renamed.get`, `Table.Renamed.length`, `Table.Renamed.after` — readings;
* `Table.Renamed.set`, `Table.Renamed.resize` — writes.
-/
import StoryPack.Proofs.Renaming.Value

namespace StoryPack.Script

variable {σ : Renaming}

/-- An entry with its references renamed. -/
def Renaming.entry (σ : Renaming) (e : Key × Value) : Key × Value := (σ.key e.1, σ.value e.2)

@[simp] theorem Renaming.fst_entry (e : Key × Value) : (σ.entry e).1 = σ.key e.1 := rfl

@[simp] theorem Renaming.snd_entry (e : Key × Value) : (σ.entry e).2 = σ.value e.2 := rfl

/-- What comes after a key, with its references renamed. -/
def Renaming.following (σ : Renaming) : Table.Following → Table.Following
  | .entry k v => .entry (σ.key k) (σ.value v)
  | .done => .done
  | .invalid => .invalid

/-- A table is another one with its references renamed. -/
structure Table.Renamed (σ : Renaming) (t t' : Table) : Prop where
  array : t'.array = t.array.map σ.value
  slots : t'.slots = t.slots.map σ.entry
  index : ∀ k, t'.index[σ.key k]? = t.index[k]?
  capacity : t'.capacity = t.capacity
  metatable : t'.metatable = t.metatable.map σ.table

namespace Table

variable {t t' : Table}

theorem getElem!_map_value (a : Array Value) (i : Nat) :
    (a.map σ.value)[i]! = σ.value a[i]! := by
  simp only [getElem!_def, Array.getElem?_map]
  cases a[i]? <;> rfl

@[simp] theorem countKey_key (bins : Array Nat) (k : Key) :
    countKey bins (σ.key k) = countKey bins k := by
  cases k <;> rfl

theorem renamed_sized (array slots : Nat) :
    (sized array slots).Renamed σ (sized array slots) where
  array := by simp [sized]
  slots := by simp [sized]
  index k := by simp [sized]
  capacity := rfl
  metatable := rfl

theorem renamed_empty (capacity : Nat) (m : Option Nat) :
    Renamed σ { capacity := capacity, metatable := m }
      { capacity := capacity, metatable := m.map σ.table } where
  array := by simp
  slots := by simp
  index k := by simp
  capacity := rfl
  metatable := rfl

/-- The entry after that of a key which has a slot. -/
def afterSlot (t : Table) (k : Key) : Following :=
  match t.index[k]? with
  | some n => t.fromSlot (n + 1)
  | none => .invalid

/-- A table in which a key outside of the array has got a value. -/
def setSlot (t : Table) (k : Key) (v : Value) : Table :=
  match t.index[k]? with
  | some n => { t with slots := t.slots.set! n (k, v) }
  | none => if v.isNil then t else t.add k v

namespace Renamed

variable (h : t.Renamed σ t')

include h

/-! ### Readings -/

theorem size_array : t'.array.size = t.array.size := by rw [h.array, Array.size_map]

theorem size_slots : t'.slots.size = t.slots.size := by rw [h.slots, Array.size_map]

theorem isEmpty_slots : t'.slots.isEmpty = t.slots.isEmpty := by
  rw [Array.isEmpty, Array.isEmpty, h.size_slots]

theorem arrayIndex? (i : Int64) : t'.arrayIndex? i = t.arrayIndex? i := by
  unfold Table.arrayIndex?
  rw [h.size_array]

theorem getSlot (k : Key) : t'.getSlot (σ.key k) = σ.value (t.getSlot k) := by
  unfold Table.getSlot
  rw [h.index]
  cases t.index[k]? with
  | none => rfl
  | some n =>
    dsimp only
    rw [h.slots, Array.getElem?_map]
    cases t.slots[n]? <;> rfl

theorem getInt (i : Int64) : t'.getInt i = σ.value (t.getInt i) := by
  unfold Table.getInt
  rw [h.arrayIndex?]
  cases t.arrayIndex? i with
  | some n =>
    dsimp only
    rw [h.array, Array.getElem?_map]
    cases t.array[n]? <;> rfl
  | none =>
    dsimp only
    rw [h.isEmpty_slots]
    split
    · rfl
    · exact h.getSlot (.int i)

theorem get (k : Key) : t'.get (σ.key k) = σ.value (t.get k) := by
  have hslot : (if t'.slots.isEmpty then Value.nil else t'.getSlot (σ.key k)) =
      σ.value (if t.slots.isEmpty then Value.nil else t.getSlot k) := by
    rw [h.isEmpty_slots]
    split
    · rfl
    · exact h.getSlot k
  cases k with
  | int i => exact h.getInt i
  | _ => exact hslot

theorem getValue (v : Value) : t'.getValue (σ.value v) = σ.value (t.getValue v) := by
  unfold Table.getValue
  rw [σ.toKey?_value]
  cases v.toKey? with
  | none => rfl
  | some k => exact h.get k

theorem isNil_getInt (i : Int64) : (t'.getInt i).isNil = (t.getInt i).isNil := by
  rw [h.getInt, σ.isNil_value]

theorem arrayBorder (fuel i j : Nat) :
    Table.arrayBorder t'.array fuel i j = Table.arrayBorder t.array fuel i j := by
  induction fuel generalizing i j with
  | zero => rfl
  | succ fuel ih =>
    simp only [Table.arrayBorder, ih]
    rw [h.array, getElem!_map_value, σ.isNil_value]

theorem keyBorder (fuel i j : Nat) : t'.keyBorder fuel i j = t.keyBorder fuel i j := by
  induction fuel generalizing i j with
  | zero => rfl
  | succ fuel ih => simp only [Table.keyBorder, ih, h.isNil_getInt]

theorem borderAbove (fuel i : Nat) : t'.borderAbove fuel i = t.borderAbove fuel i := by
  induction fuel generalizing i with
  | zero => rfl
  | succ fuel ih => simp only [Table.borderAbove, ih, h.isNil_getInt, h.keyBorder]

theorem isNil_array (i : Nat) : (t'.array[i]!).isNil = (t.array[i]!).isNil := by
  rw [h.array, getElem!_map_value, σ.isNil_value]

theorem length : t'.length = t.length := by
  simp only [Table.length, h.size_array, h.isEmpty_slots, h.isNil_getInt, h.arrayBorder,
    h.borderAbove, h.isNil_array]

theorem fromSlot (n : Nat) : t'.fromSlot n = σ.following (t.fromSlot n) := by
  fun_induction Table.fromSlot t n with
  | case1 n hlt e hnil ih =>
    rw [Table.fromSlot, dif_pos (h.size_slots ▸ hlt)]
    simp only [h.slots, Array.getElem_map, Renaming.snd_entry, Renaming.isNil_value]
    rw [if_pos hnil]
    exact ih
  | case2 n hlt e hnil =>
    rw [Table.fromSlot, dif_pos (h.size_slots ▸ hlt)]
    simp only [h.slots, Array.getElem_map, Renaming.snd_entry, Renaming.isNil_value]
    rw [if_neg hnil]
    rfl
  | case3 n hge =>
    rw [Table.fromSlot, dif_neg (h.size_slots ▸ hge)]
    rfl

theorem fromArray (n : Nat) : t'.fromArray n = σ.following (t.fromArray n) := by
  fun_induction Table.fromArray t n with
  | case1 n hlt v hnil ih =>
    rw [Table.fromArray, dif_pos (h.size_array ▸ hlt)]
    simp only [h.array, Array.getElem_map, Renaming.isNil_value]
    rw [if_pos hnil]
    exact ih
  | case2 n hlt v hnil =>
    rw [Table.fromArray, dif_pos (h.size_array ▸ hlt)]
    simp only [h.array, Array.getElem_map, Renaming.isNil_value]
    rw [if_neg hnil]
    rfl
  | case3 n hge =>
    rw [Table.fromArray, dif_neg (h.size_array ▸ hge)]
    exact h.fromSlot 0

theorem after (k : Option Key) : t'.after (k.map σ.key) = σ.following (t.after k) := by
  have hslot (k : Key) : t'.afterSlot (σ.key k) = σ.following (t.afterSlot k) := by
    unfold afterSlot
    rw [h.index]
    cases t.index[k]? with
    | none => rfl
    | some n => exact h.fromSlot (n + 1)
  cases k with
  | none => exact h.fromArray 0
  | some k =>
    cases k with
    | int i =>
      simp only [Table.after, Option.map_some, Renaming.key_int, h.arrayIndex?]
      cases t.arrayIndex? i with
      | none => exact hslot (.int i)
      | some n => exact h.fromArray (n + 1)
    | _ => exact hslot _

theorem entries : t'.entries = t.entries.map σ.entry := by
  simp only [Table.entries, List.map_append, h.size_array]
  congr 1
  · rw [List.map_filterMap]
    congr 1
    funext i
    rw [h.array, getElem!_map_value, σ.isNil_value]
    split <;> rfl
  · rw [h.slots, Array.toList_map, List.filter_map]
    congr 1
    exact List.filter_congr fun e _ => by simp

theorem keyBins (k : Key) : t'.keyBins (σ.key k) = t.keyBins k := by
  unfold Table.keyBins
  rw [Nat.fold_congr h.size_array]
  simp only [h.isNil_array, countKey_key, h.slots, Array.foldl_map, Renaming.fst_entry,
    Renaming.snd_entry, Renaming.isNil_value]

theorem count : t'.count = t.count := by
  simp only [Table.count, h.array, h.slots, Array.foldl_map, Renaming.snd_entry,
    Renaming.isNil_value]

/-! ### Writes -/

theorem setArray (n : Nat) (v : Value) :
    Renamed σ { t with array := t.array.set! n v }
    { t' with array := t'.array.set! n (σ.value v) } where
  array := by simp only [Array.set!_eq_setIfInBounds, h.array, Array.map_setIfInBounds]
  slots := h.slots
  index := h.index
  capacity := h.capacity
  metatable := h.metatable

theorem setSlot (n : Nat) (k : Key) (v : Value) :
    Renamed σ { t with slots := t.slots.set! n (k, v) }
      { t' with slots := t'.slots.set! n (σ.key k, σ.value v) } where
  array := h.array
  slots := by
    simp only [Array.set!_eq_setIfInBounds, h.slots, Array.map_setIfInBounds]
    rfl
  index := h.index
  capacity := h.capacity
  metatable := h.metatable

theorem pushSlot (k : Key) (v : Value) :
    Renamed σ { t with index := t.index.insert k t.slots.size, slots := t.slots.push (k, v) }
      { t' with
        index := t'.index.insert (σ.key k) t'.slots.size
        slots := t'.slots.push (σ.key k, σ.value v) } where
  array := h.array
  slots := by
    simp only [h.slots, Array.map_push]
    rfl
  index l := by
    simp only [Std.HashMap.getElem?_insert, beq_iff_eq, σ.key_injective.eq_iff, h.index,
      h.size_slots]
  capacity := h.capacity
  metatable := h.metatable

theorem withMetatable (m : Option Nat) :
    Renamed σ { t with metatable := m } { t' with metatable := m.map σ.table } :=
  ⟨h.array, h.slots, h.index, h.capacity, rfl⟩

theorem place (k : Key) (v : Value) : (t.place k v).Renamed σ (t'.place (σ.key k) (σ.value v)) := by
  cases k with
  | int i =>
    simp only [Table.place, Renaming.key_int, h.arrayIndex?]
    cases t.arrayIndex? i with
    | none => exact h.pushSlot (.int i) v
    | some n => exact h.setArray n v
  | _ => exact h.pushSlot _ v

/-- Entries of the slots are moved, in their order. -/
theorem foldl_place (es : List (Key × Value)) :
    (es.foldl (fun (u : Table) e => if e.2.isNil then u else u.place e.1 e.2) t).Renamed σ
      ((es.map σ.entry).foldl (fun (u : Table) e => if e.2.isNil then u else u.place e.1 e.2)
      t') := by
  induction es generalizing t t' with
  | nil => exact h
  | cons e es ih =>
    rw [List.map_cons, List.foldl_cons, List.foldl_cons]
    simp only [Renaming.fst_entry, Renaming.snd_entry, Renaming.isNil_value]
    split
    · exact ih h
    · exact ih (h.place e.1 e.2)

/-- Entries of the array are moved, in their order. -/
theorem fold_place (a : Array Value) (n size : Nat) :
    (n.fold (fun i _ (u : Table) =>
      if (a[size + i]!).isNil then u else u.place (.int (Int64.ofNat (size + i + 1))) a[size + i]!)
      t).Renamed σ
    (n.fold (fun i _ (u : Table) =>
      if ((a.map σ.value)[size + i]!).isNil then u
      else u.place (.int (Int64.ofNat (size + i + 1))) (a.map σ.value)[size + i]!) t') := by
  induction n with
  | zero => exact h
  | succ n ih =>
    rw [Nat.fold_succ, Nat.fold_succ]
    simp only [getElem!_map_value, Renaming.isNil_value] at ih ⊢
    split
    · exact ih
    · exact ih.place _ _

theorem resize (size slots : Nat) : (t.resize size slots).Renamed σ (t'.resize size slots) := by
  have hstart (kept : Array Value) : Renamed σ
      { array := kept ++ Array.replicate (size - kept.size) .nil
        capacity := slotCapacity slots, metatable := t.metatable }
      { array := kept.map σ.value ++ Array.replicate (size - kept.size) .nil
        capacity := slotCapacity slots, metatable := t.metatable.map σ.table } :=
    { array := by simp, slots := by simp, index := by simp, capacity := rfl, metatable := rfl }
  unfold Table.resize
  dsimp only
  rw [Nat.fold_congr (congrArg (· - size) h.size_array), h.array, h.slots, h.metatable]
  refine fold_place ?_ t.array _ _
  have hkept : (t.array.map σ.value).extract 0 size = (t.array.extract 0 size).map σ.value := by
    apply Array.ext_getElem?
    intro i
    simp only [Array.getElem?_extract, Array.getElem?_map, Array.size_map]
    split <;> rfl
  rw [← Array.foldl_toList, ← Array.foldl_toList, Array.toList_map, hkept, Array.size_map]
  exact (hstart (t.array.extract 0 size)).foldl_place t.slots.toList

theorem add (k : Key) (v : Value) : (t.add k v).Renamed σ (t'.add (σ.key k) (σ.value v)) := by
  unfold Table.add
  rw [h.size_slots, h.capacity, h.keyBins, h.count]
  split
  · exact h.place k v
  · exact (h.resize _ _).place k v

theorem set (k : Key) (v : Value) : (t.set k v).Renamed σ (t'.set (σ.key k) (σ.value v)) := by
  have hslot (k : Key) : (t.setSlot k v).Renamed σ (t'.setSlot (σ.key k) (σ.value v)) := by
    unfold Table.setSlot
    rw [h.index, σ.isNil_value]
    cases t.index[k]? with
    | some n => exact h.setSlot n k v
    | none =>
      dsimp only
      split
      · exact h
      · exact h.add k v
  cases k with
  | int i =>
    simp only [Table.set, Renaming.key_int, h.arrayIndex?]
    cases t.arrayIndex? i with
    | none => exact hslot (.int i)
    | some n => exact h.setArray n v
  | _ => exact hslot _

/-- One value after the other is written. -/
theorem setFrom (n : Nat) (vs : List Value) :
    (t.setFrom n vs).Renamed σ (t'.setFrom n (σ.values vs)) := by
  induction vs generalizing t t' n with
  | nil => exact h
  | cons v vs ih => exact ih (h.set (.int _) v) (n + 1)

end Renamed

end Table

end StoryPack.Script
