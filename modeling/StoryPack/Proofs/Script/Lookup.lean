/-
Looking up what has been written into a raw table.

A table is sound when its index agrees with its slots and the integers of its
array have no slots.  A write to a sound table changes what stands under its own
key and nothing else, even when the table is laid out anew.

* `Table.Sound` — the index and the slots of a table agree;
* `Table.Sound.place`, `Table.Sound.resize` — an entry put into its place, and a
  new layout;
* `Table.Sound.set`, `Table.get_set` — a write.
-/
import StoryPack.Proofs.Association
import StoryPack.Proofs.Script.Table

namespace StoryPack.Script.Table

/-- The place of a key in the array, if it lies there. -/
def arrayPlace? (t : Table) : Key → Option Nat
  | .int i => t.arrayIndex? i
  | _ => none

/-- The index of a table agrees with its slots, and the integers of its array have no slots. -/
structure Sound (t : Table) : Prop where
  slot : ∀ {k : Key} {n : Nat}, t.index[k]? = some n → ∃ v, t.slots[n]? = some (k, v)
  index : ∀ {k : Key} {n : Nat} {v : Value}, t.slots[n]? = some (k, v) → t.index[k]? = some n
  apart : ∀ {k : Key} {n : Nat}, t.arrayPlace? k = some n → t.index[k]? = none
  bound : t.array.size < 0x8000000000000000

/-- The value of a key, in the array or in a slot. -/
def find (t : Table) (k : Key) : Value :=
  match t.arrayPlace? k with
  | some n => (t.array[n]?).getD .nil
  | none => t.getSlot k

variable {t u : Table}

theorem Sound.getSlot_of_isEmpty (h : Sound t) (hempty : t.slots.isEmpty) (k : Key) :
    t.getSlot k = .nil := by
  unfold getSlot
  split
  · rename_i n hn
    obtain ⟨v, hv⟩ := h.slot hn
    rw [Array.isEmpty_iff.mp hempty] at hv
    cases hv
  · rfl

theorem Sound.get_eq_find (h : Sound t) (k : Key) : t.get k = t.find k := by
  unfold get getInt find
  cases k with
  | int i =>
    simp only [arrayPlace?]
    cases t.arrayIndex? i with
    | some n => rfl
    | none =>
      dsimp only
      split
      · exact (h.getSlot_of_isEmpty ‹_› _).symm
      · rfl
  | _ =>
    dsimp only [arrayPlace?]
    split
    · exact (h.getSlot_of_isEmpty ‹_› _).symm
    · rfl

theorem arrayPlace?_eq_some_iff {k : Key} {n : Nat} (ht : t.array.size < 0x8000000000000000) :
    t.arrayPlace? k = some n ↔ k = .int (Int64.ofNat (n + 1)) ∧ n < t.array.size := by
  cases k with
  | int i =>
    simp only [arrayPlace?, arrayIndex?, Key.int.injEq]
    constructor
    · intro h
      split at h
      · rename_i hpos
        split at h
        · cases h
          have hi : 0 < i.toNatClampNeg := (Int64.toNatClampNeg_pos_iff i).mpr hpos
          refine ⟨?_, ‹_›⟩
          rw [Nat.sub_add_cancel hi]
          exact (Int64.ofNat_toNatClampNeg i (Int64.le_of_lt hpos)).symm
        · cases h
      · cases h
    · rintro ⟨rfl, hn⟩
      have hclamp : (Int64.ofNat (n + 1)).toNatClampNeg = n + 1 :=
        Int64.toNatClampNeg_ofNat_of_lt (by omega)
      have hpos : 0 < Int64.ofNat (n + 1) := by
        rw [← Int64.toNatClampNeg_pos_iff, hclamp]
        omega
      rw [if_pos hpos, hclamp]
      simp [hn]
  | _ => simp [arrayPlace?]

theorem arrayPlace?_congr (h : u.array.size = t.array.size) (k : Key) :
    u.arrayPlace? k = t.arrayPlace? k := by
  cases k <;> simp [arrayPlace?, arrayIndex?, h]

theorem getSlot_of_vacant {k : Key} (h : t.index[k]? = none) : t.getSlot k = .nil := by
  simp [getSlot, h]

theorem getSlot_of_slot {k : Key} {n : Nat} {v : Value} (h : t.index[k]? = some n)
    (hv : t.slots[n]? = some (k, v)) : t.getSlot k = v := by
  simp [getSlot, h, hv]

/-! ### Putting an entry into its place -/

/-- A value written into the array. -/
theorem Sound.setArray (h : Sound t) (n : Nat) (v : Value) :
    Sound { t with array := t.array.set! n v } where
  slot := h.slot
  index := h.index
  apart hk := h.apart ((arrayPlace?_congr (by simp) _).symm.trans hk)
  bound := by simpa using h.bound

theorem Sound.find_setArray (h : Sound t) {k : Key} {n : Nat} (hk : t.arrayPlace? k = some n)
    (v : Value) (k' : Key) :
    find { t with array := t.array.set! n v } k' = if k' = k then v else t.find k' := by
  obtain ⟨rfl, hn⟩ := (arrayPlace?_eq_some_iff h.bound).mp hk
  have hplace : arrayPlace? { t with array := t.array.set! n v } k' = t.arrayPlace? k' :=
    arrayPlace?_congr (by simp) k'
  unfold find
  rw [hplace]
  cases hk' : t.arrayPlace? k' with
  | none =>
    have hne : k' ≠ .int (Int64.ofNat (n + 1)) := by
      rintro rfl
      rw [hk] at hk'
      cases hk'
    rw [if_neg hne]
    rfl
  | some n' =>
    obtain ⟨rfl, hn'⟩ := (arrayPlace?_eq_some_iff h.bound).mp hk'
    by_cases heq : n' = n
    · subst heq
      simp [hn]
    · have hne : Key.int (Int64.ofNat (n' + 1)) ≠ .int (Int64.ofNat (n + 1)) := by
        intro hint
        have h1 := (arrayPlace?_eq_some_iff h.bound).mpr ⟨rfl, hn'⟩
        rw [hint, hk] at h1
        exact heq (Option.some.inj h1).symm
      rw [if_neg hne]
      simp [Ne.symm heq]

/-- A new slot for a key that has none. -/
def pushSlot (t : Table) (k : Key) (v : Value) : Table :=
  { t with index := t.index.insert k t.slots.size, slots := t.slots.push (k, v) }

theorem place_eq (t : Table) (k : Key) (v : Value) :
    t.place k v = match t.arrayPlace? k with
      | some n => { t with array := t.array.set! n v }
      | none => t.pushSlot k v := by
  unfold place arrayPlace?
  cases k with
  | int i =>
    dsimp only
    cases t.arrayIndex? i <;> rfl
  | _ => rfl

theorem index_pushSlot (t : Table) (k : Key) (v : Value) (k' : Key) :
    (t.pushSlot k v).index[k']? = if k = k' then some t.slots.size else t.index[k']? := by
  simp only [pushSlot, Std.HashMap.getElem?_insert, beq_iff_eq]

theorem Sound.pushSlot (h : Sound t) {k : Key} (hvacant : t.index[k]? = none)
    (hk : t.arrayPlace? k = none) (v : Value) : Sound (t.pushSlot k v) where
  slot {k' n} hn := by
    rw [index_pushSlot] at hn
    split at hn
    · cases hn
      exact ⟨v, by simp [Table.pushSlot, ‹k = k'›]⟩
    · obtain ⟨w, hw⟩ := h.slot hn
      have hlt := (Array.getElem?_eq_some_iff.mp hw).1
      refine ⟨w, ?_⟩
      rw [Table.pushSlot, Array.getElem?_push_lt hlt, ← Array.getElem?_eq_getElem hlt, hw]
  index {k' n w} hn := by
    rw [index_pushSlot]
    simp only [Table.pushSlot, Array.getElem?_push] at hn
    split at hn
    · cases hn
      simp [‹n = t.slots.size›]
    · have hindex := h.index hn
      have hne : k ≠ k' := by
        rintro rfl
        rw [hvacant] at hindex
        cases hindex
      rw [if_neg hne, hindex]
  apart {k' n} hn := by
    rw [index_pushSlot]
    have hn' : t.arrayPlace? k' = some n := hn
    have hne : k ≠ k' := by
      rintro rfl
      rw [hk] at hn'
      cases hn'
    rw [if_neg hne]
    exact h.apart hn'
  bound := h.bound

theorem Sound.find_pushSlot (h : Sound t) {k : Key} (hk : t.arrayPlace? k = none) (v : Value)
    (k' : Key) : (t.pushSlot k v).find k' = if k' = k then v else t.find k' := by
  have hplace : (t.pushSlot k v).arrayPlace? k' = t.arrayPlace? k' := rfl
  unfold find
  rw [hplace]
  by_cases heq : k' = k
  · subst heq
    rw [hk, if_pos rfl]
    exact getSlot_of_slot (by rw [index_pushSlot, if_pos rfl]) (by simp [Table.pushSlot])
  · rw [if_neg heq]
    cases t.arrayPlace? k' with
    | some n => rfl
    | none =>
      unfold getSlot
      rw [index_pushSlot, if_neg (Ne.symm heq)]
      cases hn : t.index[k']? with
      | none => rfl
      | some n =>
        obtain ⟨w, hw⟩ := h.slot hn
        have hlt := (Array.getElem?_eq_some_iff.mp hw).1
        simp only [Table.pushSlot, Array.getElem?_push_lt hlt]
        rw [Array.getElem?_eq_getElem hlt]

/-- An entry whose key has no slot is put into its place. -/
theorem Sound.place (h : Sound t) {k : Key} (hvacant : t.index[k]? = none) (v : Value) :
    Sound (t.place k v) ∧ ∀ k', (t.place k v).find k' = if k' = k then v else t.find k' := by
  rw [place_eq]
  cases hk : t.arrayPlace? k with
  | some n => exact ⟨h.setArray n v, h.find_setArray hk v⟩
  | none => exact ⟨h.pushSlot hvacant hk v, h.find_pushSlot hk v⟩

theorem index_place {k k' : Key} (hne : k ≠ k') (v : Value) :
    (t.place k v).index[k']? = t.index[k']? := by
  rw [place_eq]
  cases t.arrayPlace? k with
  | some n => rfl
  | none => rw [index_pushSlot, if_neg hne]

/-- Puts entries into their places. -/
def placeAll (t : Table) (es : List (Key × Value)) : Table :=
  es.foldl (fun u e => u.place e.1 e.2) t

/-- Entries with different keys, none of which has a slot yet, are put into their places. -/
theorem Sound.placeAll (h : Sound t) {es : List (Key × Value)}
    (hvacant : ∀ e ∈ es, t.index[e.1]? = none) (hkeys : (es.map (·.1)).Pairwise (· ≠ ·)) :
    Sound (t.placeAll es) ∧ ∀ k, (t.placeAll es).find k = (es.lookup k).getD (t.find k) := by
  induction es generalizing t with
  | nil => exact ⟨h, fun k => rfl⟩
  | cons e rest ih =>
    obtain ⟨k₀, v₀⟩ := e
    rw [List.map_cons, List.pairwise_cons] at hkeys
    obtain ⟨hplace, hfind⟩ := h.place (hvacant _ List.mem_cons_self) v₀
    have hrest : ∀ e ∈ rest, (t.place k₀ v₀).index[e.1]? = none := fun e he => by
      rw [index_place (hkeys.1 _ (List.mem_map_of_mem he))]
      exact hvacant e (List.mem_cons_of_mem _ he)
    obtain ⟨hsound, hall⟩ := ih hplace hrest hkeys.2
    refine ⟨hsound, fun k => ?_⟩
    change ((t.place k₀ v₀).placeAll rest).find k = _
    rw [hall, hfind, List.lookup_cons]
    by_cases hk : k = k₀
    · -- no later entry has the same key
      subst hk
      have hnone : rest.lookup k = none := by
        rw [List.lookup_eq_none_iff]
        intro e he
        simpa using hkeys.1 _ (List.mem_map_of_mem he)
      simp [hnone]
    · simp [hk, beq_eq_false_iff_ne.mpr hk]

/-! ### A new layout -/

/-- The entries of the slots. -/
def slotEntries (t : Table) : List (Key × Value) := t.slots.toList.filter fun e => !e.2.isNil

/-- The entries of the array from a place on. -/
def arrayEntries (t : Table) (size count : Nat) : List (Key × Value) :=
  (List.range count).filterMap fun i =>
    if (t.array[size + i]!).isNil then none
    else some (.int (Int64.ofNat (size + i + 1)), t.array[size + i]!)

/-- A table of a new size with the part of the array that fits into it. -/
def emptied (t : Table) (size slots : Nat) : Table :=
  { array := t.array.extract 0 size ++ Array.replicate (size - (t.array.extract 0 size).size) .nil
    capacity := slotCapacity slots, metatable := t.metatable }

theorem foldl_place (es : List (Key × Value)) (u : Table) :
    es.foldl (fun (u : Table) e => if e.2.isNil then u else u.place e.1 e.2) u =
      u.placeAll (es.filter fun e => !e.2.isNil) := by
  induction es generalizing u with
  | nil => rfl
  | cons e rest ih =>
    rw [List.foldl_cons, ih]
    cases he : e.2.isNil <;> simp [he, placeAll]

theorem fold_place (t : Table) (size : Nat) (u : Table) (count : Nat) :
    count.fold (fun i _ (u : Table) => if (t.array[size + i]!).isNil then u
      else u.place (.int (Int64.ofNat (size + i + 1))) t.array[size + i]!) u =
      u.placeAll (t.arrayEntries size count) := by
  induction count with
  | zero => rfl
  | succ n ih =>
    rw [Nat.fold_succ, ih, arrayEntries, arrayEntries, List.range_succ, List.filterMap_append,
      placeAll, placeAll, List.foldl_append]
    by_cases hnil : (t.array[size + n]!).isNil <;> simp [hnil]

theorem resize_eq (t : Table) (size slots : Nat) :
    t.resize size slots = (t.emptied size slots).placeAll
      (t.slotEntries ++ t.arrayEntries size (t.array.size - size)) := by
  rw [placeAll, List.foldl_append]
  change _ = ((t.emptied size slots).placeAll t.slotEntries).placeAll _
  rw [← fold_place, slotEntries, ← foldl_place, Array.foldl_toList]
  rfl

theorem size_emptied (t : Table) (size slots : Nat) : (t.emptied size slots).array.size = size := by
  simp only [emptied, Array.size_append, Array.size_extract, Array.size_replicate]
  omega

theorem getElem_emptied (t : Table) {size n : Nat} (slots : Nat) (hn : n < size) :
    ((t.emptied size slots).array[n]?).getD .nil = (t.array[n]?).getD .nil := by
  simp only [emptied]
  by_cases hlt : n < t.array.size
  · rw [Array.getElem?_append_left (by simp; omega), Array.getElem?_extract_of_lt (by omega)]
    simp [hlt]
  · rw [Array.getElem?_append_right (by simp; omega), Array.getElem?_replicate]
    rw [Array.getElem?_eq_none (Nat.le_of_not_lt hlt)]
    split <;> rfl

theorem sound_emptied (t : Table) {size : Nat} (slots : Nat) (hsize : size < 0x8000000000000000) :
    Sound (t.emptied size slots) where
  slot hn := by simp [emptied] at hn
  index hn := by simp [emptied] at hn
  apart _ := by simp [emptied]
  bound := by rwa [size_emptied]

theorem mem_arrayEntries_iff (ht : t.array.size < 0x8000000000000000) {size : Nat} {k : Key}
    {v : Value} :
    (k, v) ∈ t.arrayEntries size (t.array.size - size) ↔
      ∃ n, size ≤ n ∧ t.arrayPlace? k = some n ∧ t.array[n]? = some v ∧ v.isNil = false := by
  simp only [arrayEntries, List.mem_filterMap, List.mem_range, arrayPlace?_eq_some_iff ht]
  constructor
  · rintro ⟨i, hi, h⟩
    have hlt : size + i < t.array.size := by omega
    rw [getElem!_pos t.array (size + i) hlt] at h
    split at h
    · cases h
    · cases h
      refine ⟨size + i, Nat.le_add_right _ _, ⟨rfl, hlt⟩, Array.getElem?_eq_getElem hlt, ?_⟩
      exact Bool.eq_false_iff.mpr ‹_›
  · rintro ⟨n, hle, ⟨rfl, hlt⟩, hv, hnil⟩
    obtain ⟨i, rfl⟩ := Nat.exists_eq_add_of_le hle
    refine ⟨i, by omega, ?_⟩
    rw [Array.getElem?_eq_getElem hlt] at hv
    rw [getElem!_pos t.array (size + i) hlt, Option.some.inj hv]
    simp [hnil]

theorem Sound.mem_slotEntries_iff (h : Sound t) {k : Key} {v : Value} :
    (k, v) ∈ t.slotEntries ↔
      ∃ n, t.index[k]? = some n ∧ t.slots[n]? = some (k, v) ∧ v.isNil = false := by
  simp only [slotEntries, List.mem_filter, Bool.not_eq_true']
  constructor
  · rintro ⟨hmem, hnil⟩
    obtain ⟨n, hn⟩ := Array.mem_iff_getElem?.mp (Array.mem_def.mpr hmem)
    exact ⟨n, h.index hn, hn, hnil⟩
  · rintro ⟨n, -, hn, hnil⟩
    exact ⟨Array.mem_def.mp (Array.mem_of_getElem? hn), hnil⟩

theorem Sound.pairwise_slotEntries (h : Sound t) :
    (t.slotEntries.map (·.1)).Pairwise (· ≠ ·) := by
  have hslots : (t.slots.toList.map (·.1)).Pairwise (· ≠ ·) := by
    rw [List.pairwise_iff_getElem]
    intro i j hi hj hlt heq
    simp only [List.length_map, Array.length_toList, List.getElem_map, Array.getElem_toList]
      at hi hj heq
    have h1 := h.index (k := t.slots[i].1) (n := i) (v := t.slots[i].2)
      (Array.getElem?_eq_getElem hi)
    have h2 := h.index (k := t.slots[j].1) (n := j) (v := t.slots[j].2)
      (Array.getElem?_eq_getElem hj)
    rw [heq, h2] at h1
    have := Option.some.inj h1
    omega
  exact hslots.sublist (List.filter_sublist.map _)

theorem pairwise_arrayEntries (ht : t.array.size < 0x8000000000000000) (size : Nat) :
    ((t.arrayEntries size (t.array.size - size)).map (·.1)).Pairwise (· ≠ ·) := by
  rw [arrayEntries, List.pairwise_map, List.pairwise_filterMap]
  refine List.Pairwise.imp_of_mem ?_ List.pairwise_lt_range
  intro i j hi hj hlt e he e' he'
  rw [List.mem_range] at hi hj
  split at he <;> cases he
  split at he' <;> cases he'
  intro heq
  simp only [Key.int.injEq] at heq
  have h1 := (arrayPlace?_eq_some_iff ht).mpr
    ⟨rfl, show size + i < t.array.size by omega⟩
  rw [heq, (arrayPlace?_eq_some_iff ht).mpr ⟨rfl, show size + j < t.array.size by omega⟩] at h1
  have := Option.some.inj h1
  omega

/-- The entries that a new layout moves: those outside the part of the array that is kept. -/
theorem Sound.mem_moved_iff (h : Sound t) {size : Nat} {k : Key} {v : Value} :
    (k, v) ∈ t.slotEntries ++ t.arrayEntries size (t.array.size - size) ↔
      t.find k = v ∧ v.isNil = false ∧ ∀ n, t.arrayPlace? k = some n → size ≤ n := by
  rw [List.mem_append, h.mem_slotEntries_iff, mem_arrayEntries_iff h.bound]
  unfold find
  cases hk : t.arrayPlace? k with
  | some n =>
    obtain ⟨-, hn⟩ := (arrayPlace?_eq_some_iff h.bound).mp hk
    dsimp only
    constructor
    · rintro (⟨m, hm, -⟩ | ⟨m, hle, hm, hv, hnil⟩)
      · rw [h.apart hk] at hm
        cases hm
      · cases hm
        refine ⟨by rw [hv]; rfl, hnil, ?_⟩
        rintro m ⟨⟩
        exact hle
    · rintro ⟨hv, hnil, hle⟩
      rw [Array.getElem?_eq_getElem hn] at hv
      have hget : t.array[n]? = some v :=
        (Array.getElem?_eq_getElem hn).trans (congrArg some hv)
      exact .inr ⟨n, hle n rfl, rfl, hget, hnil⟩
  | none =>
    unfold getSlot
    cases hindex : t.index[k]? with
    | none =>
      dsimp only
      constructor
      · rintro (⟨m, hm, -⟩ | ⟨m, -, hm, -⟩) <;> cases hm
      · rintro ⟨rfl, hnil, -⟩
        cases hnil
    | some n =>
      obtain ⟨w, hw⟩ := h.slot hindex
      simp [hw]

theorem Sound.find_emptied (h : Sound t) {size : Nat} (slots : Nat)
    (hsize : size < 0x8000000000000000) (k : Key) :
    (∃ n, n < size ∧ t.arrayPlace? k = some n) ∧ (t.emptied size slots).find k = t.find k ∨
      (∀ n, t.arrayPlace? k = some n → size ≤ n) ∧ (t.emptied size slots).find k = .nil := by
  have hsound := sound_emptied t slots hsize
  cases hplace : (t.emptied size slots).arrayPlace? k with
  | some n =>
    obtain ⟨rfl, hn⟩ := (arrayPlace?_eq_some_iff hsound.bound).mp hplace
    rw [size_emptied] at hn
    have hfind : (t.emptied size slots).find (.int (Int64.ofNat (n + 1))) =
        (t.array[n]?).getD .nil := by
      rw [find, hplace]
      exact getElem_emptied t slots hn
    by_cases hlt : n < t.array.size
    · have hk := (arrayPlace?_eq_some_iff h.bound).mpr ⟨rfl, hlt⟩
      refine .inl ⟨⟨n, hn, hk⟩, ?_⟩
      rw [hfind, find, hk]
    · -- a place that the old array did not have is empty in the new one
      refine .inr ⟨fun m hm => ?_, ?_⟩
      · obtain ⟨heq, hm'⟩ := (arrayPlace?_eq_some_iff h.bound).mp hm
        have hplace' := (arrayPlace?_eq_some_iff hsound.bound).mpr
          ⟨heq, show m < (t.emptied size slots).array.size by rw [size_emptied]; omega⟩
        rw [hplace] at hplace'
        cases hplace'
        exact absurd hm' hlt
      · rw [hfind, Array.getElem?_eq_none (Nat.le_of_not_lt hlt)]
        rfl
  | none =>
    refine .inr ⟨fun m hm => Nat.le_of_not_lt fun hlt => ?_, ?_⟩
    · obtain ⟨heq, -⟩ := (arrayPlace?_eq_some_iff h.bound).mp hm
      have hplace' := (arrayPlace?_eq_some_iff hsound.bound).mpr
        ⟨heq, show m < (t.emptied size slots).array.size by rwa [size_emptied]⟩
      rw [hplace] at hplace'
      cases hplace'
    · rw [find, hplace]
      exact getSlot_of_vacant (by simp [emptied])

/-- A new layout has the same entries in it. -/
theorem Sound.resize (h : Sound t) {size : Nat} (slots : Nat) (hsize : size < 0x8000000000000000) :
    Sound (t.resize size slots) ∧ ∀ k, (t.resize size slots).find k = t.find k := by
  rw [resize_eq]
  have hkeys : ((t.slotEntries ++ t.arrayEntries size (t.array.size - size)).map (·.1)).Pairwise
      (· ≠ ·) := by
    rw [List.map_append, List.pairwise_append]
    refine ⟨h.pairwise_slotEntries, pairwise_arrayEntries h.bound size, ?_⟩
    rintro k hk k' hk' rfl
    obtain ⟨⟨_, v⟩, hv, rfl⟩ := List.mem_map.mp hk
    obtain ⟨⟨_, v'⟩, hv', heq⟩ := List.mem_map.mp hk'
    cases heq
    -- the integers of the array have no slots
    obtain ⟨n, hn, -⟩ := h.mem_slotEntries_iff.mp hv
    obtain ⟨m, -, hm, -⟩ := (mem_arrayEntries_iff h.bound).mp hv'
    rw [h.apart hm] at hn
    cases hn
  obtain ⟨hsound, hfind⟩ := (sound_emptied t slots hsize).placeAll
    (fun e _ => by simp [emptied]) hkeys
  refine ⟨hsound, fun k => ?_⟩
  rw [hfind]
  rcases h.find_emptied slots hsize k with ⟨⟨n, hn, hk⟩, hkept⟩ | ⟨hmoved, hnil⟩
  · rw [hkept, Association.lookup_eq_none_of_not_mem]
    · rfl
    · intro v hv
      exact absurd ((h.mem_moved_iff.mp hv).2.2 n hk) (Nat.not_le_of_lt hn)
  · rw [hnil]
    cases hv : (t.find k).isNil with
    | false =>
      rw [Association.lookup_eq_some_of_mem hkeys (h.mem_moved_iff.mpr ⟨rfl, hv, hmoved⟩)]
      rfl
    | true =>
      rw [Association.lookup_eq_none_of_not_mem fun v hmem => ?_]
      · cases hfind : t.find k <;> simp_all [Value.isNil]
      · obtain ⟨rfl, hv', -⟩ := h.mem_moved_iff.mp hmem
        rw [hv] at hv'
        cases hv'

/-! ### Writing -/

theorem arraySize_go_lt (bins : Array Nat) (total : Nat) {fuel b a size count : Nat}
    (hfuel : fuel + b ≤ 62) (hsize : size < 0x4000000000000000) :
    (arraySize.go bins total fuel b a size count).1 < 0x4000000000000000 := by
  induction fuel generalizing b a size count with
  | zero => exact hsize
  | succ fuel ih =>
    have hb : b < 62 := by omega
    have hp : Nat.pow 2 b < Nat.pow 2 62 := Nat.pow_lt_pow_right (by decide) hb
    unfold arraySize.go
    dsimp only
    split
    · split
      · exact ih (by omega) hp
      · exact ih (by omega) hsize
    · exact hsize

theorem arraySize_lt (bins : Array Nat) : (arraySize bins).1 < 0x4000000000000000 :=
  arraySize_go_lt bins _ (Nat.le_refl 62) (by decide)

theorem index_resize_of_find (h : Sound t) {size : Nat} (slots : Nat) {k : Key}
    (hvacant : t.index[k]? = none) (hk : t.arrayPlace? k = none) :
    (t.resize size slots).index[k]? = none := by
  rw [resize_eq]
  have hall : ∀ e ∈ t.slotEntries ++ t.arrayEntries size (t.array.size - size), e.1 ≠ k := by
    rintro ⟨k', v⟩ he rfl
    rcases List.mem_append.mp he with he | he
    · obtain ⟨n, hn, -⟩ := h.mem_slotEntries_iff.mp he
      simp [hvacant] at hn
    · obtain ⟨n, -, hn, -⟩ := (mem_arrayEntries_iff h.bound).mp he
      simp [hk] at hn
  have hstart : (t.emptied size slots).index[k]? = none := by simp [emptied]
  generalize t.emptied size slots = u at hstart
  generalize t.slotEntries ++ t.arrayEntries size (t.array.size - size) = es at hall
  induction es generalizing u with
  | nil => exact hstart
  | cons e rest ih =>
    refine ih (u.place e.1 e.2) ?_ fun e he => hall e (List.mem_cons_of_mem _ he)
    rw [index_place (hall e List.mem_cons_self), hstart]

theorem Sound.add (h : Sound t) {k : Key} (hvacant : t.index[k]? = none)
    (hk : t.arrayPlace? k = none) (v : Value) :
    Sound (t.add k v) ∧ ∀ k', (t.add k v).find k' = if k' = k then v else t.find k' := by
  unfold Table.add
  split
  · exact h.place hvacant v
  · have hsize : (arraySize (t.keyBins k)).1 < 0x8000000000000000 :=
      Nat.lt_of_lt_of_le (arraySize_lt _) (by decide)
    obtain ⟨hsound, hfind⟩ :=
      h.resize (t.count + 1 - (arraySize (t.keyBins k)).2) hsize
    obtain ⟨hplace, hall⟩ := hsound.place (index_resize_of_find h _ hvacant hk) v
    exact ⟨hplace, fun k' => by rw [hall, hfind]⟩

theorem set_eq (t : Table) (k : Key) (v : Value) :
    t.set k v = match t.arrayPlace? k with
      | some n => { t with array := t.array.set! n v }
      | none =>
        match t.index[k]? with
        | some n => { t with slots := t.slots.set! n (k, v) }
        | none => if v.isNil then t else t.add k v := by
  unfold set arrayPlace?
  cases k <;> rfl

theorem Sound.setSlot (h : Sound t) {k : Key} {n : Nat} (hn : t.index[k]? = some n)
    (hk : t.arrayPlace? k = none) (v : Value) :
    Sound { t with slots := t.slots.set! n (k, v) } ∧
      ∀ k', find { t with slots := t.slots.set! n (k, v) } k' =
        if k' = k then v else t.find k' := by
  obtain ⟨w, hw⟩ := h.slot hn
  have hlt := (Array.getElem?_eq_some_iff.mp hw).1
  refine ⟨⟨fun {k' m} hm => ?_, fun {k' m w'} hm => ?_, h.apart, h.bound⟩, fun k' => ?_⟩
  · obtain ⟨w', hw'⟩ := h.slot hm
    by_cases heq : n = m
    · subst heq
      rw [hw] at hw'
      cases hw'
      exact ⟨v, by simp [hlt]⟩
    · exact ⟨w', by simp [heq, hw']⟩
  · by_cases heq : n = m
    · subst heq
      simp only [Array.set!_eq_setIfInBounds, Array.getElem?_setIfInBounds, hlt, if_true] at hm
      cases hm
      exact hn
    · simp only [Array.set!_eq_setIfInBounds, Array.getElem?_setIfInBounds, heq, if_false] at hm
      exact h.index hm
  · have hplace : arrayPlace? { t with slots := t.slots.set! n (k, v) } k' = t.arrayPlace? k' := rfl
    unfold find
    rw [hplace]
    by_cases heq : k' = k
    · subst heq
      rw [hk, if_pos rfl]
      exact getSlot_of_slot hn (by simp [hlt])
    · rw [if_neg heq]
      cases t.arrayPlace? k' with
      | some m => rfl
      | none =>
        simp only [getSlot]
        cases hm : t.index[k']? with
        | none => rfl
        | some m =>
          obtain ⟨w', hw'⟩ := h.slot hm
          have hne : n ≠ m := by
            rintro rfl
            rw [hw] at hw'
            cases hw'
            exact heq rfl
          simp [hne]

/-- A write changes what stands under its own key, and nothing else. -/
theorem Sound.set (h : Sound t) (k : Key) (v : Value) :
    Sound (t.set k v) ∧ ∀ k', (t.set k v).find k' = if k' = k then v else t.find k' := by
  rw [set_eq]
  cases hk : t.arrayPlace? k with
  | some n => exact ⟨h.setArray n v, h.find_setArray hk v⟩
  | none =>
    cases hn : t.index[k]? with
    | some n => exact h.setSlot hn hk v
    | none =>
      dsimp only
      split
      · -- there is nothing to remove
        refine ⟨h, fun k' => ?_⟩
        split
        · rename_i hnil heq
          rw [heq, find, hk]
          cases v <;> simp_all [Value.isNil, getSlot]
        · rfl
      · exact h.add hn hk v

theorem get_set (h : Sound t) (k : Key) (v : Value) (k' : Key) :
    (t.set k v).get k' = if k' = k then v else t.get k' := by
  rw [(h.set k v).1.get_eq_find, (h.set k v).2, h.get_eq_find]

theorem sound_empty (c : Nat) (m : Option Nat) : Sound { capacity := c, metatable := m } where
  slot hn := by simp at hn
  index hn := by simp at hn
  apart _ := by simp
  bound := by simp

/-- The metatable does not matter. -/
theorem Sound.withMetatable (h : Sound t) (m : Option Nat) : Sound { t with metatable := m } where
  slot := h.slot
  index := h.index
  apart := h.apart
  bound := h.bound

theorem maxArray_lt : maxArray < 0x8000000000000000 := by decide

theorem sound_sized (array slots : Nat) : Sound (sized array slots) where
  slot hn := by simp [sized] at hn
  index hn := by simp [sized] at hn
  apart _ := by simp [sized]
  bound := by
    have hle : min array maxArray ≤ maxArray := Nat.min_le_right _ _
    simp only [sized, Array.size_replicate]
    exact Nat.lt_of_le_of_lt hle maxArray_lt

theorem getValue_str (t : Table) (s : ByteArray) : t.getValue (.str s) = t.get (.str s) := rfl

@[simp] theorem get_empty (c : Nat) (m : Option Nat) (k : Key) :
    ({ capacity := c, metatable := m } : Table).get k = .nil := by
  have hslots : ({ capacity := c, metatable := m } : Table).slots.isEmpty := rfl
  rw [(sound_empty c m).get_eq_find, find]
  split
  · simp
  · exact (sound_empty c m).getSlot_of_isEmpty hslots k

end StoryPack.Script.Table
