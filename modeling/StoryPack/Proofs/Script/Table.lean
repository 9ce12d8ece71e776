/-
What raw tables hold.

A property of values that holds of everything in a table still holds of
everything after a write, however the table is laid out anew; so it holds of all
that is read.

* `Table.Holds` — all keys and values of a table have a property;
* `Table.Holds.set`, `Table.Holds.resize` — writes and new layouts keep it;
* `Table.Holds.get`, `Table.Holds.after`, `Table.Holds.entries` — what is read
  has it;
* `Table.metatable_set` — a write leaves the metatable alone.
-/
import StoryPack.Script.Table

namespace StoryPack.Script.Table

/-- All keys and values of a table have a property; so do the keys of removed entries. -/
structure Holds (P : Value → Prop) (t : Table) : Prop where
  array : ∀ v ∈ t.array, P v
  slots : ∀ e ∈ t.slots, P e.1.toValue ∧ P e.2

/-- A property of values that `nil` and the integers have. -/
structure Admits (P : Value → Prop) : Prop where
  nil : P .nil
  int : ∀ i, P (.int i)

variable {P : Value → Prop} {t : Table}

theorem holds_empty (c : Nat) (m : Option Nat) : Holds P { capacity := c, metatable := m } where
  array v hv := by simp at hv
  slots e he := by simp at he

theorem holds_sized (hP : Admits P) (array slots : Nat) : Holds P (sized array slots) where
  array v hv := by
    rw [sized, Array.mem_replicate] at hv
    exact hv.2 ▸ hP.nil
  slots e he := by simp [sized] at he

theorem Holds.mono {Q : Value → Prop} (h : Holds P t) (hPQ : ∀ v, P v → Q v) : Holds Q t where
  array v hv := hPQ v (h.array v hv)
  slots e he := ⟨hPQ _ (h.slots e he).1, hPQ _ (h.slots e he).2⟩

/-- Only the entries of a table matter. -/
theorem Holds.of_eq {u : Table} (h : Holds P t) (harray : u.array = t.array)
    (hslots : u.slots = t.slots) : Holds P u where
  array v hv := h.array v (harray ▸ hv)
  slots e he := h.slots e (hslots ▸ he)

theorem Holds.setArray (h : Holds P t) (n : Nat) {v : Value} (hv : P v) :
    Holds P { t with array := t.array.set! n v } where
  array w hw := by
    rcases Array.mem_or_eq_of_mem_setIfInBounds hw with hw | rfl
    · exact h.array w hw
    · exact hv
  slots := h.slots

theorem Holds.place (h : Holds P t) {k : Key} {v : Value} (hk : P k.toValue) (hv : P v) :
    Holds P (t.place k v) := by
  have hpush : Holds P
      { t with index := t.index.insert k t.slots.size, slots := t.slots.push (k, v) } := by
    refine ⟨h.array, fun e he => ?_⟩
    rcases Array.mem_push.mp he with he | rfl
    · exact h.slots e he
    · exact ⟨hk, hv⟩
  unfold Table.place
  split
  · split
    · exact h.setArray _ hv
    · exact hpush
  · exact hpush

theorem Holds.getElem! (h : Holds P t) (hP : Admits P) (i : Nat) : P t.array[i]! := by
  rw [getElem!_def]
  split
  · rename_i v hv
    exact h.array v (Array.mem_of_getElem? hv)
  · exact hP.nil

theorem holds_fold {u : Table} (hu : Holds P u) (n : Nat) {f : (i : Nat) → i < n → Table → Table}
    (hf : ∀ i hi u, Holds P u → Holds P (f i hi u)) : Holds P (n.fold f u) := by
  induction n with
  | zero => exact hu
  | succ n ih =>
    rw [Nat.fold_succ]
    exact hf n _ _ (ih fun i hi => hf i _)

/-- A new layout has the same entries. -/
theorem Holds.resize (h : Holds P t) (hP : Admits P) (size slots : Nat) :
    Holds P (t.resize size slots) := by
  have hstart : Holds P
      { array := t.array.extract 0 size ++
          Array.replicate (size - (t.array.extract 0 size).size) .nil
        capacity := slotCapacity slots, metatable := t.metatable } := by
    refine ⟨fun v hv => ?_, fun e he => by simp at he⟩
    rcases Array.mem_append.mp hv with hv | hv
    · obtain ⟨i, hi, rfl⟩ := Array.mem_extract_iff_getElem.mp hv
      exact h.array _ (Array.getElem_mem _)
    · exact (Array.mem_replicate.mp hv).2 ▸ hP.nil
  unfold Table.resize
  refine holds_fold ?_ _ fun i hi u hu => ?_
  · refine Array.foldl_induction (motive := fun _ u => Holds P u) hstart fun i u hu => ?_
    have he := h.slots _ (Array.getElem_mem i.isLt)
    split
    · exact hu
    · exact hu.place he.1 he.2
  dsimp only
  split
  · exact hu
  · exact hu.place (hP.int _) (h.getElem! hP _)

theorem Holds.add (h : Holds P t) (hP : Admits P) {k : Key} {v : Value} (hk : P k.toValue)
    (hv : P v) : Holds P (t.add k v) := by
  unfold Table.add
  split
  · exact h.place hk hv
  · exact (h.resize hP _ _).place hk hv

/-- A write keeps what holds of everything in a table and of the new entry. -/
theorem Holds.set (h : Holds P t) (hP : Admits P) {k : Key} {v : Value} (hk : P k.toValue)
    (hv : P v) : Holds P (t.set k v) := by
  unfold Table.set
  split
  · exact h.setArray _ hv
  · split
    · rename_i n _
      refine ⟨h.array, fun e he => ?_⟩
      rcases Array.mem_or_eq_of_mem_setIfInBounds he with he | rfl
      · exact h.slots e he
      · exact ⟨hk, hv⟩
    · split
      · exact h
      · exact h.add hP hk hv

theorem Holds.getSlot (h : Holds P t) (hP : Admits P) (k : Key) : P (t.getSlot k) := by
  unfold Table.getSlot
  split
  · rename_i n _
    cases hn : t.slots[n]? with
    | none => exact hP.nil
    | some e => exact (h.slots e (Array.mem_of_getElem? hn)).2
  · exact hP.nil

theorem Holds.getInt (h : Holds P t) (hP : Admits P) (i : Int64) : P (t.getInt i) := by
  unfold Table.getInt
  split
  · rename_i n _
    cases hn : t.array[n]? with
    | none => exact hP.nil
    | some v => exact h.array v (Array.mem_of_getElem? hn)
  · split
    · exact hP.nil
    · exact h.getSlot hP _

/-- What is read has the property. -/
theorem Holds.get (h : Holds P t) (hP : Admits P) (k : Key) : P (t.get k) := by
  unfold Table.get
  split
  · exact h.getInt hP _
  · split
    · exact hP.nil
    · exact h.getSlot hP _

theorem Holds.getValue (h : Holds P t) (hP : Admits P) (v : Value) : P (t.getValue v) := by
  unfold Table.getValue
  split
  · exact h.get hP _
  · exact hP.nil

/-- The property of what comes after a key. -/
def Following.Holds (P : Value → Prop) : Following → Prop
  | .entry k v => P k.toValue ∧ P v
  | .done | .invalid => True

theorem Holds.fromSlot (h : Holds P t) (n : Nat) : (t.fromSlot n).Holds P := by
  fun_induction Table.fromSlot t n with
  | case1 n hn e hnil ih => exact ih
  | case2 n hn e hnil => exact h.slots _ (Array.getElem_mem hn)
  | case3 n hn => trivial

theorem Holds.fromArray (h : Holds P t) (hP : Admits P) (n : Nat) :
    (t.fromArray n).Holds P := by
  fun_induction Table.fromArray t n with
  | case1 n hn v hnil ih => exact ih
  | case2 n hn v hnil => exact ⟨hP.int _, h.array _ (Array.getElem_mem hn)⟩
  | case3 n hn => exact h.fromSlot 0

/-- What an iteration comes to has the property. -/
theorem Holds.after (h : Holds P t) (hP : Admits P) (k : Option Key) : (t.after k).Holds P := by
  unfold Table.after
  split
  · exact h.fromArray hP 0
  · split
    · exact h.fromArray hP _
    · split
      · exact h.fromSlot _
      · trivial

theorem Holds.entries (h : Holds P t) (hP : Admits P) {e : Key × Value} (he : e ∈ t.entries) :
    P e.1.toValue ∧ P e.2 := by
  unfold Table.entries at he
  rcases List.mem_append.mp he with he | he
  · obtain ⟨i, -, hi⟩ := List.mem_filterMap.mp he
    dsimp only at hi
    split at hi
    · cases hi
    · cases hi
      exact ⟨hP.int _, h.getElem! hP i⟩
  · exact h.slots e (Array.mem_def.mpr (List.mem_filter.mp he).1)

/-! ### Metatables -/

theorem metatable_place (t : Table) (k : Key) (v : Value) :
    (t.place k v).metatable = t.metatable := by
  unfold Table.place
  split
  · split <;> rfl
  · rfl

theorem metatable_resize (t : Table) (size slots : Nat) :
    (t.resize size slots).metatable = t.metatable := by
  have hslots : ∀ (es : Array (Key × Value)) (u : Table), (es.foldl
      (fun (u : Table) e => if e.2.isNil then u else u.place e.1 e.2) u).metatable =
        u.metatable := fun es u => by
    refine Array.foldl_induction (motive := fun _ (w : Table) => w.metatable = u.metatable) rfl
      fun i w hw => ?_
    split
    · exact hw
    · rw [metatable_place, hw]
  unfold Table.resize
  dsimp only
  generalize t.array.size - size = n
  induction n with
  | zero => exact hslots _ _
  | succ n ih =>
    rw [Nat.fold_succ]
    split
    · exact ih
    · rw [metatable_place, ih]

/-- A write leaves the metatable alone. -/
@[simp] theorem metatable_set (t : Table) (k : Key) (v : Value) :
    (t.set k v).metatable = t.metatable := by
  unfold Table.set
  split
  · rfl
  · split
    · rfl
    · split
      · rfl
      · unfold Table.add
        split
        · exact metatable_place _ _ _
        · rw [metatable_place, metatable_resize]

end StoryPack.Script.Table
