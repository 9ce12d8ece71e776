/-
What scripts can get hold of, and what they can not change.

A ward fixes a part of the heap: the views with their metatables and backing
tables, the metatables of the basic types, the global variables of the
interpreter, and what the protected calls consist of.  Of all this scripts hold
only the views and the protected calls, and they can read no more of the rest
than metamethods and views let them.  So nothing that they do changes it.

The references that scripts hold lie below the number of tables, since later
ones may become part of a larger ward.

* `Ward` — the part of the heap that is fixed, `Ward.Sound` what it consists of;
* `Value.Ok` — the values that scripts may hold;
* `Heap.Kept` — a heap in which the ward is as it was, and in which everything
  else holds only what scripts may hold;
* `Heap.Kept.setKey`, `Heap.Kept.newTable`, … — what scripts do to such a heap.
-/
import StoryPack.Proofs.Confinement.Guard
import StoryPack.Proofs.Script.Lookup

namespace StoryPack.Script

/-- Library functions that scripts can get hold of. The metamethods by which views are measured and
iterated are among them, the one that refuses writes is not. -/
def Builtin.isOpen : Builtin → Bool
  | .base f =>
    match f with
    | .collectgarbage | .dofile | .load | .loadfile | .pcall | .print | .rawget | .rawlen | .rawset
    | .warn | .xpcall => false
    | _ => true
  | .debug _ => false
  | .view .deny => false
  | _ => true

/-- A part of the heap that is fixed. -/
structure Ward where
  tables : Nat → Option Table
  /-- The views among the tables, each with its metatable and its backing table. -/
  views : Nat → Option (Nat × Nat)
  cells : Nat → Option Value
  /-- The functions that make protected calls, each with the library function behind it. -/
  wrappers : Nat → Option (Closure × BaseFunction)
  /-- The function that has made those, and its closure. -/
  factory : Nat
  maker : Closure
  shared : KindTables
  /-- How many tables there were when it was fixed. -/
  size : Nat

variable {W : Ward} {n m : Nat}

/-- Scripts may hold the views, and all tables that are not fixed. -/
def Ward.Exposed (W : Ward) (r : Nat) : Prop := W.tables r = none ∨ (W.views r).isSome

/-- The values that scripts may hold when there are `n` tables. -/
def Value.Ok (W : Ward) (n : Nat) : Value → Prop
  | .table r => r < n ∧ W.Exposed r
  | .function (.closure r) => r ≠ W.factory
  | .function (.builtin f) => f.isOpen
  | _ => True

/-- Lists of such values. -/
def Oks (W : Ward) (n : Nat) (vs : List Value) : Prop := ∀ v ∈ vs, v.Ok W n

namespace Value

@[simp] theorem ok_nil : Value.nil.Ok W n := trivial
@[simp] theorem ok_bool (b : Bool) : (Value.bool b).Ok W n := trivial
@[simp] theorem ok_int (i : Int64) : (Value.int i).Ok W n := trivial
@[simp] theorem ok_float (x : Float) : (Value.float x).Ok W n := trivial
@[simp] theorem ok_str (s : ByteArray) : (Value.str s).Ok W n := trivial
@[simp] theorem ok_fault (r : Nat) : (Value.fault r).Ok W n := trivial
@[simp] theorem ok_matcher (r : Nat) : (Value.function (.matcher r)).Ok W n := trivial

@[simp] theorem ok_builtin {f : Builtin} :
    (Value.function (.builtin f)).Ok W n ↔ f.isOpen = true := Iff.rfl

@[simp] theorem ok_closure {r : Nat} :
    (Value.function (.closure r)).Ok W n ↔ r ≠ W.factory := Iff.rfl

@[simp] theorem ok_table {r : Nat} : (Value.table r).Ok W n ↔ r < n ∧ W.Exposed r := Iff.rfl

theorem Ok.mono {v : Value} (h : v.Ok W n) (hle : n ≤ m) : v.Ok W m := by
  unfold Ok at h ⊢
  split
  · exact ⟨Nat.lt_of_lt_of_le h.1 hle, h.2⟩
  · exact h
  · exact h
  · trivial

@[simp] theorem ok_constant (c : Constant) : c.value.Ok W n := by cases c <;> trivial

/-- A key is one of the values that a value indexes. -/
theorem ok_of_toKey? {v : Value} {k : Key} (hk : v.toKey? = some k) (hv : v.Ok W n) :
    k.toValue.Ok W n := by
  cases v with
  | float x =>
    simp only [toKey?] at hk
    split at hk
    · cases hk
    · cases hk
      trivial
    · split at hk <;> cases hk <;> trivial
  | nil => cases hk
  | _ =>
    cases hk
    exact hv

end Value

theorem admits_ok (W : Ward) (n : Nat) : Table.Admits (Value.Ok W n) := ⟨trivial, fun _ => trivial⟩

namespace Oks

@[simp] theorem nil : Oks W n [] := fun v hv => by cases hv

@[simp] theorem cons_iff {v : Value} {vs : List Value} :
    Oks W n (v :: vs) ↔ v.Ok W n ∧ Oks W n vs := by
  simp [Oks]

@[simp] theorem append_iff {vs ws : List Value} :
    Oks W n (vs ++ ws) ↔ Oks W n vs ∧ Oks W n ws := by
  simp [Oks, or_imp, forall_and]

theorem mono {vs : List Value} (h : Oks W n vs) (hle : n ≤ m) : Oks W m vs :=
  fun v hv => (h v hv).mono hle

theorem getD {vs : List Value} (h : Oks W n vs) (i : Nat) : (vs.getD i .nil).Ok W n := by
  rw [List.getD_eq_getElem?_getD]
  cases hi : vs[i]? with
  | none => trivial
  | some v => exact h v (List.mem_of_getElem? hi)

theorem headD {vs : List Value} (h : Oks W n vs) : (vs.headD .nil).Ok W n := by
  cases vs with
  | nil => trivial
  | cons v rest => exact h v List.mem_cons_self

theorem drop {vs : List Value} (h : Oks W n vs) (i : Nat) : Oks W n (vs.drop i) :=
  fun v hv => h v (List.mem_of_mem_drop hv)

theorem reverse {vs : List Value} (h : Oks W n vs) : Oks W n vs.reverse :=
  fun v hv => h v (List.mem_reverse.mp hv)

end Oks

/-- The values that fixed tables hold: of all tables only views. -/
def Value.Settled (W : Ward) (v : Value) : Prop :=
  v.Ok W W.size ∧ ∀ r, v = .table r → (W.views r).isSome

theorem admits_settled (W : Ward) : Table.Admits (Value.Settled W) :=
  ⟨⟨trivial, fun _ h => by cases h⟩, fun _ => ⟨trivial, fun _ h => by cases h⟩⟩

/-- A table that holds only what scripts may hold. -/
structure Table.Free (W : Ward) (n : Nat) (t : Table) : Prop where
  holds : t.Holds (Value.Ok W n)
  metatable : ∀ m, t.metatable = some m → (Value.table m).Ok W n
  sound : t.Sound

theorem Table.Free.mono {t : Table} (h : t.Free W n) (hle : n ≤ m) : t.Free W m where
  holds := h.holds.mono fun _ hv => hv.mono hle
  metatable k hk := (h.metatable k hk).mono hle
  sound := h.sound

theorem Table.Free.set {t : Table} (h : t.Free W n) {k : Key} {v : Value}
    (hk : k.toValue.Ok W n) (hv : v.Ok W n) : (t.set k v).Free W n where
  holds := h.holds.set (admits_ok W n) hk hv
  metatable m hm := h.metatable m (t.metatable_set k v ▸ hm)
  sound := (h.sound.set k v).1

theorem Table.Free.resize {t : Table} (h : t.Free W n) {size : Nat} (slots : Nat)
    (hsize : size ≤ maxArray) : (t.resize size slots).Free W n where
  holds := h.holds.resize (admits_ok W n) size slots
  metatable m hm := h.metatable m (t.metatable_resize size slots ▸ hm)
  sound := (h.sound.resize slots (Nat.lt_of_le_of_lt hsize maxArray_lt)).1

theorem Table.Free.setFrom {t : Table} (h : t.Free W n) (i : Nat) {vs : List Value}
    (hvs : Oks W n vs) : (t.setFrom i vs).Free W n := by
  induction vs generalizing t i with
  | nil => exact h
  | cons v vs ih =>
    obtain ⟨hv, hvs⟩ := Oks.cons_iff.mp hvs
    exact ih (h.set (k := .int _) trivial hv) (i + 1) hvs

theorem Table.free_empty (W : Ward) (n : Nat) : ({} : Table).Free W n where
  holds := holds_empty 0 none
  metatable m hm := by cases hm
  sound := sound_empty 0 none

theorem Table.free_sized (W : Ward) (n array slots : Nat) : (sized array slots).Free W n where
  holds := holds_sized (admits_ok W n) array slots
  metatable m hm := by cases hm
  sound := sound_sized array slots

/-- The captured variables of a function that makes protected calls. -/
structure Ward.Wraps (W : Ward) (c : Closure) (f : BaseFunction) : Prop where
  isRaw : f = .pcall ∨ f = .xpcall
  proto : c.proto = Guard.wrapper
  upvalues : ∃ pack raw tripped env message unpack,
    c.upvalues = #[pack, raw, tripped, env, message, unpack] ∧
    W.cells pack = some (.builtin (.table .pack)) ∧
    W.cells raw = some (.builtin (.base f)) ∧
    W.cells tripped = some (.builtin .tripped) ∧
    W.cells env = some (.table Heap.globals) ∧
    W.cells message = some (.ofString overrunMessage) ∧
    W.cells unpack = some (.builtin (.table .unpack))

/-- What a ward consists of. -/
structure Ward.Sound (W : Ward) : Prop where
  view : ∀ {r m b : Nat}, W.views r = some (m, b) →
    W.tables r = some { metatable := some m } ∧
    W.tables m = some (Heap.viewMetatable b (.bool false)) ∧ W.views m = none ∧
    ∃ t, W.tables b = some t ∧ W.views b = none ∧ t.metatable = none ∧ t.Sound ∧
      t.Holds (Value.Settled W)
  /-- No other fixed table has a metatable. -/
  metatable : ∀ {r m : Nat} {t : Table}, W.tables r = some t → t.metatable = some m →
    ∃ b, W.views r = some (m, b)
  shared : ∀ {k : Kind} {m : Nat}, W.shared.of k = some m →
    ∃ t, W.tables m = some t ∧ W.views m = none ∧ (∀ k, (t.get k).Settled W) ∧
      ∃ v, t.get (.str Event.metatable) = .table v
  globals : ∃ t, W.tables Heap.globals = some t ∧ W.views Heap.globals = none ∧
    t.metatable = none ∧ t.get (.str "error".toUTF8) = .builtin (.base .error)
  wrapper : ∀ {r : Nat} {c : Closure} {f : BaseFunction}, W.wrappers r = some (c, f) →
    r ≠ W.factory ∧ W.Wraps c f
  /-- The cell of boxes that have none yet is not fixed. -/
  cell : W.cells 0 = none
  bound : ∀ {r : Nat} {t : Table}, W.tables r = some t → r < W.size

/-- A heap in which the ward is as it was, and in which everything else holds only what scripts may
hold. -/
structure Heap.Kept (W : Ward) (h : Heap) : Prop where
  sound : W.Sound
  size : W.size ≤ h.tables.size
  fixed : ∀ {r : Nat} {t : Table}, W.tables r = some t → h.tables[r]? = some t
  free : ∀ {r : Nat} {t : Table}, W.tables r = none → h.tables[r]? = some t →
    t.Free W h.tables.size
  fixedCell : ∀ {c : Nat} {v : Value}, W.cells c = some v → h.cells[c]? = some v
  freeCell : ∀ {c : Nat} {v : Value}, W.cells c = none → h.cells[c]? = some v →
    v.Ok W h.tables.size
  wrapper : ∀ {r : Nat} {c : Closure} {f : BaseFunction}, W.wrappers r = some (c, f) →
    h.closures[r]? = some c
  closure : ∀ {r : Nat} {c : Closure}, W.wrappers r = none → r ≠ W.factory →
    h.closures[r]? = some c → ∀ u ∈ c.upvalues, W.cells u = none
  factory : h.closures[W.factory]? = some W.maker
  /-- The cell of boxes that have none yet is empty. -/
  first : h.cells[0]? = some .nil
  shared : h.shared = W.shared

namespace Heap

namespace Kept

variable {h h' : Heap}

/-- Only the tables, the cells, the closures and the shared metatables matter. -/
theorem congr (hk : h.Kept W) (htables : h'.tables = h.tables) (hcells : h'.cells = h.cells)
    (hclosures : h'.closures = h.closures) (hshared : h'.shared = h.shared) : h'.Kept W where
  sound := hk.sound
  size := htables ▸ hk.size
  fixed hr := htables ▸ hk.fixed hr
  free hr ht := htables ▸ hk.free hr (htables ▸ ht)
  fixedCell hc := hcells ▸ hk.fixedCell hc
  freeCell hc hv := htables ▸ hk.freeCell hc (hcells ▸ hv)
  wrapper hr := hclosures ▸ hk.wrapper hr
  closure hr hne hc := hk.closure hr hne (hclosures ▸ hc)
  factory := hclosures ▸ hk.factory
  first := hcells ▸ hk.first
  shared := hshared.trans hk.shared

theorem lt_of_fixed (hk : h.Kept W) {r : Nat} {t : Table} (hr : W.tables r = some t) :
    r < h.tables.size :=
  (Array.getElem?_eq_some_iff.mp (hk.fixed hr)).1

theorem factory_lt (hk : h.Kept W) : W.factory < h.closures.size :=
  (Array.getElem?_eq_some_iff.mp hk.factory).1

theorem table_of_fixed (hk : h.Kept W) {r : Nat} {t : Table} (hr : W.tables r = some t) :
    h.table r = t := by
  rw [table, hk.fixed hr]
  rfl

/-- A table that is not fixed holds only what scripts may hold. -/
theorem free_table (hk : h.Kept W) {r : Nat} (hr : W.tables r = none) :
    (h.table r).Free W h.tables.size := by
  unfold table
  cases ht : h.tables[r]? with
  | none => exact Table.free_empty W _
  | some t => exact hk.free hr ht

/-- A table that scripts may hold is a view, or it is not fixed. -/
theorem table_cases (hk : h.Kept W) {r : Nat} (hr : W.Exposed r) :
    W.tables r = none ∧ (h.table r).Free W h.tables.size ∨
      ∃ m b, W.views r = some (m, b) ∧ h.table r = { metatable := some m } := by
  rcases hr with hr | hr
  · exact .inl ⟨hr, hk.free_table hr⟩
  · obtain ⟨⟨m, b⟩, hview⟩ := Option.isSome_iff_exists.mp hr
    exact .inr ⟨m, b, hview, hk.table_of_fixed (hk.sound.view hview).1⟩

/-- A table without metatable that scripts may hold is not fixed. -/
theorem free_of_isNone (hk : h.Kept W) {r : Nat} (hr : W.Exposed r)
    (hnone : (h.table r).metatable.isNone) : W.tables r = none := by
  rcases hk.table_cases hr with ⟨hfree, -⟩ | ⟨m, b, -, hview⟩
  · exact hfree
  · rw [hview] at hnone
    cases hnone

theorem cell_ok (hk : h.Kept W) {c : Nat} (hc : W.cells c = none) :
    (h.cell c).Ok W h.tables.size := by
  unfold cell
  cases hv : h.cells[c]? with
  | none => trivial
  | some v => exact hk.freeCell hc hv

theorem cell_of_fixed (hk : h.Kept W) {c : Nat} {v : Value} (hc : W.cells c = some v) :
    h.cell c = v := by
  rw [cell, hk.fixedCell hc]
  rfl

/-- What is written into a table that is not fixed. -/
theorem setTable (hk : h.Kept W) {r : Nat} (hr : W.tables r = none) {f : Table → Table}
    (hf : ∀ t : Table, t.Free W h.tables.size → (f t).Free W h.tables.size)
    (htables : h'.tables = h.tables.modify r f) (hcells : h'.cells = h.cells)
    (hclosures : h'.closures = h.closures) (hshared : h'.shared = h.shared) : h'.Kept W where
  sound := hk.sound
  size := by
    rw [htables, Array.size_modify]
    exact hk.size
  fixed {r' t} hr' := by
    have hne : r ≠ r' := by
      rintro rfl
      rw [hr] at hr'
      cases hr'
    rw [htables, Array.getElem?_modify, if_neg hne]
    exact hk.fixed hr'
  free {r' t} hr' ht := by
    rw [htables, Array.getElem?_modify] at ht
    rw [htables, Array.size_modify]
    split at ht
    · obtain ⟨u, hu, rfl⟩ := Option.map_eq_some_iff.mp ht
      exact hf u (hk.free hr' hu)
    · exact hk.free hr' ht
  fixedCell hc := hcells ▸ hk.fixedCell hc
  freeCell hc hv := by
    rw [htables, Array.size_modify]
    exact hk.freeCell hc (hcells ▸ hv)
  wrapper hr := hclosures ▸ hk.wrapper hr
  closure hr hne hc := hk.closure hr hne (hclosures ▸ hc)
  factory := hclosures ▸ hk.factory
  first := hcells ▸ hk.first
  shared := hshared.trans hk.shared

/-- A write to a table that is not fixed. -/
theorem setKey (hk : h.Kept W) {r : Nat} (hr : W.tables r = none) {k : Key} {v : Value}
    (hkey : k.toValue.Ok W h.tables.size) (hv : v.Ok W h.tables.size) :
    (h.setKey r k v).Kept W :=
  hk.setTable hr (fun _ ht => ht.set hkey hv) rfl rfl rfl rfl

/-- A table that is not fixed gets another metatable. -/
theorem setMetatable (hk : h.Kept W) {r : Nat} (hr : W.tables r = none) {m : Option Nat}
    (hm : ∀ k, m = some k → (Value.table k).Ok W h.tables.size) : (h.setMetatable r m).Kept W :=
  hk.setTable (f := fun t => { t with metatable := m }) hr
    (fun _ ht => ⟨ht.holds.of_eq rfl rfl, hm, ht.sound.withMetatable m⟩) rfl rfl rfl rfl

theorem newTable (hk : h.Kept W) {t : Table} (ht : t.Free W h.tables.size) :
    (h.newTable t).1.Kept W where
  sound := hk.sound
  size := by
    have := hk.size
    simp only [Heap.newTable, Array.size_push]
    omega
  fixed hr := by
    simp only [Heap.newTable]
    rw [Array.getElem?_push_lt (hk.lt_of_fixed hr), ← Array.getElem?_eq_getElem, hk.fixed hr]
  free {r u} hr hu := by
    simp only [Heap.newTable, Array.getElem?_push, Array.size_push] at hu ⊢
    split at hu
    · cases hu
      exact ht.mono (Nat.le_succ _)
    · exact (hk.free hr hu).mono (Nat.le_succ _)
  fixedCell := hk.fixedCell
  freeCell hc hv := by
    simp only [Heap.newTable, Array.size_push]
    exact (hk.freeCell hc hv).mono (Nat.le_succ _)
  wrapper := hk.wrapper
  closure := hk.closure
  factory := hk.factory
  first := hk.first
  shared := hk.shared

/-- Scripts may hold a new table. -/
theorem newTable_ok (hk : h.Kept W) (t : Table) :
    (Value.table (h.newTable t).2).Ok W (h.newTable t).1.tables.size := by
  simp only [Heap.newTable, Value.ok_table, Array.size_push]
  refine ⟨Nat.lt_succ_self _, .inl ?_⟩
  cases hr : W.tables h.tables.size with
  | none => rfl
  | some u => exact absurd (hk.lt_of_fixed hr) (Nat.lt_irrefl _)

theorem newCell (hk : h.Kept W) {v : Value} (hv : v.Ok W h.tables.size) :
    (h.newCell v).1.Kept W where
  sound := hk.sound
  size := hk.size
  fixed := hk.fixed
  free := hk.free
  fixedCell hc := by
    have hlt := (Array.getElem?_eq_some_iff.mp (hk.fixedCell hc)).1
    simp only [Heap.newCell]
    rw [Array.getElem?_push_lt hlt, ← Array.getElem?_eq_getElem, hk.fixedCell hc]
  freeCell {c u} hc hu := by
    simp only [Heap.newCell, Array.getElem?_push] at hu ⊢
    split at hu
    · cases hu
      exact hv
    · exact hk.freeCell hc hu
  wrapper := hk.wrapper
  closure := hk.closure
  factory := hk.factory
  first := by
    have hlt := (Array.getElem?_eq_some_iff.mp hk.first).1
    simp only [Heap.newCell]
    rw [Array.getElem?_push_lt hlt, ← Array.getElem?_eq_getElem, hk.first]
  shared := hk.shared

/-- A new cell is not fixed. -/
theorem newCell_free (hk : h.Kept W) (v : Value) : W.cells (h.newCell v).2 = none := by
  simp only [Heap.newCell]
  cases hc : W.cells h.cells.size with
  | none => rfl
  | some u =>
    have hlt := (Array.getElem?_eq_some_iff.mp (hk.fixedCell hc)).1
    exact absurd hlt (Nat.lt_irrefl _)

theorem setCell (hk : h.Kept W) {c : Nat} {v : Value} (hc : W.cells c = none)
    (hv : v.Ok W h.tables.size) : (h.setCell c v).Kept W := by
  unfold Heap.setCell
  split
  · exact hk
  rename_i h0
  refine { hk with
    fixedCell := fun {c' u} hc' => ?_
    freeCell := fun {c' u} hc' hu => ?_
    first := ?_ }
  · have hne : c ≠ c' := by
      rintro rfl
      rw [hc] at hc'
      cases hc'
    simp only [Array.set!_eq_setIfInBounds, Array.getElem?_setIfInBounds, hne, if_false]
    exact hk.fixedCell hc'
  · simp only [Array.set!_eq_setIfInBounds, Array.getElem?_setIfInBounds] at hu
    split at hu
    · split at hu
      · cases hu
        exact hv
      · cases hu
    · exact hk.freeCell hc' hu
  · simp only [Array.set!_eq_setIfInBounds, Array.getElem?_setIfInBounds, h0, if_false]
    exact hk.first

theorem newClosure (hk : h.Kept W) {c : Closure} (hc : ∀ u ∈ c.upvalues, W.cells u = none) :
    (h.newClosure c).1.Kept W where
  sound := hk.sound
  size := hk.size
  fixed := hk.fixed
  free := hk.free
  fixedCell := hk.fixedCell
  freeCell := hk.freeCell
  wrapper hr := by
    have hlt := (Array.getElem?_eq_some_iff.mp (hk.wrapper hr)).1
    simp only [Heap.newClosure]
    rw [Array.getElem?_push_lt hlt, ← Array.getElem?_eq_getElem, hk.wrapper hr]
  closure {r c'} hr hne hc' := by
    simp only [Heap.newClosure, Array.getElem?_push] at hc'
    split at hc'
    · cases hc'
      exact hc
    · exact hk.closure hr hne hc'
  factory := by
    simp only [Heap.newClosure]
    rw [Array.getElem?_push_lt hk.factory_lt, ← Array.getElem?_eq_getElem, hk.factory]
  first := hk.first
  shared := hk.shared

theorem newClosure_ok (hk : h.Kept W) (c : Closure) :
    (Value.function (.closure (h.newClosure c).2)).Ok W n := by
  have := hk.factory_lt
  simp only [Heap.newClosure, Value.ok_closure]
  omega

end Kept

end Heap

end StoryPack.Script
