/-
Heaps without loose ends.

While an interpreter is set up, its heap holds tables and library functions, and
every reference to a table leads to one that is there.  So all that is added to
the heap later lies past what it refers to.

* `Heap.Closed` — all references of a heap lead to tables of it;
* `Heap.Closed.setKey`, `Heap.Closed.freeze`, … — what is added keeps this so;
* `Interpreter.closed_start` — the heap at the start;
* `Interpreter.guardPrimitives_closed` — the heap after it has been set up.
-/
import StoryPack.Proofs.Confinement.Interpreter
import StoryPack.Sandbox.Host

namespace StoryPack

open Script

namespace Script

/-- The values of a heap that has `n` tables and no functions but those of the libraries. -/
def Value.Below (n : Nat) : Value → Prop
  | .table r => r < n
  | .function (.builtin _) => True
  | .function _ | .fault _ => False
  | _ => True

/-- A table that refers to none but `n` tables. -/
structure Table.Closed (n : Nat) (t : Table) : Prop where
  sound : t.Sound
  holds : t.Holds (Value.Below n)
  metatable : ∀ m, t.metatable = some m → m < n

/-- A heap all of whose references lead to tables of it. -/
structure Heap.Closed (h : Heap) : Prop where
  tables : ∀ t ∈ h.tables, t.Closed h.tables.size
  shared : ∀ k m, h.shared.of k = some m → m < h.tables.size
  searches : h.searches = #[]
  faults : h.faults = #[]

variable {n m : Nat} {v : Value}

theorem Value.Below.mono (hv : v.Below n) (hnm : n ≤ m) : v.Below m := by
  cases v with
  | table r => exact Nat.lt_of_lt_of_le hv hnm
  | function f => cases f <;> exact hv
  | _ => exact hv

theorem admits_below (n : Nat) : Table.Admits (Value.Below n) := ⟨trivial, fun _ => trivial⟩

theorem below_toScript (k : Scope.Key) : k.toScript.toValue.Below n := by cases k <;> trivial

namespace Table

variable {t : Table}

theorem Closed.mono (ht : t.Closed n) (hnm : n ≤ m) : t.Closed m where
  sound := ht.sound
  holds := ht.holds.mono fun _ hv => hv.mono hnm
  metatable l hl := Nat.lt_of_lt_of_le (ht.metatable l hl) hnm

theorem closed_empty {meta? : Option Nat} (hmeta : ∀ m, meta? = some m → m < n) :
    Closed n { metatable := meta? } :=
  ⟨sound_empty 0 meta?, holds_empty 0 meta?, hmeta⟩

theorem Closed.set (ht : t.Closed n) {k : Key} (hk : k.toValue.Below n) (hv : v.Below n) :
    (t.set k v).Closed n where
  sound := (ht.sound.set k v).1
  holds := ht.holds.set (admits_below n) hk hv
  metatable l hl := ht.metatable l ((metatable_set t k v).symm.trans hl)

theorem closed_named {es : List (String × Value)} (hes : ∀ e ∈ es, e.2.Below n) :
    (named es).Closed n where
  sound := sound_named es
  holds := holds_named (admits_below n) (fun _ => trivial) hes
  metatable l hl := by
    rw [metatable_named] at hl
    cases hl

/-- A new table is filled. -/
theorem closed_fill {es : List (ByteArray × Value)} (hes : ∀ e ∈ es, e.2.Below n) :
    Closed n (es.foldl (fun t e => t.set (.str e.1) e.2) {}) := by
  have hfold (t : Table) (ht : t.Closed n) :
      Closed n (es.foldl (fun t e => t.set (.str e.1) e.2) t) := by
    induction es generalizing t with
    | nil => exact ht
    | cons e es ih =>
      exact ih (fun e' he' => hes e' (List.mem_cons_of_mem _ he')) _
        (ht.set trivial (hes e List.mem_cons_self))
  exact hfold {} (closed_empty fun m hm => by cases hm)

end Table

namespace Heap

variable {g h : Heap}

namespace Closed

variable (hh : h.Closed)

include hh

theorem table (r : Nat) : (h.table r).Closed h.tables.size := by
  unfold Heap.table
  cases ht : h.tables[r]? with
  | none => exact Table.closed_empty fun m hm => by cases hm
  | some t => exact hh.tables t (Array.mem_of_getElem? ht)

theorem newTable {t : Table} (ht : t.Closed h.tables.size) : (h.newTable t).1.Closed where
  tables u hu := by
    have hle : h.tables.size ≤ (h.tables.push t).size := by
      rw [Array.size_push]
      exact Nat.le_succ _
    rcases Array.mem_push.mp hu with hu | rfl
    · exact (hh.tables u hu).mono hle
    · exact ht.mono hle
  shared k m hm := by
    show m < (h.tables.push t).size
    rw [Array.size_push]
    exact Nat.lt_succ_of_lt (hh.shared k m hm)
  searches := hh.searches
  faults := hh.faults

theorem setKey (r : Nat) {k : Key} {v : Value} (hk : k.toValue.Below h.tables.size)
    (hv : v.Below h.tables.size) : (h.setKey r k v).Closed where
  tables t ht := by
    rw [size_setKey]
    obtain ⟨i, hi⟩ := Array.getElem?_of_mem ht
    rw [tables_setKey, Array.getElem?_modify] at hi
    split at hi
    · obtain ⟨u, hu, rfl⟩ := Option.map_eq_some_iff.mp hi
      exact (hh.tables u (Array.mem_of_getElem? hu)).set hk hv
    · exact hh.tables t (Array.mem_of_getElem? hi)
  shared k m hm := by
    rw [size_setKey]
    exact hh.shared k m hm
  searches := hh.searches
  faults := hh.faults

/-- A table becomes the metatable of a basic type. -/
theorem share (kind : Kind) {m : Nat} (hm : m < h.tables.size) :
    Closed { h with shared := h.shared.put kind (some m) } where
  tables := hh.tables
  shared k l hl := by
    rcases Interpreter.Prepared.of_put h.shared kind k (some m) with hsame | ⟨-, hput⟩
    · exact hh.shared k l (hsame.symm.trans hl)
    · cases hput.symm.trans hl
      exact hm
  searches := hh.searches
  faults := hh.faults

/-- The entries of a table are put into another one. -/
theorem foldl_setKey {es : List (Key × Value)}
    (hes : ∀ e ∈ es, e.1.toValue.Below h.tables.size ∧ e.2.Below h.tables.size) (r : Nat) :
    (es.foldl (fun h e => h.setKey r e.1 e.2) h).Closed ∧
      (es.foldl (fun h e => h.setKey r e.1 e.2) h).tables.size = h.tables.size := by
  induction es generalizing h with
  | nil => exact ⟨hh, rfl⟩
  | cons e es ih =>
    obtain ⟨hk, hv⟩ := hes e List.mem_cons_self
    have hrest := ih (hh.setKey r hk hv) fun e' he' => by
      rw [size_setKey]
      exact hes e' (List.mem_cons_of_mem _ he')
    exact ⟨hrest.1, hrest.2.trans (size_setKey ..)⟩

/-! ### Views -/

theorem newView {b : Nat} (hb : b < h.tables.size) :
    (h.newView b).1.Closed ∧ (h.newView b).1.tables.size = h.tables.size + 2 ∧
      (h.newView b).2 < (h.newView b).1.tables.size := by
  have hmetatable : (viewMetatable b (.bool false)).Closed h.tables.size := by
    refine Table.closed_fill fun e he => ?_
    simp only [List.mem_cons, List.not_mem_nil, or_false] at he
    rcases he with rfl | rfl | rfl | rfl | rfl | rfl <;> first | exact hb | exact trivial
  have hsize : (h.newView b).1.tables.size = h.tables.size + 2 := by
    simp [Heap.newView, Heap.newTable]
  refine ⟨(hh.newTable hmetatable).newTable (Table.closed_empty fun m hm => ?_), hsize, ?_⟩
  · cases hm
    show h.tables.size < (h.tables.push _).size
    rw [Array.size_push]
    exact Nat.lt_succ_self _
  · rw [hsize, show (h.newView b).2 = h.tables.size + 1 by simp [Heap.newView, Heap.newTable]]
    exact Nat.lt_succ_self _

end Closed

mutual

/-- The value of a scope. -/
theorem freezeValue_closed {h : Heap} (hh : h.Closed) {v : Scope.Value}
    (hv : v.Within fun f => (Value.function f).Below 0) :
    (freezeValue v h).1.Closed ∧ h.tables.size ≤ (freezeValue v h).1.tables.size ∧
      (freezeValue v h).2.Below (freezeValue v h).1.tables.size := by
  cases v with
  | text s =>
    exact ⟨⟨hh.tables, hh.shared, hh.searches, hh.faults⟩, Nat.le_refl _, trivial⟩
  | function f => exact ⟨hh, Nat.le_refl _, Value.Below.mono hv (Nat.zero_le _)⟩
  | table entries =>
    have hempty : Table.Closed h.tables.size {} := Table.closed_empty fun m hm => by cases hm
    have hsize : (h.newTable {}).1.tables.size = h.tables.size + 1 := Array.size_push _
    obtain ⟨hentries, hle⟩ := freezeEntries_closed (hh.newTable hempty) hv (h.newTable {}).2
    have hb : (h.newTable {}).2 < (freezeEntries entries (h.newTable {}).2
        (h.newTable {}).1).tables.size := by
      show h.tables.size < _
      omega
    obtain ⟨hview, hviews, hlt⟩ := hentries.newView hb
    refine ⟨hview, ?_, hlt⟩
    have hle' : h.tables.size ≤ ((freezeEntries entries (h.newTable {}).2
      (h.newTable {}).1).newView (h.newTable {}).2).1.tables.size := by omega
    exact hle'
  | _ => exact ⟨hh, Nat.le_refl _, trivial⟩

/-- The entries of a scope in a backing table. -/
theorem freezeEntries_closed {h : Heap} (hh : h.Closed)
    {entries : List (Scope.Key × Scope.Value)}
    (hentries : Scope.Value.entriesWithin (fun f => (Value.function f).Below 0) entries) (b : Nat) :
    (freezeEntries entries b h).Closed ∧
      h.tables.size ≤ (freezeEntries entries b h).tables.size := by
  cases entries with
  | nil => exact ⟨hh, Nat.le_refl _⟩
  | cons e rest =>
    obtain ⟨k, v⟩ := e
    obtain ⟨hheap, hle, hv⟩ := freezeValue_closed hh hentries.1
    obtain ⟨hrest, hle'⟩ :=
      freezeEntries_closed (hheap.setKey b (below_toScript k) hv) hentries.2 b
    rw [size_setKey] at hle'
    exact ⟨hrest, Nat.le_trans hle hle'⟩

end

/-- The view of a scope. -/
theorem Closed.freeze (hh : h.Closed) {t : Scope.Table}
    (ht : t.Within fun f => (Value.function f).Below 0) :
    (h.freeze t).1.Closed ∧ h.tables.size ≤ (h.freeze t).1.tables.size ∧
      (h.freeze t).2 < (h.freeze t).1.tables.size :=
  freezeValue_closed (v := .table t.entries) hh ht

/-- A snapshot has no functions but those of the libraries. -/
theorem Closed.snapshot (hh : h.Closed) {r : Nat} {t : Scope.Table} (ht : h.snapshot r = .ok t) :
    t.Within fun f => (Value.function f).Below 0 := by
  refine snapshot_within (admits_below h.tables.size) (fun r _ => (hh.table _).holds)
    (fun f hf => ?_) (hh.table _).holds ht
  cases f <;> exact hf

end Heap

end Script

namespace Interpreter

variable {g h : Heap}

theorem freezeTable_closed (hh : h.Closed) {r v : Nat} (hv : freezeTable h r = .ok (g, v)) :
    g.Closed ∧ h.tables.size ≤ g.tables.size ∧ v < g.tables.size := by
  obtain ⟨t, ht, hv⟩ := exists_of_bind_eq_ok hv
  cases hv
  exact hh.freeze (hh.snapshot ht)

/-! ### The start -/

theorem objects_foldl_setName {α : Type} (name : α → String) (value : α → Value) (es : List α)
    (h : Heap) (r : Nat) :
    let g := es.foldl (fun h e => h.setName r (name e) (value e)) h
    g.searches = h.searches ∧ g.faults = h.faults := by
  induction es generalizing h with
  | nil => exact ⟨rfl, rfl⟩
  | cons e es ih => exact ih (h.setName r (name e) (value e))

theorem objects_start (limit : Option Nat) :
    let h := ((new limit).setGlobal "debug" .nil).heap
    h.searches = #[] ∧ h.faults = #[] := by
  have hset (h : Heap) (r : Nat) (name : String) (v : Value) :
      (h.setName r name v).searches = h.searches ∧ (h.setName r name v).faults = h.faults :=
    ⟨rfl, rfl⟩
  unfold new
  simp only [setGlobal, stringMetatable, addLibrary, hset, objects_foldl_setName, Heap.setKey,
    Heap.newTable]
  exact ⟨trivial, trivial⟩

/-- The heap at the start. -/
theorem closed_start (limit : Option Nat) : ((new limit).setGlobal "debug" .nil).heap.Closed := by
  have htables := tables_start limit
  have hshared := (rest_new limit).2.2.1
  obtain ⟨hsearches, hfaults⟩ := objects_start limit
  generalize ((new limit).setGlobal "debug" .nil).heap = h at htables hshared hsearches hfaults
  have hsize : h.tables.size = 6 := by rw [htables]; rfl
  refine ⟨fun t ht => ?_, fun k m hm => ?_, hsearches, hfaults⟩
  · have hlibrary {α : Type} (names : List (String × α)) (f : α → Builtin) :
        ∀ e ∈ names.map fun e => (e.1, Value.builtin (f e.2)), e.2.Below 6 := by
      intro e he
      obtain ⟨e', -, rfl⟩ := List.mem_map.mp he
      trivial
    have hfirst : ∀ t ∈ Table.named globalEntries :: libraryTables, t.Closed 6 := by
      simp only [libraryTables, List.forall_mem_cons]
      refine ⟨Table.closed_named ?_, Table.closed_named (hlibrary _ _),
        Table.closed_named (hlibrary _ _), Table.closed_named ?_, Table.closed_named (hlibrary _ _),
        Table.closed_named ?_, fun _ h => by cases h⟩
      · refine List.forall_mem_append.mpr ⟨List.forall_mem_append.mpr ⟨hlibrary _ _, ?_⟩,
          List.forall_mem_singleton.mpr trivial⟩
        simp only [List.forall_mem_cons]
        exact ⟨Nat.zero_lt_succ _, trivial, Nat.lt_of_sub_eq_succ rfl, Nat.lt_of_sub_eq_succ rfl,
          Nat.lt_of_sub_eq_succ rfl, Nat.lt_of_sub_eq_succ rfl, fun _ h => by cases h⟩
      · refine List.forall_mem_append.mpr ⟨hlibrary _ _, fun e he => ?_⟩
        simp only [mathConstants, List.mem_cons, List.not_mem_nil, or_false] at he
        rcases he with rfl | rfl | rfl | rfl <;> exact trivial
      · refine List.forall_mem_append.mpr ⟨fun e he => ?_,
          List.forall_mem_singleton.mpr (Nat.lt_of_sub_eq_succ rfl)⟩
        obtain ⟨op, -, rfl⟩ := List.mem_map.mp he
        trivial
    rw [hsize]
    rw [htables] at ht
    exact hfirst t (Array.mem_toList_iff.mpr ht)
  · rw [hshared] at hm
    rw [hsize]
    cases k <;> cases hm
    decide

/-! ### Metatables of the basic types -/

/-- A basic type is given a metatable that shows a view. -/
theorem show_closed (hh : h.Closed) {v : Nat} (hv : v < h.tables.size) (kind : Kind) :
    let g := (h.newTable {}).1.setKey h.tables.size (.str Event.metatable) (.table v)
    Heap.Closed { g with shared := g.shared.put kind (some h.tables.size) } ∧
      g.tables.size = h.tables.size + 1 := by
  intro g
  have hsize : (h.newTable {}).1.tables.size = h.tables.size + 1 := Array.size_push _
  have hg : g.tables.size = h.tables.size + 1 := by rw [Heap.size_setKey, hsize]
  have hempty : Table.Closed h.tables.size {} := Table.closed_empty fun m hm => by cases hm
  have hclosed : g.Closed := (hh.newTable hempty).setKey _ (k := .str Event.metatable) trivial
    (show v < _ by omega)
  exact ⟨hclosed.share kind (by omega), hg⟩

theorem guardKind_closed (hh : h.Closed) {kind : Kind} (hg : guardKind h kind = .ok g) :
    g.Closed ∧ h.tables.size ≤ g.tables.size := by
  -- the view is that of the present metatable, or an empty one
  obtain ⟨h₁, view, hclosed, hle, hlt, hg⟩ : ∃ (h₁ : Heap) (view : Nat), h₁.Closed ∧
      h.tables.size ≤ h₁.tables.size ∧ view < h₁.tables.size ∧
      g = { (h₁.newTable {}).1.setKey h₁.tables.size (.str Event.metatable) (.table view) with
        shared := h₁.shared.put kind (some h₁.tables.size) } := by
    unfold guardKind at hg
    dsimp only at hg
    split at hg
    · obtain ⟨⟨h₁, view⟩, hview, hg⟩ := exists_of_bind_eq_ok hg
      cases hg
      obtain ⟨hclosed, hle, hlt⟩ := freezeTable_closed hh hview
      exact ⟨h₁, view, hclosed, hle, hlt, rfl⟩
    · cases hg
      have hempty : Table.Closed h.tables.size {} := Table.closed_empty fun m hm => by cases hm
      have hsize : (h.newTable {}).1.tables.size = h.tables.size + 1 := Array.size_push _
      obtain ⟨hview, hviews, hlt⟩ :=
        (hh.newTable hempty).newView (b := (h.newTable {}).2) (show h.tables.size < _ by omega)
      exact ⟨_, _, hview, by omega, hlt, rfl⟩
  subst hg
  obtain ⟨hheap, hsize⟩ := show_closed hclosed hlt kind
  exact ⟨hheap, Nat.le_trans hle (Nat.le_trans (Nat.le_succ _) (Nat.le_of_eq hsize.symm))⟩

theorem guardKinds_closed (hh : h.Closed) (kinds : List Kind)
    (hg : kinds.foldlM guardKind h = .ok g) : g.Closed ∧ h.tables.size ≤ g.tables.size := by
  induction kinds generalizing h with
  | nil =>
    cases hg
    exact ⟨hh, Nat.le_refl _⟩
  | cons kind kinds ih =>
    rw [List.foldlM_cons] at hg
    obtain ⟨h₁, hh₁, hg⟩ := exists_of_bind_eq_ok hg
    obtain ⟨hclosed, hle⟩ := guardKind_closed hh hh₁
    obtain ⟨hrest, hle'⟩ := ih hclosed hg
    exact ⟨hrest, Nat.le_trans hle hle'⟩

theorem guardStrings_closed (hh : h.Closed) {strings : Nat} (hstrings : strings < h.tables.size)
    (hg : guardStrings h strings = .ok g) : g.Closed := by
  -- the entries of the metatable that strings have had so far
  obtain ⟨present, hentries⟩ : ∃ present, present = sharedEntries h := ⟨_, rfl⟩
  have hpresent : ∀ e ∈ present, e.1.toValue.Below h.tables.size ∧ e.2.Below h.tables.size := by
    rw [hentries, sharedEntries]
    split
    · exact fun e he => (hh.table _).holds.entries (admits_below _) he
    · exact fun e he => by cases he
  let live := present.foldl (fun h' e => h'.setKey h.tables.size e.1 e.2) (h.newTable {}).1
  have hsize : (h.newTable {}).1.tables.size = h.tables.size + 1 := Array.size_push _
  have hempty : Table.Closed h.tables.size {} := Table.closed_empty fun m hm => by cases hm
  have hbelow (e : Key × Value) (he : e ∈ present) :
      e.1.toValue.Below (h.newTable {}).1.tables.size ∧ e.2.Below (h.newTable {}).1.tables.size :=
    ⟨(hpresent e he).1.mono (by omega), (hpresent e he).2.mono (by omega)⟩
  obtain ⟨hfill, hfilled⟩ : live.Closed ∧ live.tables.size = (h.newTable {}).1.tables.size :=
    (hh.newTable hempty).foldl_setKey hbelow h.tables.size
  have hdo : liveHeap h strings = (live.setKey h.tables.size (.str Event.index)
      (.table strings)).setKey h.tables.size (.str Event.metatable) .nil := by
    subst hentries
    rfl
  rw [guardStrings_eq, hdo] at hg
  clear_value live
  have hlive := (hfill.setKey h.tables.size (k := .str Event.index) (v := .table strings) trivial
    (show strings < _ by omega)).setKey h.tables.size (k := .str Event.metatable) (v := .nil)
    trivial trivial
  obtain ⟨⟨h₂, view⟩, hview, hg⟩ := exists_of_bind_eq_ok hg
  obtain ⟨hclosed, hle, hlt⟩ := freezeTable_closed hlive hview
  rw [Heap.size_setKey, Heap.size_setKey] at hle
  cases hg
  refine (hclosed.setKey h.tables.size (k := .str Event.metatable) (v := .table view) trivial
    hlt).share .string ?_
  rw [Heap.size_setKey]
  omega

theorem guardPrimitives_closed {s s' : Interpreter} (hs : s.heap.Closed) {strings : Nat}
    (hstrings : strings < s.heap.tables.size) {done : Bool}
    (hs' : s.guardPrimitives strings = .ok (s', done)) : s'.heap.Closed := by
  unfold guardPrimitives at hs'
  split at hs'
  · cases hs'
    exact hs
  · obtain ⟨h₁, hkinds, hs'⟩ := exists_of_bind_eq_ok hs'
    obtain ⟨h₂, hlast, hs'⟩ := exists_of_bind_eq_ok hs'
    cases hs'
    obtain ⟨hclosed, hle⟩ := guardKinds_closed hs _ hkinds
    exact guardStrings_closed hclosed (Nat.lt_of_lt_of_le hstrings hle) hlast

end Interpreter

theorem Host.libraryView_closed {s s' : Interpreter} (hs : s.heap.Closed) {name : String} {v : Nat}
    (hv : libraryView s name = .ok (s', v)) :
    s'.heap.Closed ∧ s.heap.tables.size ≤ s'.heap.tables.size ∧ v < s'.heap.tables.size := by
  unfold libraryView at hv
  split at hv
  · obtain ⟨⟨h, view⟩, hview, hv⟩ := exists_of_bind_eq_ok hv
    cases hv
    exact Interpreter.freezeTable_closed hs hview
  · cases hv

end StoryPack
