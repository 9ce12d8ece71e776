/-
The interpreter before any script runs.

It starts with six tables: the global variables, the libraries, and the
metatable of strings.  None of them has a metatable.  Setting the interpreter up
adds views of the libraries, and metatables of the basic types that show views.

* `Interpreter.tables_new` — the tables at the start;
* `Interpreter.Prepared` — what holds of the heap while views are added;
* `Interpreter.Prepared.guardPrimitives` — all basic types have a metatable in
  the end, and it shows a view.
-/
import StoryPack.Proofs.Confinement.Extension
import StoryPack.Proofs.Confinement.Snapshot
import StoryPack.Sandbox.Interpreter

namespace StoryPack

open Script

theorem bind_of_eq_ok {α β ε : Type} {x : Except ε α} {a : α} (hx : x = .ok a)
    (f : α → Except ε β) : x >>= f = f a := by
  rw [hx]
  rfl

theorem exists_of_bind_eq_ok {α β ε : Type} {x : Except ε α} {f : α → Except ε β} {b : β}
    (h : x >>= f = .ok b) : ∃ a, x = .ok a ∧ f a = .ok b := by
  cases x with
  | error e => cases h
  | ok a => exact ⟨a, rfl, h⟩

theorem Script.Table.named_set (es : List (String × Value)) (name : String) (v : Value) :
    (Table.named es).set (.str name.toUTF8) v = Table.named (es ++ [(name, v)]) := by
  simp [Table.named, Table.setAll]

theorem Script.Table.named_setAll (es es' : List (String × Value)) :
    (Table.named es).setAll (es'.map fun e => (.str e.1.toUTF8, e.2)) =
    Table.named (es ++ es') := by
  simp [Table.named, Table.setAll]

namespace Interpreter

/-! ### The first tables -/

/-- The global variables of an interpreter with all libraries. -/
def allEntries : List (String × Value) :=
  (Library.baseNames.map fun e => (e.1, .builtin (.base e.2))) ++
  [("_G", .table 0), ("_VERSION", .ofString version), ("string", .table 1), ("table", .table 2),
   ("math", .table 3), ("debug", .table 4)]

/-- The global variables that are left. -/
def globalEntries : List (String × Value) := allEntries ++ [("debug", .nil)]

def stringEntries : List (String × Value) :=
  Library.stringNames.map fun e => (e.1, .builtin (.string e.2))

def tableEntries : List (String × Value) :=
  Library.tableNames.map fun e => (e.1, .builtin (.table e.2))

def mathEntries : List (String × Value) :=
  (Library.mathNames.map fun e => (e.1, .builtin (.math e.2))) ++ mathConstants

def debugEntries : List (String × Value) :=
  Library.debugNames.map fun e => (e.1, .builtin (.debug e.2))

/-- The metatable of strings. -/
def operatorEntries : List (String × Value) :=
  ([.add, .sub, .mul, .mod, .pow, .div, .idiv, .unm].map
    fun op : Arith => ("__" ++ op.eventName, .builtin (.stringArith op))) ++
  [("__index", .table 1)]

/-- The tables of the libraries, and the metatable of strings. -/
def libraryTables : List Table :=
  [Table.named stringEntries, Table.named tableEntries, Table.named mathEntries,
    Table.named debugEntries, Table.named operatorEntries]

/-- The tables at the start. -/
def firstTables : Array Table := ⟨Table.named globalEntries :: libraryTables⟩

theorem tables_addLibrary (h : Heap) (es : List (String × Builtin)) :
    (addLibrary h es).1.tables =
      h.tables.push (Table.named (es.map fun e => (e.1, .builtin e.2))) := by
  refine (Heap.tables_foldl_setKey (fun e : String × Builtin => .str e.1.toUTF8)
    (fun e => Value.builtin e.2) es (h.newTable {}).1 h.tables.size).trans ?_
  rw [Heap.newTable, Heap.modify_push, Table.named, List.map_map]
  rfl

theorem rest_addLibrary (h : Heap) (es : List (String × Builtin)) :
    (addLibrary h es).2 = h.tables.size ∧ (addLibrary h es).1.cells = h.cells ∧
      (addLibrary h es).1.closures = h.closures ∧ (addLibrary h es).1.shared = h.shared ∧
      (addLibrary h es).1.limit = h.limit :=
  ⟨rfl, Heap.rest_foldl_setKey (fun e : String × Builtin => .str e.1.toUTF8)
    (fun e => Value.builtin e.2) es (h.newTable {}).1 h.tables.size⟩

theorem tables_foldl_setName {α : Type} (name : α → String) (value : α → Value) (es : List α)
    (h : Heap) (r : Nat) :
    (es.foldl (fun h e => h.setName r (name e) (value e)) h).tables =
      h.tables.modify r fun t => t.setAll (es.map fun e => (.str (name e).toUTF8, value e)) :=
  Heap.tables_foldl_setKey (fun e => .str (name e).toUTF8) value es h r

theorem rest_foldl_setName {α : Type} (name : α → String) (value : α → Value) (es : List α)
    (h : Heap) (r : Nat) :
    let g := es.foldl (fun h e => h.setName r (name e) (value e)) h
    g.cells = h.cells ∧ g.closures = h.closures ∧ g.shared = h.shared ∧ g.limit = h.limit :=
  Heap.rest_foldl_setKey (fun e => .str (name e).toUTF8) value es h r

theorem tables_setName (h : Heap) (r : Nat) (name : String) (v : Value) :
    (h.setName r name v).tables = h.tables.modify r fun t => t.set (.str name.toUTF8) v := rfl

/-- The tables of an interpreter with all libraries. -/
theorem tables_new (limit : Option Nat) :
    (new limit).heap.tables = ⟨Table.named allEntries :: libraryTables⟩ := by
  unfold new
  simp only [stringMetatable, tables_setName, tables_foldl_setName, tables_addLibrary,
    rest_addLibrary, Heap.setKey, Heap.newTable, List.push_toArray, List.nil_append,
    List.cons_append, List.size_toArray, List.length_nil, List.length_cons, Nat.zero_add,
    List.modify_toArray, List.modify_zero_cons, List.modify_succ_cons]
  simp only [Table.named_set, Table.named_setAll, List.map_map, List.append_assoc,
    List.cons_append, List.nil_append]
  rfl

/-- The debug library is no longer among the global variables. -/
theorem tables_start (limit : Option Nat) :
    ((new limit).setGlobal "debug" .nil).heap.tables = firstTables := by
  rw [setGlobal, tables_setName, tables_new]
  simp only [Heap.globals, List.modify_toArray, List.modify_zero_cons, Table.named_set]
  rfl

theorem rest_setName (h : Heap) (r : Nat) (name : String) (v : Value) :
    (h.setName r name v).cells = h.cells ∧ (h.setName r name v).closures = h.closures ∧
      (h.setName r name v).shared = h.shared ∧ (h.setName r name v).limit = h.limit :=
  ⟨rfl, rfl, rfl, rfl⟩

theorem rest_new (limit : Option Nat) :
    let h := ((new limit).setGlobal "debug" .nil).heap
    h.cells = #[.nil] ∧ h.closures = #[] ∧ h.shared = { string := some 5 } ∧
      h.limit = limit.filter fun n => n != 0 := by
  unfold new
  simp only [setGlobal, stringMetatable, rest_setName, rest_addLibrary, rest_foldl_setName,
    tables_setName, tables_foldl_setName, tables_addLibrary, Heap.setKey, Heap.newTable,
    List.push_toArray, List.nil_append, List.size_toArray, List.length_nil, List.length_cons,
    Array.size_modify, Nat.zero_add]
  exact ⟨trivial, trivial, rfl, trivial⟩

/-! ### Views of the libraries -/

/-- The library functions that scripts can get hold of. -/
def Open (f : Function) : Prop := ∃ b : Builtin, f = .builtin b ∧ b.isOpen

theorem not_open_deny : ¬Open (.builtin (.view .deny)) := by
  rintro ⟨b, hb, hopen⟩
  cases hb
  cases hopen

/-- A metatable that shows a view. -/
structure Shows (h : Heap) (m : Nat) : Prop where
  lt : m < h.tables.size
  metatable : (h.table m).metatable = none
  frozen : ∀ k, ((h.table m).get k).Frozen Open 0 h
  shown : ∃ v, (h.table m).get (.str Event.metatable) = .table v

/-- A view whose backing table has functions and numbers under texts. -/
structure Lists (h : Heap) (v : Nat) : Prop where
  frozen : (Value.table v).Frozen Open 0 h
  listed : (h.table (h.readThrough v)).Listed

/-- What holds of the heap while views are added to it. -/
structure Prepared (limit : Option Nat) (h : Heap) : Prop where
  size : 6 ≤ h.tables.size
  first : ∀ r < 6, h.table r = firstTables.getD r {}
  viewed : h.Viewed Open 0
  cells : h.cells = #[.nil]
  closures : h.closures = #[]
  limit : h.limit = limit
  shows : ∀ k ≠ .string, ∀ m, h.shared.of k = some m → Shows h m

variable {limit : Option Nat}

theorem Shows.extends {g h : Heap} {m : Nat} (hm : Shows g m) (hext : g.Extends h) : Shows h m := by
  have htable := hext.table m hm.lt
  refine ⟨Nat.lt_of_lt_of_le hm.lt hext.size, htable ▸ hm.metatable, fun k => ?_, htable ▸ hm.shown⟩
  rw [htable]
  exact (hm.frozen k).grows hext.toGrows

/-- Only the tables matter. -/
theorem Shows.congr {g h : Heap} {m : Nat} (hm : Shows h m) (htables : g.tables = h.tables) :
    Shows g m := by
  have htable (r : Nat) : g.table r = h.table r := by rw [Heap.table, Heap.table, htables]
  refine ⟨htables ▸ hm.lt, htable m ▸ hm.metatable, fun k => ?_, htable m ▸ hm.shown⟩
  rw [htable]
  exact (hm.frozen k).mono (Nat.le_of_eq (by rw [htables])) fun r _ => by rw [htable]

theorem Prepared.extends {g h : Heap} (hh : Prepared limit h) (hext : h.Extends g)
    (hviewed : g.Viewed Open 0) : Prepared limit g where
  size := Nat.le_trans hh.size hext.size
  first r hr := (hext.table r (Nat.lt_of_lt_of_le hr hh.size)).trans (hh.first r hr)
  viewed := hviewed
  cells := hext.cells.trans hh.cells
  closures := hext.closures.trans hh.closures
  limit := hext.limit.trans hh.limit
  shows k hk m hm := (hh.shows k hk m (hext.shared ▸ hm)).extends hext

theorem metatable_firstTables (r : Nat) : (firstTables.getD r {}).metatable = none := by
  match r with
  | 0 | 1 | 2 | 3 | 4 | 5 => exact Table.metatable_named _
  | _ + 6 => rfl

/-! ### The new metatable of strings -/

/-- The entries of the metatable of strings, if they have one. -/
def sharedEntries (h : Heap) : List (Key × Value) :=
  match h.shared.string with
  | some m => (h.table m).entries
  | none => []

/-- The heap to which the new metatable of strings has been added. It shows nothing yet. -/
def liveHeap (h : Heap) (strings : Nat) : Heap :=
  let filled :=
    (sharedEntries h).foldl (fun h' e => h'.setKey h.tables.size e.1 e.2) (h.newTable {}).1
  (filled.setKey h.tables.size (.str Event.index) (.table strings)).setKey h.tables.size
    (.str Event.metatable) .nil

/-- A metatable with these entries, in which only the library is another one. -/
def liveTable (present : List (Key × Value)) (strings : Nat) : Table :=
  ((Table.setAll {} present).set (.str Event.index) (.table strings)).set
    (.str Event.metatable) .nil

theorem guardStrings_eq (h : Heap) (strings : Nat) : Interpreter.guardStrings h strings =
    Interpreter.freezeTable (liveHeap h strings) h.tables.size >>= fun p =>
      .ok { p.1.setKey h.tables.size (.str Event.metatable) (.table p.2) with
        shared := p.1.shared.put .string (some h.tables.size) } := rfl

theorem tables_liveHeap (h : Heap) (strings : Nat) :
    (liveHeap h strings).tables = h.tables.push (liveTable (sharedEntries h) strings) := by
  have hfold := Heap.tables_foldl_setKey Prod.fst Prod.snd (sharedEntries h) (h.newTable {}).1
    h.tables.size
  have hpush := Heap.modify_push h.tables {} fun t =>
    t.setAll ((sharedEntries h).map fun e => (e.1, e.2))
  have hentries := congrArg (Table.setAll {}) (List.map_id (sharedEntries h))
  rw [liveHeap, Heap.tables_setKey, Heap.tables_setKey, hfold, Heap.newTable, hpush,
    Heap.modify_push, Heap.modify_push]
  exact congrArg (fun t : Table => h.tables.push
    ((t.set (.str Event.index) (.table strings)).set (.str Event.metatable) .nil)) hentries

theorem liveHeap_extends (h : Heap) (strings : Nat) : h.Extends (liveHeap h strings) := by
  obtain ⟨tables, used, hfold⟩ := Heap.foldl_setKey_eq Prod.fst Prod.snd (sharedEntries h)
    (h.newTable {}).1 h.tables.size
  have hlive : liveHeap h strings = { h with
      tables := (liveHeap h strings).tables, used := (liveHeap h strings).used } := by
    rw [liveHeap, hfold]
    rfl
  have htables := tables_liveHeap h strings
  refine ⟨⟨by rw [htables, Array.size_push]; omega, fun r hr => ?_⟩, ?_, ?_, ?_, ?_, ?_, ?_⟩
  · rw [Heap.table_push _ htables, if_neg (Nat.ne_of_lt hr)]
  all_goals rw [hlive]

namespace Prepared

variable {g h : Heap}

theorem start (limit : Option Nat) :
    Prepared (limit.filter fun n => n != 0) ((new limit).setGlobal "debug" .nil).heap := by
  have htables := tables_start limit
  obtain ⟨hcells, hclosures, hshared, hlimit⟩ := rest_new limit
  generalize ((new limit).setGlobal "debug" .nil).heap = h
    at htables hcells hclosures hshared hlimit
  have htable (r : Nat) : h.table r = firstTables.getD r {} := by
    rw [Heap.table, htables, Array.getD_eq_getD_getElem?]
  refine ⟨Nat.le_of_eq (by rw [htables]; rfl), fun r _ => htable r, ?_,
    hcells, hclosures, hlimit, ?_⟩
  · intro r m _ hm
    rw [htable, metatable_firstTables] at hm
    cases hm
  · intro k hk m hm
    rw [hshared] at hm
    cases k <;> first | exact absurd rfl hk | cases hm

/-- Readers look at the backing table of a view, and at other tables themselves. -/
theorem holds_readThrough (hh : Prepared limit h) {r : Nat}
    (hr : (Value.table r).Frozen Open 0 h) :
    (h.table (h.readThrough r)).Holds (Value.Frozen Open 0 h) := by
  obtain ⟨m, hm⟩ := Option.isSome_iff_exists.mp hr.2.2
  obtain ⟨-, -, -, b, hmeta, hback⟩ := hh.viewed r m (Nat.zero_le _) hm
  rw [Heap.readThrough_of_view hm hmeta]
  exact hback.holds

theorem lists_grows (hh : Prepared limit h) (hgrows : h.Grows g) {v : Nat} (hv : Lists h v) :
    Lists g v := by
  obtain ⟨m, hm⟩ := Option.isSome_iff_exists.mp hv.frozen.2.2
  obtain ⟨-, -, hlt, b, hmeta, hback⟩ := hh.viewed v m (Nat.zero_le _) hm
  have hm' : (g.table v).metatable = some m := by rw [hgrows.table v hv.frozen.2.1, hm]
  have hmeta' : g.table m = Heap.viewMetatable b (.bool false) := by
    rw [hgrows.table m hlt, hmeta]
  have hlisted := hv.listed
  rw [Heap.readThrough_of_view hm hmeta] at hlisted
  refine ⟨hv.frozen.grows hgrows, ?_⟩
  rw [Heap.readThrough_of_view hm' hmeta', hgrows.table b hback.upper]
  exact hlisted

/-- A view is added of a table that is none. -/
theorem freezeTable (hh : Prepared limit h) {r : Nat} (hr : (h.table r).metatable = none)
    {P : Value → Prop} (hP : Table.Admits P) (hholds : (h.table r).Holds P)
    (hread : ∀ c, P (.table c) → (h.table (h.readThrough c)).Holds P)
    (hfun : ∀ f, P (.function f) → Open f) {v : Nat}
    (hg : Interpreter.freezeTable h r = .ok (g, v)) :
    Prepared limit g ∧ h.Extends g ∧ (Value.table v).Frozen Open 0 g ∧
    g.Viewed Open h.tables.size := by
  obtain ⟨t, ht, hg⟩ := exists_of_bind_eq_ok hg
  cases hg
  rw [← Heap.readThrough_of_isNone hr] at hholds
  have hwithin : t.Within Open := Heap.snapshot_within hP hread hfun hholds ht
  obtain ⟨hviewed, hext, hfrozen⟩ :=
    Heap.freeze_viewed not_open_deny (Nat.zero_le _) hh.viewed hwithin
  have hnew : h.Viewed Open h.tables.size := fun r m hr hm =>
    absurd (Heap.lt_of_metatable hm) (Nat.not_lt.mpr hr)
  exact ⟨hh.extends hext hviewed, hext, hfrozen,
    (Heap.freeze_viewed not_open_deny (Nat.le_refl _) hnew hwithin).1⟩

/-- A library holds functions that scripts can get hold of, and numbers. -/
theorem freezeLibrary (hh : Prepared limit h) {r : Nat} (hr : r < 6) {es : List (String × Value)}
    (htable : firstTables.getD r {} = Table.named es)
    (hes : ∀ e ∈ es, e.2.Frozen Open 0 h ∧ e.2.IsLeaf) :
    ∃ g v, Interpreter.freezeTable h r = .ok (g, v) ∧ Prepared limit g ∧ h.Extends g ∧
      Lists g v := by
  let P (v : Value) : Prop := v.Frozen Open 0 h ∧ ∀ c, v ≠ .table c
  have hP : Table.Admits P :=
    ⟨⟨trivial, fun _ hc => by cases hc⟩, fun _ => ⟨trivial, fun _ hc => by cases hc⟩⟩
  have hr' : h.table r = Table.named es := (hh.first r hr).trans htable
  have hmeta : (h.table r).metatable = none := hr' ▸ Table.metatable_named es
  have hlisted : (h.table (h.readThrough r)).Listed := by
    rw [Heap.readThrough_of_isNone hmeta, hr']
    exact Table.listed_named fun e he => (hes e he).2
  obtain ⟨entries, hentries, hlisting⟩ :=
    Heap.snapshotEntries_listed hlisted (h.tables.size + 1) List.not_mem_nil ""
  have hfreeze : Interpreter.freezeTable h r = .ok (h.freeze ⟨entries⟩) := by
    rw [Interpreter.freezeTable, Heap.snapshot, hentries]
    rfl
  have hholds : (h.table r).Holds P := by
    rw [hr']
    refine Table.holds_named hP (fun _ => ⟨trivial, fun _ hc => by cases hc⟩) fun e he => ?_
    refine ⟨(hes e he).1, fun c hc => ?_⟩
    have hleaf := (hes e he).2
    rw [hc] at hleaf
    exact hleaf
  obtain ⟨hprepared, hext, hfrozen, -⟩ := hh.freezeTable hmeta hP hholds
    (fun c hc => absurd rfl (hc.2 c)) (fun f hf => hf.1) hfreeze
  exact ⟨_, _, hfreeze, hprepared, hext, hfrozen, Heap.freeze_listing hlisting⟩

/-- A table without metatable is added, and filled. -/
theorem push (hh : Prepared limit h) {t : Table} (ht : t.metatable = none) (hext : h.Extends g)
    (htables : g.tables = h.tables.push t) : Prepared limit g :=
  hh.extends hext (hh.viewed.push ht hext htables)

/-! ### Metatables of the basic types -/

/-- A table that shows a view is added. -/
theorem pushShown (hh : Prepared limit h) {v : Nat} (hv : (Value.table v).Frozen Open 0 h) :
    let g := (h.newTable {}).1.setKey h.tables.size (.str Event.metatable) (.table v)
    Prepared limit g ∧ h.Extends g ∧ Shows g h.tables.size := by
  intro g
  let t : Table := ({} : Table).set (.str Event.metatable) (.table v)
  have htables : g.tables = h.tables.push t :=
    Heap.modify_push h.tables {} fun t => t.set (.str Event.metatable) (.table v)
  have htable (r : Nat) : g.table r = if r = h.tables.size then t else h.table r :=
    Heap.table_push g htables
  have hsize : g.tables.size = h.tables.size + 1 := by rw [htables, Array.size_push]
  have hext : h.Extends g := by
    refine ⟨⟨by omega, fun r hr => ?_⟩, rfl, rfl, rfl, rfl, rfl, rfl⟩
    rw [htable, if_neg (Nat.ne_of_lt hr)]
  have hmeta : t.metatable = none := Table.metatable_set {} _ _
  have hlast : g.table h.tables.size = t := by rw [htable, if_pos rfl]
  have hget := Table.get_set (Table.sound_empty 0 none) (.str Event.metatable) (.table v)
  refine ⟨hh.push hmeta hext htables, hext, by omega, hlast ▸ hmeta, fun k => ?_, v, ?_⟩
  · rw [hlast, hget]
    split
    · exact hv.grows hext.toGrows
    · rw [Table.get_empty]
      trivial
  · rw [hlast, hget, if_pos rfl]

theorem of_put (s : KindTables) (kind k : Kind) (m : Option Nat) :
    (s.put kind m).of k = s.of k ∨ k = kind ∧ (s.put kind m).of k = m := by
  by_cases hk : k = kind
  · subst hk
    cases k <;> first | exact .inr ⟨rfl, rfl⟩ | exact .inl rfl
  · refine .inl ?_
    cases k <;> cases kind <;> first | exact absurd rfl hk | rfl

theorem of_put_self (s : KindTables) {k : Kind} (htable : k ≠ .table) (huserdata : k ≠ .userdata)
    (m : Option Nat) : (s.put k m).of k = m := by
  cases k <;> first | rfl | exact absurd rfl htable | exact absurd rfl huserdata

/-- A basic type is given a metatable that shows a view. -/
theorem share (hh : Prepared limit h) (kind : Kind) {m : Nat} (hm : Shows h m) :
    Prepared limit { h with shared := h.shared.put kind (some m) } ∧
      Shows { h with shared := h.shared.put kind (some m) } m := by
  have hshows {l : Nat} (hl : Shows h l) :
      Shows { h with shared := h.shared.put kind (some m) } l := hl.congr rfl
  refine ⟨⟨hh.size, hh.first, hh.viewed.congr rfl, hh.cells, hh.closures, hh.limit,
    fun k hk m' hm' => ?_⟩,
    hshows hm⟩
  rcases of_put h.shared kind k (some m) with hsame | ⟨-, hput⟩
  · exact hshows (hh.shows k hk m' (hsame.symm.trans hm'))
  · cases hput.symm.trans hm'
    exact hshows hm

/-- A basic type that had no metatable gets one that shows an empty view. -/
theorem guardKind (hh : Prepared limit h) {kind : Kind} (hnone : h.shared.of kind = none) :
    ∃ g, Interpreter.guardKind h kind = .ok g ∧ Prepared limit g ∧ h.Grows g ∧
      ∃ m, g.shared = h.shared.put kind (some m) := by
  unfold Interpreter.guardKind
  rw [hnone]
  have hext₁ : h.Extends (h.newTable {}).1 := h.newTable_extends {}
  have hh₁ : Prepared limit (h.newTable {}).1 := hh.push rfl hext₁ rfl
  obtain ⟨hviewed, hext₂, hview⟩ :=
    hh₁.viewed.newView (Nat.zero_le _) (Heap.backs_newTable (Nat.zero_le _))
  obtain ⟨hh₃, hext₃, hshows⟩ := (hh₁.extends hext₂ hviewed).pushShown hview
  have hext := (hext₁.trans hext₂).trans hext₃
  exact ⟨_, rfl, (hh₃.share kind hshows).1, ⟨hext.size, hext.table⟩, _, rfl⟩

/-- The new metatables are put in place one after another. What holds after each of them holds once
all of them are there. -/
theorem foldlM_guardKind {P : Heap → Prop}
    (hstep : ∀ h kind, P h → h.shared.of kind = none →
      ∃ g, Interpreter.guardKind h kind = .ok g ∧ P g ∧ ∃ m, g.shared = h.shared.put kind (some m))
    (hh : P h) {kinds : List Kind} (hkinds : kinds.Nodup)
    (hnone : ∀ k ∈ kinds, h.shared.of k = none) :
    ∃ g, kinds.foldlM Interpreter.guardKind h = .ok g ∧ P g ∧
      (∀ k ∉ kinds, g.shared.of k = h.shared.of k) ∧
      ∀ k ∈ kinds, k ≠ .table → k ≠ .userdata → (g.shared.of k).isSome := by
  induction kinds generalizing h with
  | nil => exact ⟨h, rfl, hh, fun _ _ => rfl, fun _ hk => by cases hk⟩
  | cons kind kinds ih =>
    obtain ⟨h₁, hh₁, hp, m, hm⟩ := hstep h kind hh (hnone kind List.mem_cons_self)
    obtain ⟨hkind, hkinds⟩ := List.nodup_cons.mp hkinds
    have hsame (k : Kind) (hk : k ≠ kind) : h₁.shared.of k = h.shared.of k := by
      rw [hm]
      exact (of_put h.shared kind k (some m)).resolve_right fun h => hk h.1
    have hrest := ih hp hkinds fun k hk => by
      rw [hsame k fun heq => hkind (heq ▸ hk)]
      exact hnone k (List.mem_cons_of_mem _ hk)
    obtain ⟨g, hg, hp', hsame', hsome⟩ := hrest
    refine ⟨g, ?_, hp', fun k hk => ?_, fun k hk htable huserdata => ?_⟩
    · rw [List.foldlM_cons, hh₁]
      exact hg
    · rw [List.mem_cons, not_or] at hk
      obtain ⟨hne, hk⟩ := hk
      exact (hsame' k hk).trans (hsame k hne)
    · rcases List.mem_cons.mp hk with rfl | hk
      · rw [hsame' k hkind, hm, of_put_self _ htable huserdata]
        rfl
      · exact hsome k hk htable huserdata

/-- Some basic types that had no metatable get one each. -/
theorem guardKinds (hh : Prepared limit h) {kinds : List Kind} (hkinds : kinds.Nodup)
    (hnone : ∀ k ∈ kinds, h.shared.of k = none) :
    ∃ g, kinds.foldlM Interpreter.guardKind h = .ok g ∧ (Prepared limit g ∧ h.Grows g) ∧
      (∀ k ∉ kinds, g.shared.of k = h.shared.of k) ∧
      ∀ k ∈ kinds, k ≠ .table → k ≠ .userdata → (g.shared.of k).isSome := by
  refine foldlM_guardKind (fun h' kind hh' hnone => ?_) ⟨hh, .refl h⟩ hkinds hnone
  obtain ⟨g, hg, hprepared, hgrows, hput⟩ := hh'.1.guardKind hnone
  exact ⟨g, hg, ⟨hprepared, hh'.2.trans hgrows⟩, hput⟩

/-- A view that has been added to a heap stays one when a table that is not part of it is written
to. -/
theorem setKey_apart (hh : Prepared limit h) {l : Nat} (hl : 6 ≤ l) (hlt : l < h.tables.size)
    (hmeta : (h.table l).metatable = none)
    (hapart : ∀ r m b, (h.table r).metatable = some m →
      h.table m = Heap.viewMetatable b (.bool false) → m ≠ l ∧ b ≠ l)
    (hshared : ∀ k ≠ .string, h.shared.of k ≠ some l) (k : Key) (v : Value) :
    Prepared limit (h.setKey l k v) := by
  have htable (r : Nat) (hr : r ≠ l) : (h.setKey l k v).table r = h.table r := by
    rw [Heap.table_setKey h hlt, if_neg hr]
  have hmono {w : Value} (hw : w.Frozen Open 0 h) : w.Frozen Open 0 (h.setKey l k v) :=
    hw.mono (Nat.le_of_eq (Heap.size_setKey ..).symm) fun r _ => Heap.metatable_setKey h l k v r
  refine ⟨by simpa using hh.size, fun r hr => ?_, ?_, hh.cells, hh.closures, hh.limit, ?_⟩
  · rw [htable r (by omega)]
    exact hh.first r hr
  · intro r m hr hm
    rw [Heap.metatable_setKey] at hm
    obtain ⟨hview, -, hmlt, b, hm', hback⟩ := hh.viewed r m hr hm
    obtain ⟨hml, hbl⟩ := hapart r m b hm hm'
    have hrl : r ≠ l := by
      rintro rfl
      rw [hmeta] at hm
      cases hm
    rw [htable r hrl, htable m hml]
    refine ⟨hview, Nat.zero_le _, by simpa using hmlt, b, hm', Nat.zero_le _,
      by simpa using hback.upper, ?_, ?_, ?_⟩
    · rw [htable b hbl]
      exact hback.metatable
    · rw [htable b hbl]
      exact hback.sound
    · rw [htable b hbl]
      exact hback.holds.mono fun _ => hmono
  · intro kind hkind m hm
    have hshows := hh.shows kind hkind m hm
    have hml : m ≠ l := fun heq => hshared kind hkind (heq ▸ hm)
    refine ⟨by simpa using hshows.lt, ?_, fun key => ?_, ?_⟩
    · rw [htable m hml]
      exact hshows.metatable
    · rw [htable m hml]
      exact hmono (hshows.frozen key)
    · rw [htable m hml]
      exact hshows.shown

/-- The metatable of strings, its library replaced by a view. -/
def liveStrings (strings : Nat) : Table :=
  ((Table.setAll {} (Table.named operatorEntries).entries).set (.str Event.index)
    (.table strings)).set (.str Event.metatable) .nil

theorem liveTable_eq_liveStrings (hh : Prepared limit h) (hstring : h.shared.string = some 5)
    (strings : Nat) : liveTable (sharedEntries h) strings = liveStrings strings := by
  have hentries : sharedEntries h = (h.table 5).entries := by rw [sharedEntries, hstring]
  rw [hentries, show h.table 5 = Table.named operatorEntries from hh.first 5 (by decide)]
  rfl

theorem metatable_liveStrings (strings : Nat) : (liveStrings strings).metatable = none := by
  rw [liveStrings, Table.metatable_set, Table.metatable_set, Table.metatable_setAll]

theorem sound_liveStrings (strings : Nat) : (liveStrings strings).Sound :=
  ((((Table.sound_empty 0 none).setAll _).set _ _).1.set _ _).1

/-- Whatever is found in it is the view, or a function, and it is found under a text. -/
theorem get_liveStrings (strings : Nat) (k : Key) :
    (liveStrings strings).get k = .nil ∨ (∃ s : String, k = .str s.toUTF8) ∧
      ((liveStrings strings).get k = .table strings ∨
        ∃ op, (liveStrings strings).get k = .builtin (.stringArith op)) := by
  have h₀ := Table.sound_empty 0 none
  have h₁ := h₀.setAll (Table.named operatorEntries).entries
  have h₂ := (h₁.set (.str Event.index) (.table strings)).1
  rw [liveStrings, Table.get_set h₂, Table.get_set h₁]
  split_ifs with hmeta hindex
  · exact .inl rfl
  · exact .inr ⟨⟨"__index", hindex⟩, .inl rfl⟩
  · rw [h₀.get_setAll, Table.get_empty]
    rcases Table.lastOf_eq_or_mem k (Table.named operatorEntries).entries .nil with hnil | hmem
    · exact .inl hnil
    · rw [← ((Table.sound_named operatorEntries).get_of_mem_entries hmem).1]
      rcases Table.get_named_cases operatorEntries k with hnil | ⟨e, he, hk, hget⟩
      · exact .inl hnil
      · rcases List.mem_append.mp he with he | he
        · obtain ⟨op, -, rfl⟩ := List.mem_map.mp he
          exact .inr ⟨⟨_, hk⟩, .inr ⟨op, hget⟩⟩
        · cases List.mem_singleton.mp he
          exact absurd hk hindex

theorem get_index_liveStrings (strings : Nat) :
    (liveStrings strings).get (.str Event.index) = .table strings := by
  have h₁ := (Table.sound_empty 0 none).setAll (Table.named operatorEntries).entries
  have h₂ := (h₁.set (.str Event.index) (.table strings)).1
  rw [liveStrings, Table.get_set h₂, Table.get_set h₁, if_neg (by decide), if_pos rfl]

/-- There is a snapshot of it. -/
theorem snapshot_liveStrings {r strings : Nat} (hr : h.table r = liveStrings strings)
    (hs : Lists h strings) : ∃ t, h.snapshot r = .ok t := by
  have hmeta : (h.table r).metatable = none := hr ▸ metatable_liveStrings strings
  -- the table is not among those that it leads to
  have hne : h.readThrough strings ∉ [h.readThrough r] := by
    rw [List.mem_singleton, Heap.readThrough_of_isNone hmeta]
    intro heq
    have hget := hs.listed.get (.str Event.index)
    rw [heq, hr, get_index_liveStrings] at hget
    rcases hget with hget | hget
    · cases hget
    · exact hget.2
  obtain ⟨entries, hentries, -⟩ :
      ∃ entries, Heap.snapshotEntries h (h.tables.size + 1 + 1) [] "" r =
      .ok entries ∧ ∀ e ∈ entries, True := by
    unfold Heap.snapshotEntries
    dsimp only
    rw [if_neg (by simp)]
    refine Heap.exists_mapM_ok fun e he => ?_
    rw [Heap.readThrough_of_isNone hmeta, hr] at he
    obtain ⟨hget, hnil⟩ := (sound_liveStrings strings).get_of_mem_snapshotOrder he
    obtain ⟨k, v⟩ := e
    have hcases := get_liveStrings strings k
    rw [hget] at hcases
    rcases hcases with rfl | ⟨⟨s, rfl⟩, rfl | ⟨op, rfl⟩⟩
    · cases hnil
    · obtain ⟨es, hes, -⟩ := Heap.snapshotEntries_listed hs.listed h.tables.size hne
        (Heap.childPath "" (.text s))
      refine ⟨(.text s, .table es), ?_, trivial⟩
      dsimp only
      rw [Heap.snapshotKey_text]
      show (Heap.snapshotEntries h (h.tables.size + 1) [h.readThrough r] _ strings >>= _) = _
      rw [hes]
      rfl
    · refine ⟨(.text s, .function (.builtin (.stringArith op))), ?_, trivial⟩
      dsimp only
      rw [Heap.snapshotKey_text]
      rfl
  exact ⟨⟨entries⟩, by rw [Heap.snapshot, hentries]; rfl⟩

/-- A view is added of the metatable of strings, in which the library itself may be found. -/
theorem freezeStrings (hh : Prepared limit h) {r strings : Nat}
    (hr : h.table r = liveStrings strings) (hs : Lists h strings) :
    ∃ g v, Interpreter.freezeTable h r = .ok (g, v) ∧ Prepared limit g ∧ h.Extends g ∧
      (Value.table v).Frozen Open 0 g ∧ g.Viewed Open h.tables.size := by
  let P (v : Value) : Prop := v.Frozen Open 0 h ∨ v = .table 1
  have hP : Table.Admits P := ⟨.inl trivial, fun _ => .inl trivial⟩
  have hoperators : (Table.named operatorEntries).Holds P := by
    refine Table.holds_named hP (fun _ => .inl trivial) fun e he => ?_
    rcases List.mem_append.mp he with he | he
    · obtain ⟨op, -, rfl⟩ := List.mem_map.mp he
      exact .inl ⟨_, rfl, rfl⟩
    · cases List.mem_singleton.mp he
      exact .inr rfl
  have hentries : (Table.setAll {} (Table.named operatorEntries).entries).Holds P :=
    (Table.holds_empty 0 none).setAll hP fun e he => hoperators.entries hP he
  have hholds : (h.table r).Holds P := by
    rw [hr]
    have htext (s : ByteArray) : P (Key.str s).toValue := .inl trivial
    exact (hentries.set hP (htext _) (.inl hs.frozen)).set hP (htext _) (.inl trivial)
  have hlibrary : h.table 1 = Table.named stringEntries := hh.first 1 (by decide)
  obtain ⟨t, ht⟩ := snapshot_liveStrings hr hs
  have hfreeze : Interpreter.freezeTable h r = .ok (h.freeze t) := by
    rw [Interpreter.freezeTable, ht]
    rfl
  refine ⟨_, _, hfreeze, hh.freezeTable (hr ▸ metatable_liveStrings strings) hP hholds
    (fun c hc => ?_) (fun f hf => ?_) hfreeze⟩
  · rcases hc with hc | hc
    · exact (hh.holds_readThrough hc).mono fun _ => .inl
    · cases hc
      rw [Heap.readThrough_of_isNone (hlibrary ▸ Table.metatable_named _), hlibrary]
      refine Table.holds_named hP (fun _ => .inl trivial) fun e he => .inl ?_
      obtain ⟨f, -, rfl⟩ := List.mem_map.mp he
      exact ⟨_, rfl, rfl⟩
  · rcases hf with hf | hf
    · exact hf
    · cases hf

/-- Strings get a metatable that shows a view of itself. -/
theorem guardStrings (hh : Prepared limit h) (hstring : h.shared.string = some 5) {strings : Nat}
    (hs : Lists h strings) :
    ∃ g, Interpreter.guardStrings h strings = .ok g ∧ Prepared limit g ∧ h.Grows g ∧
      ∃ m, g.shared = h.shared.put .string (some m) ∧ Shows g m := by
  rw [guardStrings_eq]
  have htables := tables_liveHeap h strings
  have hext₁ := liveHeap_extends h strings
  rw [hh.liveTable_eq_liveStrings hstring] at htables
  generalize liveHeap h strings = h₁ at htables hext₁
  have htable (r : Nat) :
      h₁.table r = if r = h.tables.size then liveStrings strings else h.table r :=
    Heap.table_push h₁ htables
  have hsize : h₁.tables.size = h.tables.size + 1 := by rw [htables, Array.size_push]
  have hh₁' : Prepared limit h₁ := hh.push (metatable_liveStrings strings) hext₁ htables
  have hlive : h₁.table h.tables.size = liveStrings strings := by rw [htable, if_pos rfl]
  have hmeta : (h₁.table h.tables.size).metatable = none := hlive ▸ metatable_liveStrings strings
  obtain ⟨h₂, view, hfreeze, hh₂, hext₂, hview, hnew⟩ :=
    hh₁'.freezeStrings hlive (hh.lists_grows hext₁.toGrows hs)
  have hlive₂ : h₂.table h.tables.size = liveStrings strings :=
    (hext₂.table _ (by omega)).trans hlive
  have hlt : h.tables.size < h₂.tables.size := by
    have := hext₂.size
    omega
  -- the new metatable is no part of a view: it is younger than some, and older than the others
  have hapart (r m b : Nat) (hm : (h₂.table r).metatable = some m)
      (hm' : h₂.table m = Heap.viewMetatable b (.bool false)) :
      m ≠ h.tables.size ∧ b ≠ h.tables.size := by
    rcases Nat.lt_or_ge r h₁.tables.size with hr | hr
    · rw [hext₂.table r hr, htable] at hm
      split at hm
      · rw [metatable_liveStrings] at hm
        cases hm
      · obtain ⟨-, -, hmlt, b', hb', hback⟩ := hh.viewed r m (Nat.zero_le _) hm
        rw [(hext₁.trans hext₂).table m hmlt, hb'] at hm'
        have := hback.upper
        rw [← Heap.viewMetatable_inj hm']
        omega
    · obtain ⟨-, hmge, -, b', hb', hback⟩ := hnew r m hr hm
      have := hback.lower
      rw [← Heap.viewMetatable_inj (hb'.symm.trans hm')]
      omega
  have hothers (k : Kind) (hk : k ≠ .string) : h₂.shared.of k ≠ some h.tables.size := by
    intro hm
    rw [(hext₁.trans hext₂).shared] at hm
    exact absurd (hh.shows k hk _ hm).lt (Nat.lt_irrefl _)
  have hh₃ := hh₂.setKey_apart hh.size hlt (hlive₂ ▸ metatable_liveStrings strings) hapart hothers
    (.str Event.metatable) (.table view)
  have hmono (v : Value) (hv : v.Frozen Open 0 h₂) :
      v.Frozen Open 0 (h₂.setKey h.tables.size (.str Event.metatable) (.table view)) :=
    hv.mono (Nat.le_of_eq (Heap.size_setKey ..).symm) fun r _ => Heap.metatable_setKey h₂ _ _ _ r
  have hgrows : h.Grows (h₂.setKey h.tables.size (.str Event.metatable) (.table view)) := by
    refine ⟨by simpa using Nat.le_of_lt hlt, fun r hr => ?_⟩
    rw [Heap.table_setKey h₂ hlt, if_neg (Nat.ne_of_lt hr), (hext₁.trans hext₂).table r hr]
  have hshows : Shows (h₂.setKey h.tables.size (.str Event.metatable) (.table view))
      h.tables.size := by
    have hget := Table.get_set (sound_liveStrings strings) (.str Event.metatable) (.table view)
    have htable : (h₂.setKey h.tables.size (.str Event.metatable) (.table view)).table
        h.tables.size = (liveStrings strings).set (.str Event.metatable) (.table view) := by
      rw [Heap.table_setKey h₂ hlt, if_pos rfl, hlive₂]
    refine ⟨by simpa using hlt, ?_, fun k => ?_, view, ?_⟩
    · rw [htable, Table.metatable_set, metatable_liveStrings]
    · rw [htable, hget]
      split
      · exact hmono _ hview
      · rcases get_liveStrings strings k with hk | ⟨-, hk | ⟨op, hk⟩⟩
        · rw [hk]
          trivial
        · rw [hk]
          exact hs.frozen.grows hgrows
        · rw [hk]
          exact ⟨_, rfl, rfl⟩
    · rw [htable, hget, if_pos rfl]
  obtain ⟨hprepared, hlast⟩ := hh₃.share .string hshows
  rw [hfreeze]
  refine ⟨_, rfl, hprepared, ⟨hgrows.size, hgrows.table⟩, _, ?_, hlast⟩
  exact congrArg (fun s : KindTables => s.put .string (some h.tables.size))
    (hext₁.trans hext₂).shared

/-- All basic types get metatables that show views. -/
theorem guardPrimitives {s : Interpreter} (hs : Prepared limit s.heap)
    (hguarded : s.guarded = false) (hshared : s.heap.shared = { string := some 5 }) {strings : Nat}
    (hstrings : Lists s.heap strings) :
    ∃ s' done, s.guardPrimitives strings = .ok (s', done) ∧ Prepared limit s'.heap ∧
      s.heap.Grows s'.heap ∧ (∀ k m, s'.heap.shared.of k = some m → Shows s'.heap m) ∧
      ∀ k, k ≠ .table → k ≠ .userdata → (s'.heap.shared.of k).isSome := by
  have hnone : ∀ k ∈ [Kind.boolean, .number, .nil, .function, .thread],
      s.heap.shared.of k = none := by
    rw [hshared]
    decide
  obtain ⟨h₁, hkinds, ⟨hh₁, hgrows₁⟩, hsame, hsome⟩ := hs.guardKinds (by decide) hnone
  have hstring : h₁.shared.string = some 5 := by
    have hof := hsame .string (by decide)
    rw [hshared] at hof
    exact hof
  obtain ⟨h₂, hlast, hh₂, hgrows₂, m, hm, hshows⟩ :=
    hh₁.guardStrings hstring (hs.lists_grows hgrows₁ hstrings)
  refine ⟨{ s with heap := h₂, guarded := true }, true, ?_, hh₂, hgrows₁.trans hgrows₂,
    fun k m' hm' => ?_, fun k ht hu => ?_⟩
  · unfold Interpreter.guardPrimitives
    rw [hguarded, if_neg Bool.false_ne_true, bind_of_eq_ok hkinds, bind_of_eq_ok hlast]
    rfl
  · by_cases hk : k = .string
    · subst hk
      dsimp only at hm'
      rw [hm, of_put_self _ (by decide) (by decide)] at hm'
      cases hm'
      exact hshows
    · exact hh₂.shows k hk m' hm'
  · by_cases hk : k = .string
    · subst hk
      dsimp only
      rw [hm, of_put_self _ (by decide) (by decide)]
      rfl
    · dsimp only
      rw [hm, (of_put h₁.shared .string k (some m)).resolve_right fun h => hk h.1]
      refine hsome k ?_ ht hu
      cases k <;> simp_all

end Prepared

end Interpreter

end StoryPack
