/-
What freezing adds to a heap.

Freezing only adds tables.  Those of them that have a metatable are views, with
metatables and backing tables of their own, and backing tables hold no tables
but such views.

* `Heap.Extends` — a heap to which tables have been added;
* `Heap.Viewed` — the tables from some place on that have a metatable are views;
* `Heap.freeze_viewed` — freezing a scope keeps this so, and gives a view;
* `Heap.snapshot_within` — the functions of a snapshot come from its table.
-/
import StoryPack.Proofs.Confinement.Metatable
import StoryPack.Sandbox.Snapshot
import StoryPack.Sandbox.View

namespace StoryPack

namespace Scope.Value

mutual

/-- A value all of whose functions are of some kind. -/
def Within (F : Script.Function → Prop) : Value → Prop
  | .table entries => entriesWithin F entries
  | .function f => F f
  | _ => True

/-- Entries all of whose functions are of some kind. -/
def entriesWithin (F : Script.Function → Prop) : List (Key × Value) → Prop
  | [] => True
  | (_, v) :: rest => v.Within F ∧ entriesWithin F rest

end

theorem entriesWithin_iff {F : Script.Function → Prop} {entries : List (Key × Value)} :
    entriesWithin F entries ↔ ∀ e ∈ entries, e.2.Within F := by
  induction entries with
  | nil => simp [entriesWithin]
  | cons e rest ih => simp [entriesWithin, ih]

end Scope.Value

/-- A scope all of whose functions are of some kind. -/
def Scope.Table.Within (F : Script.Function → Prop) (t : Scope.Table) : Prop :=
  Scope.Value.entriesWithin F t.entries

namespace Script

/-- The values that backing tables hold: of all tables only views from `n` on, and of all functions
those of some kind. -/
def Value.Frozen (F : Function → Prop) (n : Nat) (h : Heap) : Value → Prop
  | .table r => n ≤ r ∧ r < h.tables.size ∧ (h.table r).metatable.isSome
  | .function f => F f
  | _ => True

variable {F : Function → Prop} {n : Nat}

theorem admits_frozen (F : Function → Prop) (n : Nat) (h : Heap) :
    Table.Admits (Value.Frozen F n h) := ⟨trivial, fun _ => trivial⟩

theorem frozen_toScript (k : Scope.Key) {h : Heap} : k.toScript.toValue.Frozen F n h := by
  cases k <;> trivial

namespace Heap

/-- A heap that has the tables of another one. -/
structure Grows (g h : Heap) : Prop where
  size : g.tables.size ≤ h.tables.size
  table : ∀ r < g.tables.size, h.table r = g.table r

theorem Grows.refl (h : Heap) : h.Grows h := ⟨Nat.le_refl _, fun _ _ => rfl⟩

theorem Grows.trans {f g h : Heap} (hfg : f.Grows g) (hgh : g.Grows h) : f.Grows h where
  size := Nat.le_trans hfg.size hgh.size
  table r hr := (hgh.table r (Nat.lt_of_lt_of_le hr hfg.size)).trans (hfg.table r hr)

/-- A heap to which only tables have been added. -/
structure Extends (g h : Heap) : Prop extends Grows g h where
  cells : h.cells = g.cells
  closures : h.closures = g.closures
  shared : h.shared = g.shared
  limit : h.limit = g.limit
  vanished : h.vanished = g.vanished
  pace : h.pace = g.pace

namespace Extends

variable {f g h : Heap}

theorem refl (h : Heap) : h.Extends h := ⟨.refl h, rfl, rfl, rfl, rfl, rfl, rfl⟩

theorem trans (hfg : f.Extends g) (hgh : g.Extends h) : f.Extends h where
  toGrows := hfg.toGrows.trans hgh.toGrows
  cells := hgh.cells.trans hfg.cells
  closures := hgh.closures.trans hfg.closures
  shared := hgh.shared.trans hfg.shared
  limit := hgh.limit.trans hfg.limit
  vanished := hgh.vanished.trans hfg.vanished
  pace := hgh.pace.trans hfg.pace

theorem sheds (hgh : g.Extends h) : g.Sheds h :=
  .of_eq hgh.limit hgh.pace hgh.vanished

end Extends

theorem countString_extends (h : Heap) (n : Nat) : h.Extends (h.countString n) :=
  ⟨⟨Nat.le_refl _, fun _ _ => rfl⟩, rfl, rfl, rfl, rfl, rfl, rfl⟩

theorem table_push {h : Heap} {t : Table} {r : Nat} (h' : Heap)
    (htables : h'.tables = h.tables.push t) :
    h'.table r = if r = h.tables.size then t else h.table r := by
  simp only [table, htables, Array.getElem?_push]
  split <;> rfl

theorem newTable_extends (h : Heap) (t : Table) : h.Extends (h.newTable t).1 where
  size := by simp [newTable]
  table r hr := by rw [table_push (h := h) (t := t) _ rfl, if_neg (Nat.ne_of_lt hr)]
  cells := rfl
  closures := rfl
  shared := rfl
  limit := rfl
  vanished := rfl
  pace := rfl

theorem table_setKey (h : Heap) {r : Nat} (hr : r < h.tables.size) (k : Key) (v : Value)
    (r' : Nat) :
    (h.setKey r k v).table r' = if r' = r then (h.table r).set k v else h.table r' := by
  simp only [table, setKey, Array.getElem?_modify]
  by_cases hrr : r' = r
  · rw [if_pos hrr.symm, if_pos hrr, hrr, Array.getElem?_eq_getElem hr]
    rfl
  · rw [if_neg (Ne.symm hrr), if_neg hrr]

theorem metatable_setKey (h : Heap) (r : Nat) (k : Key) (v : Value) (r' : Nat) :
    ((h.setKey r k v).table r').metatable = (h.table r').metatable := by
  simp only [table, setKey, Array.getElem?_modify]
  split
  · cases h.tables[r']? with
    | none => rfl
    | some t => exact Table.metatable_set t k v
  · rfl

@[simp] theorem size_setKey (h : Heap) (r : Nat) (k : Key) (v : Value) :
    (h.setKey r k v).tables.size = h.tables.size := by
  simp [setKey]

/-- A backing table from `n` on. -/
structure Backs (F : Function → Prop) (n : Nat) (h : Heap) (b : Nat) : Prop where
  lower : n ≤ b
  upper : b < h.tables.size
  metatable : (h.table b).metatable = none
  sound : (h.table b).Sound
  holds : (h.table b).Holds (Value.Frozen F n h)

/-- The tables from `n` on that have a metatable are views. -/
def Viewed (F : Function → Prop) (n : Nat) (h : Heap) : Prop :=
  ∀ r m : Nat, n ≤ r → (h.table r).metatable = some m →
    h.table r = { metatable := some m } ∧ n ≤ m ∧ m < h.tables.size ∧
      ∃ b, h.table m = viewMetatable b (.bool false) ∧ h.Backs F n b

end Heap

/-- Values that are frozen stay so when no table loses its metatable. -/
theorem Value.Frozen.mono {g h : Heap} {v : Value} (hv : v.Frozen F n g)
    (hsize : g.tables.size ≤ h.tables.size)
    (hmeta : ∀ r < g.tables.size, (h.table r).metatable = (g.table r).metatable) :
    v.Frozen F n h := by
  cases v with
  | table r => exact ⟨hv.1, Nat.lt_of_lt_of_le hv.2.1 hsize, hmeta r hv.2.1 ▸ hv.2.2⟩
  | function f => exact hv
  | _ => trivial

theorem Value.Frozen.grows {g h : Heap} {v : Value} (hv : v.Frozen F n g)
    (hgrows : g.Grows h) : v.Frozen F n h :=
  hv.mono hgrows.size fun r hr => congrArg Table.metatable (hgrows.table r hr)

namespace Heap

variable {g h : Heap}

theorem Backs.mono {b : Nat} (hb : g.Backs F n b) (hsize : g.tables.size ≤ h.tables.size)
    (htable : ∀ r < g.tables.size, h.table r = g.table r) : h.Backs F n b where
  lower := hb.lower
  upper := Nat.lt_of_lt_of_le hb.upper hsize
  metatable := htable b hb.upper ▸ hb.metatable
  sound := htable b hb.upper ▸ hb.sound
  holds := htable b hb.upper ▸ hb.holds.mono fun _ hv =>
    hv.mono hsize fun r hr => congrArg Table.metatable (htable r hr)

theorem Backs.extends {b : Nat} (hb : g.Backs F n b) (hext : g.Extends h) : h.Backs F n b :=
  hb.mono hext.size hext.table

/-- Where all tables with a metatable are views, none is weak. -/
theorem Viewed.strong (hviewed : h.Viewed F 0) (r : Nat) : h.weakness (h.table r) = {} := by
  cases hm : (h.table r).metatable with
  | none => exact weakness_of_metatable hm
  | some m =>
    obtain ⟨-, -, -, b, hb, -⟩ := hviewed r m (Nat.zero_le r) hm
    exact weakness_of_viewMetatable hm hb

/-- Only the tables matter. -/
theorem Viewed.congr (hviewed : h.Viewed F n) (htables : g.tables = h.tables) : g.Viewed F n := by
  have htable (r : Nat) : g.table r = h.table r := by rw [table, table, htables]
  intro r m hr hm
  rw [htable] at hm ⊢
  obtain ⟨hview, hnm, hlt, b, hmeta, hback⟩ := hviewed r m hr hm
  refine ⟨hview, hnm, htables ▸ hlt, b, (htable m).trans hmeta, ?_⟩
  exact hback.mono (Nat.le_of_eq (by rw [htables])) fun r _ => htable r

/-- A table without metatable is added. -/
theorem Viewed.push {t : Table} (hviewed : h.Viewed F n) (ht : t.metatable = none)
    (hext : h.Extends g) (htables : g.tables = h.tables.push t) : g.Viewed F n := by
  intro r m hr hm
  rw [table_push g htables] at hm ⊢
  split at hm
  · rw [ht] at hm
    cases hm
  · rename_i hne
    obtain ⟨hview, hnm, hlt, b, hmeta, hback⟩ := hviewed r m hr hm
    rw [if_neg hne]
    refine ⟨hview, hnm, Nat.lt_of_lt_of_le hlt hext.size, b, ?_, hback.extends hext⟩
    exact (hext.table m hlt).trans hmeta

theorem metatable_viewMetatable (b : Nat) (shown : Value) :
    (viewMetatable b shown).metatable = none := by
  simp [viewMetatable]

/-- The tables after a view has been added. -/
theorem table_newView (h : Heap) (b r : Nat) :
    (h.newView b).1.table r =
      if r = h.tables.size + 1 then { metatable := some h.tables.size }
      else if r = h.tables.size then viewMetatable b (.bool false) else h.table r := by
  let h₁ := (h.newTable (viewMetatable b (.bool false))).1
  have hsize : h₁.tables.size = h.tables.size + 1 := by
    simp [h₁, newTable]
  rw [← hsize, table_push (h := h₁) (h.newView b).1 rfl]
  exact congrArg _ (table_push (h := h) h₁ rfl)

/-- The view of a backing table is added. -/
theorem Viewed.newView {b : Nat} (hviewed : h.Viewed F n) (hn : n ≤ h.tables.size)
    (hb : h.Backs F n b) :
    (h.newView b).1.Viewed F n ∧ h.Extends (h.newView b).1 ∧
      (Value.table (h.newView b).2).Frozen F n (h.newView b).1 := by
  have hsize : (h.newView b).1.tables.size = h.tables.size + 2 := by
    simp [Heap.newView, newTable]
  have hext : h.Extends (h.newView b).1 := (newTable_extends h _).trans (newTable_extends _ _)
  refine ⟨?_, hext, ?_⟩
  · intro r m hr hm
    rw [table_newView] at hm ⊢
    split at hm
    · rename_i hview
      cases hm
      have hmeta : (h.newView b).1.table h.tables.size = viewMetatable b (.bool false) := by
        rw [table_newView, if_neg (by omega), if_pos rfl]
      exact ⟨if_pos hview, hn, by omega, b, hmeta, hb.extends hext⟩
    · rename_i hne
      split at hm
      · rw [metatable_viewMetatable] at hm
        cases hm
      · rename_i hne'
        obtain ⟨hview, hnm, hlt, b', hmeta, hback⟩ := hviewed r m hr hm
        rw [if_neg hne, if_neg hne']
        exact ⟨hview, hnm, by omega, b', (hext.table m hlt).trans hmeta, hback.extends hext⟩
  · have hview : (h.newView b).2 = h.tables.size + 1 := by simp [Heap.newView, newTable]
    simp only [Value.Frozen, hview, table_newView, if_true]
    exact ⟨by omega, by omega, rfl⟩

/-- An entry is put into a backing table. -/
theorem Viewed.setKey (hF : ¬F (.builtin (.view .deny))) {b : Nat} (hviewed : h.Viewed F n)
    (hb : h.Backs F n b) {k : Key} {v : Value} (hk : k.toValue.Frozen F n h)
    (hv : v.Frozen F n h) : (h.setKey b k v).Viewed F n ∧ (h.setKey b k v).Backs F n b := by
  have hmono {w : Value} (hw : w.Frozen F n h) : w.Frozen F n (h.setKey b k v) :=
    hw.mono (Nat.le_of_eq (size_setKey ..).symm) fun r _ => metatable_setKey h b k v r
  have hback {b' : Nat} (hb' : h.Backs F n b') : (h.setKey b k v).Backs F n b' := by
    refine ⟨hb'.lower, by simpa using hb'.upper, (metatable_setKey ..).trans hb'.metatable,
      ?_, ?_⟩ <;> rw [table_setKey h hb.upper] <;> split
    · exact (hb.sound.set k v).1
    · exact hb'.sound
    · exact (hb.holds.set (admits_frozen F n h) hk hv).mono fun _ => hmono
    · exact hb'.holds.mono fun _ => hmono
  refine ⟨?_, hback hb⟩
  intro r m hr hm
  rw [metatable_setKey] at hm
  obtain ⟨hview, hnm, hlt, b', hmeta, hb'⟩ := hviewed r m hr hm
  have hrb : r ≠ b := by
    rintro rfl
    rw [hb.metatable] at hm
    cases hm
  -- the metatable of a view is no backing table: it refuses writes
  have hmb : m ≠ b := by
    rintro rfl
    have hdeny := hb.holds.get (admits_frozen F n h) (.str Event.newindex)
    rw [hmeta, viewMetatable_newindex] at hdeny
    exact hF hdeny
  rw [table_setKey h hb.upper, if_neg hrb, table_setKey h hb.upper, if_neg hmb]
  exact ⟨hview, hnm, by simpa using hlt, b', hmeta, hback hb'⟩

theorem backs_newTable (hn : n ≤ h.tables.size) :
    (h.newTable {}).1.Backs F n (h.newTable {}).2 := by
  have htable : (h.newTable {}).1.table h.tables.size = {} := by
    rw [table_push (h := h) (t := {}) _ rfl, if_pos rfl]
  refine ⟨hn, by simp [newTable], ?_, ?_, ?_⟩
  · exact congrArg Table.metatable htable
  · show ((h.newTable {}).1.table h.tables.size).Sound
    rw [htable]
    exact Table.sound_empty 0 none
  · show Table.Holds _ ((h.newTable {}).1.table h.tables.size)
    rw [htable]
    exact Table.holds_empty 0 none

/-- A heap to which tables have been added, and in which one table may have changed. -/
structure ExtendsBut (b : Nat) (g h : Heap) : Prop where
  size : g.tables.size ≤ h.tables.size
  table : ∀ r < g.tables.size, r ≠ b → h.table r = g.table r
  cells : h.cells = g.cells
  closures : h.closures = g.closures
  shared : h.shared = g.shared
  limit : h.limit = g.limit
  vanished : h.vanished = g.vanished
  pace : h.pace = g.pace

namespace ExtendsBut

variable {b : Nat} {f : Heap}

theorem trans (hfg : f.ExtendsBut b g) (hgh : g.ExtendsBut b h) : f.ExtendsBut b h where
  size := Nat.le_trans hfg.size hgh.size
  table r hr hne :=
    (hgh.table r (Nat.lt_of_lt_of_le hr hfg.size) hne).trans (hfg.table r hr hne)
  cells := hgh.cells.trans hfg.cells
  closures := hgh.closures.trans hfg.closures
  shared := hgh.shared.trans hfg.shared
  limit := hgh.limit.trans hfg.limit
  vanished := hgh.vanished.trans hfg.vanished
  pace := hgh.pace.trans hfg.pace

theorem setKey (hgh : g.ExtendsBut b h) (hb : b < h.tables.size) (k : Key) (v : Value) :
    g.ExtendsBut b (h.setKey b k v) where
  size := by simpa using hgh.size
  table r hr hne := by
    rw [table_setKey h hb, if_neg hne]
    exact hgh.table r hr hne
  cells := hgh.cells
  closures := hgh.closures
  shared := hgh.shared
  limit := hgh.limit
  vanished := hgh.vanished
  pace := hgh.pace

/-- The table that may have changed is new as well. -/
theorem of_newTable {t : Table} (hgh : (g.newTable t).1.ExtendsBut (g.newTable t).2 h) :
    g.Extends h where
  size := Nat.le_trans (newTable_extends g t).size hgh.size
  table r hr :=
    (hgh.table r (Nat.lt_of_lt_of_le hr (newTable_extends g t).size) (Nat.ne_of_lt hr)).trans
      ((newTable_extends g t).table r hr)
  cells := hgh.cells
  closures := hgh.closures
  shared := hgh.shared
  limit := hgh.limit
  vanished := hgh.vanished
  pace := hgh.pace

end ExtendsBut

theorem Extends.but (hgh : g.Extends h) (b : Nat) : g.ExtendsBut b h where
  size := hgh.size
  table r hr _ := hgh.table r hr
  cells := hgh.cells
  closures := hgh.closures
  shared := hgh.shared
  limit := hgh.limit
  vanished := hgh.vanished
  pace := hgh.pace

mutual

/-- The value of a scope. -/
theorem freezeValue_viewed (hF : ¬F (.builtin (.view .deny))) {h : Heap} (hn : n ≤ h.tables.size)
    (hviewed : h.Viewed F n) {v : Scope.Value} (hv : v.Within F) :
    (freezeValue v h).1.Viewed F n ∧ h.Extends (freezeValue v h).1 ∧
      (freezeValue v h).2.Frozen F n (freezeValue v h).1 := by
  cases v with
  | boolean b => exact ⟨hviewed, .refl h, trivial⟩
  | integer i => exact ⟨hviewed, .refl h, trivial⟩
  | number x => exact ⟨hviewed, .refl h, trivial⟩
  | text s => exact ⟨hviewed.congr rfl, h.countString_extends _, trivial⟩
  | function f => exact ⟨hviewed, .refl h, hv⟩
  | table entries =>
    have hext := newTable_extends h {}
    have hentries := freezeEntries_viewed hF (hviewed.push rfl hext rfl)
      (backs_newTable hn) hv
    obtain ⟨hviewed', hback, hsame⟩ := hentries
    obtain ⟨hview, hext', hfrozen⟩ :=
      hviewed'.newView (Nat.le_of_lt (Nat.lt_of_le_of_lt hback.lower hback.upper)) hback
    exact ⟨hview, (hsame.of_newTable).trans hext', hfrozen⟩

/-- The entries of a scope in their backing table. -/
theorem freezeEntries_viewed (hF : ¬F (.builtin (.view .deny))) {h : Heap} {b : Nat}
    (hviewed : h.Viewed F n) (hb : h.Backs F n b) {entries : List (Scope.Key × Scope.Value)}
    (hentries : Scope.Value.entriesWithin F entries) :
    (freezeEntries entries b h).Viewed F n ∧ (freezeEntries entries b h).Backs F n b ∧
      h.ExtendsBut b (freezeEntries entries b h) := by
  cases entries with
  | nil => exact ⟨hviewed, hb, (Extends.refl h).but b⟩
  | cons e rest =>
    obtain ⟨k, v⟩ := e
    have hn : n ≤ h.tables.size := Nat.le_of_lt (Nat.lt_of_le_of_lt hb.lower hb.upper)
    obtain ⟨hviewed₁, hext, hv⟩ := freezeValue_viewed hF hn hviewed hentries.1
    obtain ⟨hviewed₂, hb₂⟩ := hviewed₁.setKey hF (hb.extends hext) (frozen_toScript k) hv
    obtain ⟨hviewed₃, hb₃, hrest⟩ := freezeEntries_viewed hF hviewed₂ hb₂ hentries.2
    exact ⟨hviewed₃, hb₃, ((hext.but b).setKey (hb.extends hext).upper _ _).trans hrest⟩

end

/-- Freezing a scope adds a view. -/
theorem freeze_viewed (hF : ¬F (.builtin (.view .deny))) (hn : n ≤ h.tables.size)
    (hviewed : h.Viewed F n) {t : Scope.Table} (ht : t.Within F) :
    (h.freeze t).1.Viewed F n ∧ h.Extends (h.freeze t).1 ∧
      (Value.table (h.freeze t).2).Frozen F n (h.freeze t).1 :=
  freezeValue_viewed (v := .table t.entries) hF hn hviewed ht

/-! ### Snapshots -/

theorem mem_snapshotOrder {P : Value → Prop} (hP : Table.Admits P) {t : Table} (ht : t.Holds P)
    {e : Key × Value} (he : e ∈ snapshotOrder t) : P e.2 := by
  unfold snapshotOrder at he
  rcases List.mem_append.mp he with he | he
  · obtain ⟨i, -, hi⟩ := List.mem_filterMap.mp he
    dsimp only at hi
    split at hi
    · cases hi
    · cases hi
      exact ht.get hP (.int (Int64.ofNat (i + 1)))
  · exact (ht.entries hP (List.mem_filter.mp he).1).2

theorem forall_mem_of_mapM {α β ε : Type} {f : α → Except ε β} {Q : β → Prop} {as : List α}
    (hf : ∀ a ∈ as, ∀ b, f a = .ok b → Q b) {bs : List β} (hbs : as.mapM f = .ok bs) :
    ∀ b ∈ bs, Q b := by
  induction as generalizing bs with
  | nil =>
    cases hbs
    intro b hb
    cases hb
  | cons a as ih =>
    rw [List.mapM_cons] at hbs
    cases ha : f a with
    | error e =>
      rw [ha] at hbs
      cases hbs
    | ok c =>
      cases has : as.mapM f with
      | error e =>
        rw [ha, has] at hbs
        cases hbs
      | ok cs =>
        rw [ha, has] at hbs
        cases hbs
        intro b hb
        rcases List.mem_cons.mp hb with rfl | hb
        · exact hf a List.mem_cons_self b ha
        · exact ih (fun a' ha' => hf a' (List.mem_cons_of_mem _ ha')) has b hb

/-- The functions of a snapshot are those of the tables that it is taken from. -/
theorem snapshotEntries_within {P : Value → Prop} (hP : Table.Admits P)
    (hread : ∀ r, P (.table r) → (h.table (h.readThrough r)).Holds P)
    (hfun : ∀ f, P (.function f) → F f) {fuel : Nat} {visiting : List Nat} {path : String}
    {r : Nat} (hr : (h.table (h.readThrough r)).Holds P)
    {entries : List (Scope.Key × Scope.Value)}
    (hentries : snapshotEntries h fuel visiting path r = .ok entries) :
    Scope.Value.entriesWithin F entries := by
  induction fuel generalizing visiting path r entries with
  | zero => cases hentries
  | succ fuel ih =>
    unfold snapshotEntries at hentries
    dsimp only at hentries
    split at hentries
    · cases hentries
    · rw [Scope.Value.entriesWithin_iff]
      refine forall_mem_of_mapM (fun e he e' he' => ?_) hentries
      have hvalue := mem_snapshotOrder hP hr he
      obtain ⟨k, v⟩ := e
      dsimp only at he' hvalue
      cases hkey : snapshotKey path k with
      | error f =>
        rw [hkey] at he'
        cases he'
      | ok key =>
        rw [hkey] at he'
        cases v with
        | table c =>
          cases hc :
              snapshotEntries h fuel (h.readThrough r :: visiting) (childPath path key) c with
          | error f =>
            simp only [hc, bind, Except.bind] at he'
            cases he'
          | ok es =>
            simp only [hc, bind, Except.bind] at he'
            cases he'
            exact ih (hread c hvalue) hc
        | str b =>
          cases hb : snapshotText b with
          | error f =>
            simp only [hb, bind, Except.bind] at he'
            cases he'
          | ok s =>
            simp only [hb, bind, Except.bind] at he'
            cases he'
            trivial
        | function f =>
          cases he'
          exact hfun f hvalue
        | nil | fault r => cases he'
        | bool b | int i | float x =>
          cases he'
          trivial

theorem snapshot_within {P : Value → Prop} (hP : Table.Admits P)
    (hread : ∀ r, P (.table r) → (h.table (h.readThrough r)).Holds P)
    (hfun : ∀ f, P (.function f) → F f) {r : Nat} (hr : (h.table (h.readThrough r)).Holds P)
    {t : Scope.Table} (ht : h.snapshot r = .ok t) : t.Within F := by
  unfold snapshot at ht
  cases hentries : snapshotEntries h (h.tables.size + 2) [] "" r with
  | error f =>
    rw [hentries] at ht
    cases ht
  | ok entries =>
    rw [hentries] at ht
    cases ht
    exact snapshotEntries_within hP hread hfun hr hentries

end Heap

end Script

end StoryPack
