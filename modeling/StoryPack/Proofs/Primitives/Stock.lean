/-
The string library as it is set up.

At the start only strings have a metatable.  It has metamethods for arithmetic,
and strings are read like a library, which is a table of functions.  The library
can be frozen, and its view is read like the library itself.

* `Table.Sound.get_setAll_entries` — a copy of a table;
* `Heap.Stock` — a heap with the string library as it is set up;
* `Heap.Stock.usual` — values that are no tables behave as usual in it;
* `Heap.ViewOf` — a view that is read like a table;
* `Heap.Stock.freezeTable` — the view of the library;
* `Interpreter.stock_new` — a new interpreter has it.
-/
import StoryPack.Proofs.Primitives.Usual
import StoryPack.Proofs.Confinement.Interpreter
import StoryPack.Proofs.Scope.Snapshot

namespace StoryPack

open Script

namespace Script

namespace Table

/-- The only value of a key in a list of entries is the last one. -/
theorem lastOf_eq {k : Key} {v : Value} {es : List (Key × Value)} (hmem : (k, v) ∈ es)
    (hone : ∀ w, (k, w) ∈ es → w = v) (x : Value) : lastOf k es x = v := by
  induction es generalizing x with
  | nil => cases hmem
  | cons e es ih =>
    show lastOf k es (if k = e.1 then e.2 else x) = v
    -- an entry further on wins, and it is the same one
    by_cases hlater : (k, v) ∈ es
    · exact ih hlater (fun w hw => hone w (List.mem_cons_of_mem _ hw)) _
    · have he : (k, v) = e := (List.mem_cons.mp hmem).resolve_right hlater
      subst he
      rw [if_pos rfl]
      rcases lastOf_eq_or_mem k es v with hlast | hlast
      · exact hlast
      · exact hone _ (List.mem_cons_of_mem _ hlast)

/-- The entries of a table, put into a new one, are found there. -/
theorem Sound.get_setAll_entries {t : Table} (ht : t.Sound) (k : Key) :
    (Table.setAll {} t.entries).get k = t.get k := by
  rw [(sound_empty 0 none).get_setAll, get_empty]
  have hmem (w : Value) : (k, w) ∈ t.entries ↔ t.get k = w ∧ w.isNil = false :=
    ht.mem_entries_iff
  cases hnil : (t.get k).isNil with
  | false =>
    exact lastOf_eq ((hmem _).mpr ⟨rfl, hnil⟩) (fun w hw => ((hmem w).mp hw).1.symm) .nil
  | true =>
    have hget : t.get k = .nil := by
      cases hv : t.get k <;> first | rfl | (rw [hv] at hnil; cases hnil)
    rw [hget]
    rcases lastOf_eq_or_mem k t.entries .nil with hlast | hlast
    · exact hlast
    · obtain ⟨hlast, hsome⟩ := (hmem _).mp hlast
      rw [← hlast, hget] at hsome
      cases hsome

end Table

/-- A value that is no table is what another one is, if that is the same as far as it is none. -/
theorem Value.eq_of_leaf? {v w : Value} (hv : ∀ c, v ≠ .table c) (h : w.leaf? = v.leaf?) :
    w = v := by
  have hsome : v.leaf? = some v := by
    cases v with
    | table c => exact absurd rfl (hv c)
    | _ => rfl
  rw [hsome] at h
  cases w with
  | table c => cases h
  | _ => exact Option.some.inj h

/-- The metatable that the string library gives to strings. -/
def stockMetatable (library : Nat) : Table :=
  Table.named (stringFields ++ [("__index", .table library)])

theorem sound_stockMetatable (library : Nat) : (stockMetatable library).Sound := Table.sound_named _

theorem get_stockMetatable (library : Nat) (k : Key) : (stockMetatable library).get k =
    if k = .str Event.index then .table library else (Table.named stringFields).get k := by
  rw [stockMetatable, ← Table.named_set, Table.get_set (Table.sound_named _)]
  rfl

namespace Heap

/-- A heap in which only strings have a metatable, the one that the string library gives them. The
library is `t`: functions and numbers under texts. -/
structure Stock (m library : Nat) (t : Table) (h : Heap) : Prop where
  shared : h.shared = { string := some m }
  metatable : h.table m = stockMetatable library
  library : h.table library = t
  plain : t.metatable = none
  listed : t.Listed

variable {m library : Nat} {t : Table} {g h : Heap}

/-- The metatable of strings is one of the tables: it is not empty. -/
theorem Stock.lt (hh : h.Stock m library t) : m < h.tables.size := by
  refine Nat.lt_of_not_le fun hle => ?_
  have hempty : h.table m = {} := by rw [Heap.table, Array.getElem?_eq_none hle, Option.getD_none]
  have hindex := get_stockMetatable library (.str Event.index)
  rw [← hh.metatable, hempty, Table.get_empty, if_pos rfl] at hindex
  cases hindex

/-- No other type has a metatable. -/
theorem Stock.bare (hh : h.Stock m library t) (D : Nat → Prop) : h.Bare D := by
  intro kind hkind m' hm'
  rw [hh.shared] at hm'
  cases kind <;> first | exact absurd rfl hkind | cases hm'

/-- Values that are no tables behave as usual. -/
theorem Stock.usual (hh : h.Stock m library t) :
    h.Usual (fun r => r = m ∨ r = library) t := by
  refine (hh.bare _).usual (m := m) (r := library) (by rw [hh.shared]) (.inl rfl)
    (fun event hindex _ => ?_) ?_ ?_
  · rw [hh.metatable, get_stockMetatable, if_neg fun hk => hindex (Key.str.inj hk)]
  · rw [hh.metatable, get_stockMetatable, if_pos rfl]
  · exact .plain (.inr rfl) (hh.library ▸ hh.plain) fun k => by rw [hh.library]

/-- It stays so when tables are added. -/
theorem Stock.extends (hh : h.Stock m library t) (hlibrary : library < h.tables.size)
    (hext : h.Extends g) : g.Stock m library t :=
  { hh with
    shared := hext.shared.trans hh.shared
    metatable := (hext.table m hh.lt).trans hh.metatable
    library := (hext.table library hlibrary).trans hh.library }

/-- A view that is read like a table `t`. It lies within a part of the heap. -/
structure ViewOf (E : Nat → Prop) (t : Table) (h : Heap) (v : Nat) : Prop where
  exists_views : ∃ m b u, E v ∧ E m ∧ E b ∧ h.Views v m b u ∧ u.Sound ∧ ∀ k, u.get k = t.get k

variable {E : Nat → Prop} {v : Nat}

theorem ViewOf.readsLike (hv : h.ViewOf E t v) : h.ReadsLike E t v := by
  obtain ⟨m, b, u, hv, hm, hb, hviews, -, hget⟩ := hv.exists_views
  exact .view hv hm hb hviews hget

theorem ViewOf.congr (hv : h.ViewOf E t v) (htable : ∀ r, E r → g.table r = h.table r) :
    g.ViewOf E t v := by
  obtain ⟨m, b, u, hv, hm, hb, hviews, hsound, hget⟩ := hv.exists_views
  exact ⟨m, b, u, hv, hm, hb, ⟨(htable v hv).trans hviews.proxy,
    (htable m hm).trans hviews.metatable, (htable b hb).trans hviews.backing, hviews.plain⟩,
    hsound, hget⟩

theorem ViewOf.mono {D : Nat → Prop} (hv : h.ViewOf D t v) (hDE : ∀ r, D r → E r) :
    h.ViewOf E t v := by
  obtain ⟨m, b, u, hv, hm, hb, hrest⟩ := hv.exists_views
  exact ⟨m, b, u, hDE v hv, hDE m hm, hDE b hb, hrest⟩

/-- The entries of a library are functions and numbers under texts, so that it can be read. -/
theorem readable_of_listed (ht : t.Listed) {r : Nat}
    (hsound : (h.table (h.readThrough r)).Sound)
    (hget : ∀ k, (h.table (h.readThrough r)).get k = t.get k) : h.Readable (.table r) := by
  have hentry (k : Key) (hk : (h.table (h.readThrough r)).get k ≠ .nil) :
      (∃ s : String, k = .str s.toUTF8) ∧ ((h.table (h.readThrough r)).get k).IsLeaf := by
    rw [hget] at hk ⊢
    exact (ht.get k).resolve_left hk
  refine .table hsound (fun k hk => ?_) fun k hk => ?_
  · obtain ⟨⟨s, rfl⟩, -⟩ := hentry k hk
    exact ⟨.text s, rfl⟩
  · have hleaf := (hentry k hk).2
    generalize (h.table (h.readThrough r)).get k = v at hleaf
    cases v with
    | function f => exact .leaf (w := .function f) rfl
    | int i => exact .leaf (w := .integer i) rfl
    | float x => exact .leaf (w := .number x) rfl
    | _ => cases hleaf

theorem ViewOf.readable (hv : h.ViewOf E t v) (ht : t.Listed) : h.Readable (.table v) := by
  obtain ⟨m, b, u, -, -, -, hviews, hsound, hget⟩ := hv.exists_views
  have hread : h.table (h.readThrough v) = u := by rw [hviews.readThrough, hviews.backing]
  exact readable_of_listed ht (hread ▸ hsound) (hread ▸ hget)

/-! ### The view of the library -/

/-- A table that is filled with what is spelled has the same values, if they are no tables. -/
theorem Fills.get_eq {f : Heap} {b r : Nat} {entries : List (Scope.Key × Scope.Value)}
    {D : Nat → Prop} (hfills : Fills b entries f g) (hempty : f.table b = {})
    (hspells : h.Spells D (.table r) (.table entries))
    (hleaf : ∀ k c, (h.table (h.readThrough r)).get k ≠ .table c) (k : Key) :
    (g.table b).get k = (h.table (h.readThrough r)).get k := by
  cases hspells with
  | leaf hw => cases hw
  | table hr _ _ hvalues hothers =>
    rw [hr.reads] at hleaf ⊢
    by_cases hk : ∃ k' w, (k', w) ∈ entries ∧ k = Scope.Key.toScript k'
    · obtain ⟨k', w, hw, rfl⟩ := hk
      have hvalue := (hvalues k' w hw).leaf?.2
      have hfilled := (hfills.values k' w hw).leaf?.2
      rw [← hvalue] at hfilled
      exact Value.eq_of_leaf? (hleaf _) hfilled
    · have hnone (k' : Scope.Key) (w : Scope.Value) (hw : (k', w) ∈ entries) :
          k ≠ k'.toScript := fun heq => hk ⟨k', w, hw, heq⟩
      rw [hothers k hnone, hfills.others k hnone, hempty, Table.get_empty]

/-- The view of a table that has been added is read like it. -/
theorem viewOf_newView {f : Heap} {b : Nat} (hfb : f.tables.size ≤ b) (hb : b < h.tables.size)
    (hsound : (h.table b).Sound) (hmeta : (h.table b).metatable = none)
    (hget : ∀ k, (h.table b).get k = t.get k) :
    (h.newView b).1.ViewOf (Added f (h.newView b).1) t (h.newView b).2 := by
  have hsize : (h.newView b).1.tables.size = h.tables.size + 2 := by simp [newView, newTable]
  have hview : (h.newView b).2 = h.tables.size + 1 := by simp [newView, newTable]
  have hadded {r : Nat} (hr : b ≤ r) (hlt : r < h.tables.size + 2) :
      Added f (h.newView b).1 r := ⟨Nat.le_trans hfb hr, hsize ▸ hlt⟩
  refine ⟨h.tables.size, b, h.table b, hadded (by omega) (by omega), hadded (by omega) (by omega),
    hadded (by omega) (by omega), ⟨?_, ?_, (newView_reads h hb).2, hmeta⟩, hsound, hget⟩
  · rw [hview, table_newView, if_pos rfl]
  · rw [table_newView, if_neg (by omega), if_pos rfl]

/-- The view of a library that is frozen is read like the library. -/
theorem freezeTable_viewOf {r : Nat} (hr : h.table r = t) (ht : t.Listed)
    (hplain : t.metatable = none) : ∃ g v, Interpreter.freezeTable h r = .ok (g, v) ∧
      h.Extends g ∧ g.ViewOf (Added h g) t v := by
  have hread : h.readThrough r = r := readThrough_of_isNone (hr ▸ hplain)
  have hreadable : h.Readable (.table r) :=
    readable_of_listed ht (by rw [hread, hr]; exact ht.sound) fun k => by rw [hread, hr]
  obtain ⟨s, hs, hspells, -⟩ := hreadable.spells
  -- the backing table is filled before the view is added
  have hempty : (h.newTable {}).1.table h.tables.size = {} := by
    rw [table_push (h := h) (t := {}) _ rfl, if_pos rfl]
  have hb : h.tables.size < (h.newTable {}).1.tables.size := by simp [newTable]
  have hfills := freezeEntries_fills hb (by rw [hempty]; exact Table.sound_empty 0 none)
    (congrArg Table.metatable hempty) hspells.keyed.1 hspells.keyed.2
  have hget := hfills.get_eq hempty hspells fun k c hc => by
    rw [hread, hr] at hc
    have hleaf := (ht.get k).resolve_left (by rw [hc]; nofun)
    rw [hc] at hleaf
    exact hleaf.2
  rw [hread, hr] at hget
  generalize hg : freezeEntries s.entries h.tables.size (h.newTable {}).1 = g at hfills hget
  have hlt : h.tables.size < g.tables.size := Nat.lt_of_lt_of_le hb hfills.rest.size
  refine ⟨(g.newView h.tables.size).1, (g.newView h.tables.size).2, ?_,
    hfills.rest.of_newTable.trans (newView_extends _ _),
    viewOf_newView (Nat.le_refl _) hlt hfills.sound hfills.metatable hget⟩
  rw [Interpreter.freezeTable, hs]
  exact congrArg (fun g => Except.ok (newView g h.tables.size)) hg

end Heap

end Script

namespace Interpreter

theorem listed_stringEntries : (Table.named stringEntries).Listed := by
  refine Table.listed_named fun e he => ?_
  obtain ⟨e', -, rfl⟩ := List.mem_map.mp he
  trivial

/-- A new interpreter has the string library as it is set up. -/
theorem stock_new (limit : Option Nat) :
    (new limit).heap.Stock 5 1 (Table.named stringEntries) where
  shared := (rest_setName (new limit).heap Heap.globals "debug" .nil).2.2.1.symm.trans
    (rest_new limit).2.2.1
  metatable := by
    rw [Heap.table, tables_new]
    rfl
  library := by
    rw [Heap.table, tables_new]
    rfl
  plain := Table.metatable_named _
  listed := listed_stringEntries

end Interpreter

end StoryPack
