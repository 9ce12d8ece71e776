/-
The metatables of the basic types are replaced.

At the start only strings have a metatable.  Afterwards all basic types have one.
Those of the other types have no metamethods.  That of strings is a copy, in which
the library has been replaced by its view.  So values that are no tables behave as
usual again, and what strings are read through can not be changed.

* `Heap.KeepsRest` — nothing changes but tables and metatables;
* `Interpreter.guardKinds_bare` — their new metatables;
* `Interpreter.guardStrings_usual` — the new metatable of strings.
-/
import StoryPack.Proofs.Primitives.Stock

namespace StoryPack

open Script

namespace Script.Heap

/-- A heap is another one with other tables, and with other metatables of the basic types. -/
def KeepsRest (g h : Heap) : Prop :=
  ∃ tables shared used, h = { g with tables := tables, shared := shared, used := used }

variable {f g h : Heap}

theorem KeepsRest.trans (hfg : f.KeepsRest g) (hgh : g.KeepsRest h) : f.KeepsRest h := by
  obtain ⟨_, _, _, rfl⟩ := hfg
  obtain ⟨ts, s, n, rfl⟩ := hgh
  exact ⟨ts, s, n, rfl⟩

theorem KeepsRest.sameRest (hgh : g.KeepsRest h) : g.SameRest h := by
  obtain ⟨_, _, _, rfl⟩ := hgh
  exact ⟨rfl, rfl, rfl, rfl, rfl, rfl, rfl⟩

theorem newTable_keepsRest (h : Heap) (t : Table) : h.KeepsRest (h.newTable t).1 := ⟨_, _, _, rfl⟩

theorem setKey_keepsRest (h : Heap) (r : Nat) (k : Key) (v : Value) :
    h.KeepsRest (h.setKey r k v) :=
  ⟨_, _, _, rfl⟩

theorem newView_keepsRest (h : Heap) (b : Nat) : h.KeepsRest (h.newView b).1 :=
  (newTable_keepsRest h _).trans (newTable_keepsRest _ _)

theorem foldl_setKey_keepsRest (es : List (Key × Value)) (h : Heap) (r : Nat) :
    h.KeepsRest (es.foldl (fun h e => h.setKey r e.1 e.2) h) := by
  induction es generalizing h with
  | nil => exact ⟨_, _, _, rfl⟩
  | cons e es ih => exact (setKey_keepsRest h r e.1 e.2).trans (ih _)

mutual

theorem freezeValue_keepsRest (h : Heap) (w : Scope.Value) : h.KeepsRest (freezeValue w h).1 := by
  cases w with
  | table entries =>
    exact ((newTable_keepsRest h {}).trans (freezeEntries_keepsRest _ _ entries)).trans
      (newView_keepsRest _ _)
  | _ => exact ⟨_, _, _, rfl⟩

theorem freezeEntries_keepsRest (h : Heap) (b : Nat) (entries : List (Scope.Key × Scope.Value)) :
    h.KeepsRest (freezeEntries entries b h) := by
  cases entries with
  | nil => exact ⟨_, _, _, rfl⟩
  | cons e rest =>
    exact ((freezeValue_keepsRest h e.2).trans (setKey_keepsRest _ _ _ _)).trans
      (freezeEntries_keepsRest _ _ rest)

end

theorem grows_of_push {t : Table} (htables : g.tables = h.tables.push t) : h.Grows g where
  size := by rw [htables, Array.size_push]; omega
  table r hr := by rw [table_push g htables, if_neg (Nat.ne_of_lt hr)]

theorem IsBare.grows {m : Nat} (hm : h.IsBare (Added f h) m) (hgh : h.Grows g) :
    g.IsBare (Added f g) m where
  within := ⟨hm.within.1, Nat.lt_of_lt_of_le hm.within.2 hgh.size⟩
  get := by
    rw [hgh.table m hm.within.2]
    exact hm.get

end Script.Heap

namespace Interpreter

open Script.Heap

variable {f g h : Heap}

theorem freezeTable_keepsRest {r : Nat} {p : Heap × Nat} (hp : freezeTable h r = .ok p) :
    h.KeepsRest p.1 := by
  obtain ⟨t, -, hp⟩ := exists_of_bind_eq_ok hp
  cases hp
  exact freezeValue_keepsRest h (.table t.entries)

/-- A basic type that had no metatable gets one without metamethods. -/
theorem guardKind_bare (hfh : f.Grows h) (hbare : h.Bare (Added f h)) {kind : Kind}
    (hnone : h.shared.of kind = none) : ∃ g, guardKind h kind = .ok g ∧ h.Grows g ∧ h.KeepsRest g ∧
      g.Bare (Added f g) ∧ ∃ m, g.shared = h.shared.put kind (some m) := by
  -- the empty view is added, and then the metatable, in which nothing but the view is found
  let h₁ := ((h.newTable {}).1.newView h.tables.size).1
  let view := ((h.newTable {}).1.newView h.tables.size).2
  let m := h₁.tables.size
  let h₂ := (h₁.newTable {}).1.setKey m (.str Event.metatable) (.table view)
  let g : Heap := { h₂ with shared := h₁.shared.put kind (some m) }
  have hg : guardKind h kind = .ok g := by
    unfold guardKind
    rw [hnone]
    rfl
  have hext : h.Extends h₁ := (newTable_extends h {}).trans (newView_extends _ _)
  have htables :
      g.tables = h₁.tables.push (({} : Table).set (.str Event.metatable) (.table view)) :=
    modify_push h₁.tables {} fun t => t.set (.str Event.metatable) (.table view)
  have hgrows : h.Grows g := hext.toGrows.trans (grows_of_push htables)
  have hkeeps : h.KeepsRest g :=
    (((newTable_keepsRest h {}).trans (newView_keepsRest _ _)).trans
    (newTable_keepsRest h₁ {})).trans
      ((setKey_keepsRest _ m _ _).trans ⟨_, _, _, rfl⟩)
  have hshared (k : Kind) : g.shared.of k = h.shared.of k ∨ k = kind ∧ g.shared.of k = some m :=
    Prepared.of_put h.shared kind k (some m)
  refine ⟨g, hg, hgrows, hkeeps, ?_, m, rfl⟩
  intro k hk m' hm'
  rcases hshared k with hsame | ⟨-, hnew⟩
  · exact (hbare k hk m' (hsame.symm.trans hm')).grows hgrows
  · cases hnew.symm.trans hm'
    refine ⟨⟨Nat.le_trans hfh.size hext.size, ?_⟩, fun event hevent => ?_⟩
    · rw [htables, Array.size_push]
      exact Nat.lt_succ_self m
    · rw [table_push g htables, if_pos rfl,
        Table.get_set (Table.sound_empty 0 none), Table.get_empty,
        if_neg fun h => hevent (Key.str.inj h)]

/-- Some basic types that had no metatable get one each. -/
theorem guardKinds_bare (hbare : h.Bare (Added h h)) {kinds : List Kind} (hkinds : kinds.Nodup)
    (hnone : ∀ k ∈ kinds, h.shared.of k = none) :
    ∃ g, kinds.foldlM guardKind h = .ok g ∧ (h.Grows g ∧ h.KeepsRest g ∧ g.Bare (Added h g)) ∧
      (∀ k ∉ kinds, g.shared.of k = h.shared.of k) ∧
      ∀ k ∈ kinds, k ≠ .table → k ≠ .userdata → (g.shared.of k).isSome := by
  refine Prepared.foldlM_guardKind (fun h' kind hh' hnone => ?_)
    ⟨.refl h, ⟨_, _, _, rfl⟩, hbare⟩ hkinds hnone
  obtain ⟨hgrows, hkeeps, hbare'⟩ := hh'
  obtain ⟨g, hg, hgrows', hkeeps', hbare'', hput⟩ := guardKind_bare hgrows hbare' hnone
  exact ⟨g, hg, ⟨hgrows.trans hgrows', hkeeps.trans hkeeps', hbare''⟩, hput⟩

/-! ### The metatable of strings -/

variable {E : Nat → Prop} {t : Table} {m library strings : Nat}

theorem sound_liveTable (present : List (Key × Value)) (strings : Nat) :
    (liveTable present strings).Sound :=
  ((((Table.sound_empty 0 none).setAll _).set _ _).1.set _ _).1

theorem metatable_liveTable (present : List (Key × Value)) (strings : Nat) :
    (liveTable present strings).metatable = none := by
  rw [liveTable, Table.metatable_set, Table.metatable_set, Table.metatable_setAll]

/-- The new metatable has the metamethods of the present one, and the view for the library. -/
theorem get_liveTable (library strings : Nat) (k : Key) :
    (liveTable (stockMetatable library).entries strings).get k =
      if k = .str Event.metatable then .nil
      else if k = .str Event.index then .table strings else (Table.named stringFields).get k := by
  have h₁ := (Table.sound_empty 0 none).setAll (stockMetatable library).entries
  have h₂ := (h₁.set (.str Event.index) (.table strings)).1
  rw [liveTable, Table.get_set h₂, Table.get_set h₁,
    (sound_stockMetatable library).get_setAll_entries, get_stockMetatable]
  split_ifs <;> rfl

/-- It can be read, so that there is a view of it. -/
theorem readable_liveTable {r : Nat}
    (hr : h.table r = liveTable (stockMetatable library).entries strings)
    (hstrings : h.Readable (.table strings)) : h.Readable (.table r) := by
  have hread : h.readThrough r = r :=
    readThrough_of_isNone (hr ▸ metatable_liveTable (stockMetatable library).entries strings)
  have hentry (k : Key) (hk : (h.table r).get k ≠ .nil) :
      (∃ k', k = Scope.Key.toScript k') ∧ h.Readable ((h.table r).get k) := by
    rw [hr, get_liveTable] at hk ⊢
    split_ifs at hk ⊢ with hmeta hindex
    · exact absurd rfl hk
    · exact ⟨⟨.text "__index", hindex⟩, hstrings⟩
    · obtain ⟨e, he, hkey, hget⟩ := (Table.get_named_cases stringFields k).resolve_left hk
      obtain ⟨op, -, rfl⟩ := List.mem_map.mp he
      rw [hget]
      exact ⟨⟨.text _, hkey⟩, .leaf (w := .function (.builtin (.stringArith op))) rfl⟩
  refine .table ?_ (fun k hk => ?_) fun k hk => ?_
  · rw [hread, hr]
    exact sound_liveTable _ _
  · rw [hread] at hk
    exact (hentry k hk).1
  · rw [hread] at hk ⊢
    exact (hentry k hk).2

/-- Strings get a new metatable, which shows a view of itself. -/
theorem guardStrings_shared (hm : h.shared.string = some m)
    (hmetatable : h.table m = stockMetatable library) (ht : t.Listed) (hview : h.ViewOf E t strings)
    (hE : ∀ r, E r → r < h.tables.size) :
    ∃ g view, guardStrings h strings = .ok g ∧ h.Grows g ∧ h.KeepsRest g ∧
      h.tables.size < g.tables.size ∧ g.shared = h.shared.put .string (some h.tables.size) ∧
      g.table h.tables.size = (liveTable (stockMetatable library).entries strings).set
        (.str Event.metatable) (.table view) := by
  have hentries : sharedEntries h = (stockMetatable library).entries := by
    rw [sharedEntries, hm, ← hmetatable]
  have htables := tables_liveHeap h strings
  have hext := liveHeap_extends h strings
  have hkeeps : h.KeepsRest (liveHeap h strings) :=
    (((newTable_keepsRest h {}).trans (foldl_setKey_keepsRest (sharedEntries h) _ _)).trans
      (setKey_keepsRest _ _ _ _)).trans (setKey_keepsRest _ _ _ _)
  rw [hentries] at htables
  rw [guardStrings_eq]
  generalize liveHeap h strings = h₁ at htables hext hkeeps
  have hsize : h₁.tables.size = h.tables.size + 1 := by rw [htables, Array.size_push]
  have hlive : h₁.table h.tables.size = liveTable (stockMetatable library).entries strings := by
    rw [table_push h₁ htables, if_pos rfl]
  -- the library's view is older than the new metatable, so that it can be read as before
  have hstrings := (hview.congr fun r hr => hext.table r (hE r hr)).readable ht
  obtain ⟨s, hs, hspells, -⟩ := (readable_liveTable hlive hstrings).spells
  have hfreeze : freezeTable h₁ h.tables.size = .ok (h₁.freeze s) := by
    rw [freezeTable, hs]
    rfl
  have hkeeps' := hkeeps.trans (freezeTable_keepsRest hfreeze)
  have hext' : h₁.Extends (h₁.freeze s).1 := (freeze_spells h₁ hspells.keyed).1
  generalize h₁.freeze s = p at hfreeze hkeeps' hext'
  obtain ⟨h₂, view⟩ := p
  have hlt : h.tables.size < h₂.tables.size := Nat.lt_of_lt_of_le (by omega) hext'.size
  have htable := table_setKey h₂ hlt (.str Event.metatable) (.table view)
  rw [hext'.table _ (by omega), hlive] at htable
  rw [hfreeze]
  refine ⟨_, view, rfl, ⟨?_, fun r hr => ?_⟩,
    hkeeps'.trans ((setKey_keepsRest h₂ _ _ _).trans ⟨_, _, _, rfl⟩), ?_, ?_, ?_⟩
  · simpa using Nat.le_of_lt hlt
  · exact ((htable r).trans (if_neg (Nat.ne_of_lt hr))).trans ((hext.trans hext').table r hr)
  · simpa using hlt
  · exact congrArg (fun s : KindTables => s.put .string (some h.tables.size))
      (hext.trans hext').shared
  · exact (htable _).trans (if_pos rfl)

/-- With its new metatable strings behave as usual again. -/
theorem guardStrings_usual (hfh : f.Grows h) (hbare : h.Bare (Added f h))
    (hm : h.shared.string = some m) (hmetatable : h.table m = stockMetatable library)
    (ht : t.Listed) (hview : h.ViewOf E t strings) (hE : ∀ r, E r → r < h.tables.size) :
    ∃ g, guardStrings h strings = .ok g ∧ h.Grows g ∧ h.KeepsRest g ∧
      g.Usual (fun r => Added f g r ∨ E r) t := by
  obtain ⟨g, view, hg, hgrows, hkeeps, hlt, hshared, hlive⟩ :=
    guardStrings_shared hm hmetatable ht hview hE
  have hget (event : ByteArray) (hevent : event ≠ Event.metatable) :
      (g.table h.tables.size).get (.str event) = if event = Event.index then .table strings
        else (Table.named stringFields).get (.str event) := by
    have hne : Key.str event ≠ .str Event.metatable := fun h => hevent (Key.str.inj h)
    rw [hlive, Table.get_set (sound_liveTable _ _), if_neg hne, get_liveTable, if_neg hne]
    simp only [Key.str.injEq]
  have hbare' : g.Bare (fun r => Added f g r ∨ E r) := by
    intro kind hkind m' hm'
    rw [hshared, (Prepared.of_put h.shared .string kind _).resolve_right fun h => hkind h.1] at hm'
    exact ((hbare kind hkind m' hm').grows hgrows).mono fun _ => .inl
  refine ⟨g, hg, hgrows, hkeeps, hbare'.usual (m := h.tables.size) (r := strings) ?_
    (.inl ⟨hfh.size, hlt⟩) (fun event hindex hevent => ?_) ?_ ?_⟩
  · rw [hshared]
    rfl
  · rw [hget event hevent, if_neg hindex]
  · rw [hget _ (by decide), if_pos rfl]
  · exact (hview.congr fun r hr => hgrows.table r (hE r hr)).readsLike.mono fun _ => .inr

end Interpreter

end StoryPack
