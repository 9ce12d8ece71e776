/-
Values of scripts that spell values of scopes.

A value of a script spells a value of a scope when it is the same, or when both
are tables with the same keys, the values of which spell each other.  The tables
that are looked at can be confined to some part of the heap; then the value
spells the same as long as this part is not changed.

* `Heap.Spells` — spelling within a part of the heap;
* `Heap.Spells.congr` — nothing else matters;
* `Heap.Spells.displays` — what is spelled is shown;
* `Heap.freeze_spells` — the view of a scope spells it, within the tables that
  have been added for it.
-/
import StoryPack.Proofs.Confinement.Snapshot
import StoryPack.Proofs.Scope.Agreement

namespace StoryPack.Script

namespace Heap

/-- What is read of a table that stands for another one: both, and the metatable, lie within a part
of the heap. -/
structure Through (D : Nat → Prop) (h : Heap) (r b : Nat) : Prop where
  start : D r
  metatable : ∀ m, (h.table r).metatable = some m → D m
  reads : h.readThrough r = b
  finish : D b

/-- A value of a script spells a value of a scope, and only tables of some part of the heap are
looked at for it. -/
inductive Spells (D : Nat → Prop) (h : Heap) : Value → Scope.Value → Prop
  | leaf {v : Value} {w : Scope.Value} (hw : w.leaf? = some v) : Spells D h v w
  | table {r b : Nat} {entries : List (Scope.Key × Scope.Value)} (hr : h.Through D r b)
      (hsound : (h.table b).Sound) (hnodup : (entries.map (·.1)).Nodup)
      (hvalues : ∀ k w, (k, w) ∈ entries → Spells D h ((h.table b).get k.toScript) w)
      (hothers : ∀ k, (∀ k' w, (k', w) ∈ entries → k ≠ Scope.Key.toScript k') →
        (h.table b).get k = .nil) : Spells D h (.table r) (.table entries)

variable {D E : Nat → Prop} {g h : Heap} {v : Value} {w : Scope.Value}

theorem readThrough_congr {r : Nat} (hr : g.table r = h.table r)
    (hm : ∀ m, (h.table r).metatable = some m → g.table m = h.table m) :
    g.readThrough r = h.readThrough r := by
  unfold readThrough backing?
  rw [hr]
  cases hmeta : (h.table r).metatable with
  | none => rfl
  | some m => simp only [getKey_eq, hm m hmeta]

/-- Only the tables of the part of the heap matter. -/
theorem Spells.congr (hv : h.Spells D v w) (htable : ∀ r, D r → g.table r = h.table r) :
    g.Spells D v w := by
  induction hv with
  | leaf hw => exact .leaf hw
  | table hr hsound hnodup _ hothers ih =>
    have hread := readThrough_congr (htable _ hr.start) fun m hm => htable m (hr.metatable m hm)
    have hb := htable _ hr.finish
    refine .table ⟨hr.start, fun m hm => hr.metatable m (htable _ hr.start ▸ hm),
      hread.trans hr.reads, hr.finish⟩ (hb ▸ hsound) hnodup (fun k w hk => ?_) fun k hk => ?_
    · rw [hb]
      exact ih k w hk
    · rw [hb]
      exact hothers k hk

theorem Spells.mono (hv : h.Spells D v w) (hDE : ∀ r, D r → E r) : h.Spells E v w := by
  induction hv with
  | leaf hw => exact .leaf hw
  | table hr hsound hnodup _ hothers ih =>
    exact .table ⟨hDE _ hr.start, fun m hm => hDE m (hr.metatable m hm), hr.reads,
      hDE _ hr.finish⟩ hsound hnodup ih hothers

theorem Spells.keyed (hv : h.Spells D v w) : w.Keyed := by
  induction hv with
  | leaf hw =>
    rename_i w
    cases w with
    | table entries => cases hw
    | _ => trivial
  | table _ _ hnodup _ _ ih =>
    exact ⟨hnodup, Scope.Value.entriesKeyed_iff.mpr fun e he => ih e.1 e.2 he⟩

/-- What a path of keys leads to in a value that spells another one: in both to nothing, or in both
to something, which spells. -/
theorem Spells.follow (hv : h.Spells D v w) (path : List Scope.Key) :
    (h.follow v (path.map Scope.Key.toScript) = .nil ∧ w.at? path = none) ∨
      ∃ w', w.at? path = some w' ∧ h.Spells D (h.follow v (path.map Scope.Key.toScript)) w' := by
  induction path generalizing v w with
  | nil => exact .inr ⟨w, rfl, hv⟩
  | cons k path ih =>
    cases hv with
    | leaf hw =>
      refine .inl ?_
      cases w with
      | table entries => cases hw
      | _ =>
        cases hw
        exact ⟨rfl, rfl⟩
    | table hr hsound hnodup hvalues hothers =>
      rename_i r b entries
      have hstep : h.follow (.table r) ((k :: path).map Scope.Key.toScript) =
          h.follow ((h.table b).get k.toScript) (path.map Scope.Key.toScript) := by
        rw [← hr.reads]
        rfl
      have hat : (Scope.Value.table entries).at? (k :: path) =
          (entries.lookup k).bind fun w => w.at? path := rfl
      rw [hstep, hat]
      by_cases hk : ∃ w, (k, w) ∈ entries
      · obtain ⟨w, hw⟩ := hk
        rw [Association.lookup_eq_some_of_mem hnodup hw]
        exact ih (hvalues k w hw)
      · have hmem (w : Scope.Value) : (k, w) ∉ entries := fun hw => hk ⟨w, hw⟩
        have hnil : (h.table b).get k.toScript = .nil := by
          refine hothers _ fun k' w hw heq => hmem w ?_
          rwa [Scope.Key.toScript_inj heq]
        rw [Association.lookup_eq_none_of_not_mem hmem, hnil, follow_nil]
        exact .inl ⟨rfl, rfl⟩

/-- Such a value is not `nil`, and it is a table when what it spells is one. -/
theorem Spells.leaf? (hv : h.Spells D v w) : v.isNil = false ∧ v.leaf? = w.leaf? := by
  cases hv with
  | leaf hw =>
    cases w with
    | table entries => cases hw
    | _ =>
      cases hw
      exact ⟨rfl, rfl⟩
  | table => exact ⟨rfl, rfl⟩

/-- The keys of a table that spells a scope are keys of scopes. -/
theorem Spells.key (hv : h.Spells D v w) {k : Key} (hk : h.follow v [k] ≠ .nil) :
    ∃ k', k = Scope.Key.toScript k' := by
  cases hv with
  | leaf hw =>
    cases w with
    | table entries => cases hw
    | _ =>
      cases hw
      exact absurd rfl hk
  | table hr hsound hnodup hvalues hothers =>
    refine Classical.byContradiction fun hnone => hk ?_
    show (h.table (h.readThrough _)).get k = .nil
    rw [hr.reads]
    exact hothers k fun k' w _ heq => hnone ⟨k', heq⟩

/-- What is spelled is shown. -/
theorem Spells.displays (hv : h.Spells D v w) : h.Displays v w where
  keys path := by
    dsimp only
    rcases hv.follow path with ⟨hnil, hnone⟩ | ⟨w', hw', hspells⟩
    · rw [hnil, hnone]
      rfl
    · obtain ⟨hnil, hleaf⟩ := hspells.leaf?
      rw [hw', hnil, hleaf]
      rfl
  others path k hk := by
    rw [follow_append] at hk
    rcases hv.follow path with ⟨hnil, -⟩ | ⟨w', -, hspells⟩
    · rw [hnil] at hk
      exact absurd (h.follow_nil [k]) hk
    · exact hspells.key hk

/-- What one value spells is the same. -/
theorem Spells.same {w' : Scope.Value} (hw : h.Spells D v w) (hw' : h.Spells E v w') : w.Same w' :=
  hw.displays.same hw'.displays

/-! ### Views of scopes -/

/-- The tables that have been added to a heap. -/
def Added (h g : Heap) (r : Nat) : Prop := h.tables.size ≤ r ∧ r < g.tables.size

theorem Spells.extends {f : Heap} (hv : g.Spells (Added f g) v w) (hgh : g.Grows h) :
    h.Spells (Added f h) v w :=
  (hv.congr fun r hr => hgh.table r hr.2).mono
    fun _ hr => ⟨hr.1, Nat.lt_of_lt_of_le hr.2 hgh.size⟩

/-- A table that is being filled with the entries of a scope. -/
structure Fills (b : Nat) (entries : List (Scope.Key × Scope.Value)) (h g : Heap) : Prop where
  rest : h.ExtendsBut b g
  sound : (g.table b).Sound
  metatable : (g.table b).metatable = none
  values : ∀ k w, (k, w) ∈ entries → g.Spells (Added h g) ((g.table b).get k.toScript) w
  others : ∀ k, (∀ k' w, (k', w) ∈ entries → k ≠ Scope.Key.toScript k') →
    (g.table b).get k = (h.table b).get k

theorem newView_extends (h : Heap) (b : Nat) : h.Extends (h.newView b).1 :=
  (newTable_extends h _).trans (newTable_extends _ _)

/-- The view of a table spells what the table holds. -/
theorem newView_spells {f h : Heap} {b : Nat} (hb : b < h.tables.size) (hfb : f.tables.size ≤ b)
    (hsound : (h.table b).Sound) {entries : List (Scope.Key × Scope.Value)}
    (hnodup : (entries.map (·.1)).Nodup)
    (hvalues : ∀ k w, (k, w) ∈ entries → h.Spells (Added f h) ((h.table b).get k.toScript) w)
    (hothers : ∀ k, (∀ k' w, (k', w) ∈ entries → k ≠ Scope.Key.toScript k') →
      (h.table b).get k = .nil) :
    (h.newView b).1.Spells (Added f (h.newView b).1) (.table (h.newView b).2) (.table entries) := by
  have hsize : (h.newView b).1.tables.size = h.tables.size + 2 := by simp [newView, newTable]
  have hview : (h.newView b).2 = h.tables.size + 1 := by simp [newView, newTable]
  obtain ⟨hreads, htable⟩ := newView_reads h hb
  refine .table (b := b) ⟨?_, fun m hm => ?_, hreads, ?_⟩ ?_ hnodup
    (fun k w hk => ?_) fun k hk => ?_
  · exact ⟨by omega, by omega⟩
  · rw [hview, table_newView, if_pos rfl] at hm
    cases hm
    exact ⟨by omega, by omega⟩
  · exact ⟨hfb, by omega⟩
  · rw [htable]
    exact hsound
  · rw [htable]
    exact (hvalues k w hk).extends (newView_extends h b).toGrows
  · rw [htable]
    exact hothers k hk

mutual

/-- The value that stands for a value of a scope spells it. -/
theorem freezeValue_spells (h : Heap) {w : Scope.Value} (hw : w.Keyed) :
    h.Extends (freezeValue w h).1 ∧
      (freezeValue w h).1.Spells (Added h (freezeValue w h).1) (freezeValue w h).2 w := by
  cases w with
  | boolean b => exact ⟨.refl h, .leaf rfl⟩
  | integer i => exact ⟨.refl h, .leaf rfl⟩
  | number x => exact ⟨.refl h, .leaf rfl⟩
  | text s => exact ⟨h.countString_extends _, .leaf rfl⟩
  | function f => exact ⟨.refl h, .leaf rfl⟩
  | table entries =>
    -- the backing table is added and filled before the view, so that it lies within what is added
    have hnew := newTable_extends h {}
    have hb : h.tables.size < (h.newTable {}).1.tables.size := by simp [newTable]
    have hempty : (h.newTable {}).1.table h.tables.size = {} := by
      rw [table_push (h := h) (t := {}) _ rfl, if_pos rfl]
    have hfills := freezeEntries_fills hb (by rw [hempty]; exact Table.sound_empty 0 none)
      (congrArg Table.metatable hempty) hw.1 hw.2
    have hrest := hfills.rest.of_newTable
    refine ⟨hrest.trans (newView_extends _ _), ?_⟩
    refine newView_spells (Nat.lt_of_lt_of_le hb hfills.rest.size) (Nat.le_refl _) hfills.sound hw.1
      (fun k w hk => ?_) fun k hk => ?_
    · exact (hfills.values k w hk).mono fun r hr => ⟨Nat.le_trans hnew.size hr.1, hr.2⟩
    · rw [hfills.others k hk, hempty, Table.get_empty]

/-- The entries of a scope are put into a table. -/
theorem freezeEntries_fills {h : Heap} {b : Nat} (hb : b < h.tables.size)
    (hsound : (h.table b).Sound) (hmeta : (h.table b).metatable = none)
    {entries : List (Scope.Key × Scope.Value)} (hnodup : (entries.map (·.1)).Nodup)
    (hkeyed : Scope.Value.entriesKeyed entries) :
    Fills b entries h (freezeEntries entries b h) := by
  cases entries with
  | nil =>
    refine ⟨(Extends.refl h).but b, hsound, hmeta, fun k w hk => ?_, fun k _ => rfl⟩
    cases hk
  | cons e rest =>
    obtain ⟨k, v⟩ := e
    obtain ⟨hext, hv⟩ := freezeValue_spells h hkeyed.1
    rw [List.map_cons, List.nodup_cons] at hnodup
    generalize hfreeze : freezeValue v h = p at hext hv
    obtain ⟨h₁, x⟩ := p
    dsimp only at hext hv
    have hb₁ : b < h₁.tables.size := Nat.lt_of_lt_of_le hb hext.size
    have hsize : (h₁.setKey b k.toScript x).tables.size = h₁.tables.size := size_setKey ..
    -- the value has been made without a change to the table that is being filled
    have htable (r : Nat) : (h₁.setKey b k.toScript x).table r =
        if r = b then (h.table b).set k.toScript x else h₁.table r := by
      rw [table_setKey h₁ hb₁, hext.table b hb]
    have hfills : Fills b rest (h₁.setKey b k.toScript x) (freezeEntries ((k, v) :: rest) b h) := by
      have hstep : freezeEntries ((k, v) :: rest) b h =
          freezeEntries rest b (h₁.setKey b k.toScript x) := by
        rw [freezeEntries, hfreeze]
      rw [hstep]
      refine freezeEntries_fills (by omega) ?_ ?_ hnodup.2 hkeyed.2
      · rw [htable, if_pos rfl]
        exact (hsound.set _ _).1
      · rw [htable, if_pos rfl, Table.metatable_set, hmeta]
    generalize freezeEntries ((k, v) :: rest) b h = g at hfills
    refine ⟨((hext.but b).setKey hb₁ _ _).trans hfills.rest, hfills.sound, hfills.metatable,
      fun k' w hk' => ?_, fun k' hk' => ?_⟩
    · rcases List.mem_cons.mp hk' with heq | hk'
      · cases heq
        -- no later entry has the same key, and the table is none of those that the value leads to
        have hlast : (g.table b).get k.toScript = x := by
          rw [hfills.others _ fun k' w hk' heq => ?_, htable, if_pos rfl, Table.get_set hsound,
            if_pos rfl]
          have hmem : k' ∈ rest.map (·.1) := List.mem_map_of_mem (f := (·.1)) hk'
          rw [← Scope.Key.toScript_inj heq] at hmem
          exact hnodup.1 hmem
        rw [hlast]
        refine (hv.congr fun r hr => ?_).mono fun r hr => ⟨hr.1, ?_⟩
        · have hne : r ≠ b := fun heq => absurd hb (Nat.not_lt.mpr (heq ▸ hr.1))
          rw [hfills.rest.table r (hsize.symm ▸ hr.2) hne, htable, if_neg hne]
        · exact Nat.lt_of_lt_of_le hr.2 (Nat.le_trans (Nat.le_of_eq hsize.symm) hfills.rest.size)
      · refine (hfills.values k' w hk').mono fun r hr => ⟨?_, hr.2⟩
        exact Nat.le_trans (Nat.le_trans hext.size (Nat.le_of_eq hsize.symm)) hr.1
    · have hne : k' ≠ k.toScript := hk' k v List.mem_cons_self
      rw [hfills.others k' fun k'' w hk'' => hk' k'' w (List.mem_cons_of_mem _ hk''), htable,
        if_pos rfl, Table.get_set hsound, if_neg hne]

end

/-- The view of a scope spells it. -/
theorem freeze_spells (h : Heap) {t : Scope.Table} (ht : t.Keyed) :
    h.Extends (h.freeze t).1 ∧
      (h.freeze t).1.Spells (Added h (h.freeze t).1) (.table (h.freeze t).2) t.value :=
  freezeValue_spells h ht

end Heap

end StoryPack.Script
