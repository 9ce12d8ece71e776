/-
A scope can be read back from its view.

The view of a scope has a snapshot, which holds the same as the scope.  So it is
when the view is stored somewhere in a table of a script: the snapshot of this
table holds the scope in its place.  Nothing is lost, added or changed however
often a scope is frozen and read back.

* `Heap.Plain` — a table that holds nothing but values of scopes, one view, and
  tables of this kind;
* `Heap.refreeze` — freezing and reading back again and again;
* `Heap.snapshot_freeze` — the scope is read back.
-/
import StoryPack.Proofs.Scope.Snapshot

namespace StoryPack.Script.Heap

/-- A value that is one view, is no table, or is a table that is no view, the keys of which are keys
of scopes, and the values of which are of this kind again. -/
inductive Plain (h : Heap) (view : Nat) : Value → Prop
  | leaf {v : Value} {w : Scope.Value} (hw : w.leaf? = some v) : Plain h view v
  | view : Plain h view (.table view)
  | table {r : Nat} (hview : h.isView r = false) (hsound : (h.table r).Sound)
      (hkeys : ∀ k, (h.table r).get k ≠ .nil → ∃ k', k = Scope.Key.toScript k')
      (hvalues : ∀ k, (h.table r).get k ≠ .nil → Plain h view ((h.table r).get k)) :
      Plain h view (.table r)

/-- Freezes a scope in a heap and reads it back, `n` times. -/
def refreeze : (n : Nat) → Heap → Scope.Table → Except SnapshotFault (Heap × Scope.Table)
  | 0, h, t => .ok (h, t)
  | n + 1, h, t => do
    let (h, view) := h.freeze t
    refreeze n h (← h.snapshot view)

theorem readThrough_of_not_view {h : Heap} {r : Nat} (hr : h.isView r = false) :
    h.readThrough r = r := by
  have hnone : h.backing? r = none :=
    Option.isNone_iff_eq_none.mp (Option.isSome_eq_false_iff.mp hr)
  rw [readThrough, hnone]
  rfl

/-- When the view can be read, such values can. -/
theorem Plain.readable {h : Heap} {view : Nat} {v : Value} (hv : h.Plain view v)
    (hview : h.Readable (.table view)) : h.Readable v := by
  induction hv with
  | leaf hw => exact .leaf hw
  | view => exact hview
  | table hr hsound hkeys hvalues ih =>
    have hreads := readThrough_of_not_view hr
    refine .table (by rwa [hreads]) (fun k hk => ?_) fun k hk => ?_
    · rw [hreads] at hk
      exact hkeys k hk
    · rw [hreads] at hk ⊢
      exact ih k hk

/-- The snapshot of a table holds, in every place, what the table holds there. -/
theorem Readable.at? {h : Heap} {D : Nat → Prop} {r : Nat} {v : Value} {w : Scope.Value}
    (hr : h.Readable (.table r)) {path : List Scope.Key}
    (hpath : h.follow (.table r) (path.map Scope.Key.toScript) = v) (hv : h.Spells D v w) :
    ∃ t w', h.snapshot r = .ok t ∧ t.value.at? path = some w' ∧ w'.Same w := by
  obtain ⟨t, ht, hspells, -⟩ := hr.spells
  rcases hspells.follow path with ⟨hnil, -⟩ | ⟨w', hat, hw'⟩
  · have hsome := hv.leaf?.1
    rw [← hpath, hnil] at hsome
    cases hsome
  · exact ⟨t, w', ht, hat, hw'.same (hpath ▸ hv)⟩

/-- The view of a scope has a snapshot, which holds the same. -/
theorem snapshot_freeze_same (h : Heap) {s : Scope.Table} (hs : s.Keyed) :
    ∃ t, (h.freeze s).1.snapshot (h.freeze s).2 = .ok t ∧ t.Same s ∧ t.Keyed ∧
      t.value.InOrder := by
  obtain ⟨-, hspells⟩ := h.freeze_spells hs
  obtain ⟨t, ht, hsnapshot, horder⟩ := hspells.readable.spells
  exact ⟨t, ht, hsnapshot.same hspells, hsnapshot.keyed, horder⟩

theorem refreeze_same (h : Heap) {s : Scope.Table} (hs : s.Keyed) (n : Nat) :
    ∃ g t, refreeze n h s = .ok (g, t) ∧ t.Same s ∧ t.Keyed := by
  induction n generalizing h s with
  | zero => exact ⟨h, s, rfl, .refl _, hs⟩
  | succ n ih =>
    obtain ⟨t, ht, hsame, hkeyed, -⟩ := h.snapshot_freeze_same hs
    obtain ⟨g, u, hu, husame, hukeyed⟩ := ih (h.freeze s).1 hkeyed
    refine ⟨g, u, ?_, husame.trans hsame, hukeyed⟩
    rw [refreeze]
    simp only [ht, bind, Except.bind, hu]

/-- A scope is read back from its view: directly, from every table that the view is stored in as
long as the tables of the view are not changed, and any number of times. The sequence part of what
is read comes first. -/
theorem snapshot_freeze (h : Heap) {s : Scope.Table} (hs : s.Keyed) :
    (∃ t, (h.freeze s).1.snapshot (h.freeze s).2 = .ok t ∧ t.Same s ∧ t.Keyed ∧
      t.value.InOrder) ∧
    (∀ (f : Heap) (r : Nat) (path : List Scope.Key),
      (∀ a, Added h (h.freeze s).1 a → f.table a = (h.freeze s).1.table a) →
      f.Plain (h.freeze s).2 (.table r) →
      f.follow (.table r) (path.map Scope.Key.toScript) = .table (h.freeze s).2 →
      ∃ t w, f.snapshot r = .ok t ∧ t.value.at? path = some w ∧ w.Same s.value) ∧
    ∀ n, ∃ g t, refreeze n h s = .ok (g, t) ∧ t.Same s ∧ t.Keyed := by
  refine ⟨h.snapshot_freeze_same hs, fun f r path hf hr hpath => ?_, h.refreeze_same hs⟩
  obtain ⟨-, hspells⟩ := h.freeze_spells hs
  -- only the tables that have been added for the view are looked at, and these are as they were
  have hview : f.Spells (Added h (h.freeze s).1) (.table (h.freeze s).2) s.value :=
    hspells.congr hf
  exact (hr.readable hview.readable).at? hpath hview

/-- A new table that holds nothing but a value under one key. -/
def shelf (h : Heap) (k : Scope.Key) (v : Value) : Heap :=
  (h.newTable {}).1.setKey h.tables.size k.toScript v

theorem table_shelf (h : Heap) (k : Scope.Key) (v : Value) (r : Nat) :
    (h.shelf k v).table r =
      if r = h.tables.size then ({} : Table).set k.toScript v else h.table r := by
  have hnew : h.tables.size < (h.newTable {}).1.tables.size := by simp [newTable]
  have htable (r : Nat) : (h.newTable {}).1.table r = if r = h.tables.size then {} else h.table r :=
    table_push _ rfl
  rw [shelf, table_setKey _ hnew, htable, htable, if_pos rfl]
  split <;> rfl

theorem get_shelf (h : Heap) (k : Scope.Key) (v : Value) (k' : Key) :
    ((h.shelf k v).table h.tables.size).get k' = if k' = k.toScript then v else .nil := by
  rw [table_shelf, if_pos rfl, Table.get_set (Table.sound_empty 0 none), Table.get_empty]

theorem not_view_shelf (h : Heap) (k : Scope.Key) (v : Value) :
    (h.shelf k v).isView h.tables.size = false := by
  rw [isView, backing?, table_shelf, if_pos rfl, Table.metatable_set]
  rfl

theorem follow_shelf (h : Heap) (k : Scope.Key) (v : Value) :
    (h.shelf k v).follow (.table h.tables.size) [k.toScript] = v := by
  show ((h.shelf k v).table ((h.shelf k v).readThrough h.tables.size)).get k.toScript = v
  rw [readThrough_of_not_view (h.not_view_shelf k v), get_shelf, if_pos rfl]

theorem plain_shelf (h : Heap) (k : Scope.Key) (view : Nat) :
    (h.shelf k (.table view)).Plain view (.table h.tables.size) := by
  have hget (k' : Key) (hk' : ((h.shelf k (.table view)).table h.tables.size).get k' ≠ .nil) :
      k' = k.toScript ∧
        ((h.shelf k (.table view)).table h.tables.size).get k' = .table view := by
    rw [get_shelf] at hk' ⊢
    split at hk'
    · exact ⟨‹_›, if_pos ‹_›⟩
    · exact absurd rfl hk'
  refine .table (not_view_shelf h k _) ?_ (fun k' hk' => ⟨k, (hget k' hk').1⟩) fun k' hk' => ?_
  · rw [table_shelf, if_pos rfl]
    exact ((Table.sound_empty 0 none).set _ _).1
  · rw [(hget k' hk').2]
    exact .view

/-- A scope with a gap, a nested scope and a function is read back from a table. -/
theorem snapshot_shelf :
    let h : Heap := {}
    let s : Scope.Table := ⟨[(.integer 2, .boolean true), (.integer 4, .integer 0),
      (.text "deep", .table [(.integer 1, .text "x"), (.text "f", .function (.closure 0))]),
      (.integer 1, .integer 7)]⟩
    let f := (h.freeze s).1.shelf (.text "held") (.table (h.freeze s).2)
    let r := (h.freeze s).1.tables.size
    s.Keyed ∧ (∀ a, Added h (h.freeze s).1 a → f.table a = (h.freeze s).1.table a) ∧
      f.Plain (h.freeze s).2 (.table r) ∧
      f.follow (.table r) ([.text "held"].map Scope.Key.toScript) = .table (h.freeze s).2 ∧
      ∃ t w, f.snapshot r = .ok t ∧ t.value.at? [.text "held"] = some w ∧ w.Same s.value := by
  intro h s f r
  have hs : s.Keyed := by
    simp [s, Scope.Table.Keyed, Scope.Table.value, Scope.Value.Keyed, Scope.Value.entriesKeyed]
  have hf (a : Nat) (ha : Added h (h.freeze s).1 a) : f.table a = (h.freeze s).1.table a := by
    rw [table_shelf, if_neg (Nat.ne_of_lt ha.2)]
  have hplain : f.Plain (h.freeze s).2 (.table r) := plain_shelf _ _ _
  have hpath : f.follow (.table r) ([.text "held"].map Scope.Key.toScript) =
      .table (h.freeze s).2 := follow_shelf _ (.text "held") _
  exact ⟨hs, hf, hplain, hpath, (snapshot_freeze h hs).2.1 f r [.text "held"] hf hplain hpath⟩

end StoryPack.Script.Heap
