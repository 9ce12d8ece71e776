/-
What scripts can learn from metatables.

The metatable of a value that scripts hold is one that they hold, one of a basic
type, or that of a view.  All that the machine finds there is something that
scripts may hold too, but for two entries of views: the backing table, through
which they are indexed, and the function that refuses writes.

* `Heap.viewMetatable_get` — the entries of the metatable of a view;
* `Heap.Kept.metafield_cases` — what is found in the metatable of a value;
* `Heap.Kept.collected` — the collector takes entries out of no fixed table;
* `Value.Callable` — the values that are called on behalf of scripts.
-/
import StoryPack.Proofs.Confinement.Ward
import StoryPack.Proofs.Script.Collection
import Mathlib.Tactic.SplitIfs

namespace StoryPack.Script

variable {W : Ward} {n m : Nat} {h : Heap}

namespace Heap

theorem getKey_eq (h : Heap) (r : Nat) (k : Key) : h.getKey r k = (h.table r).get k := by
  unfold getKey table
  cases h.tables[r]? with
  | some t => rfl
  | none => exact (Table.get_empty 0 none k).symm

theorem metatable?_table (h : Heap) (r : Nat) :
    h.metatable? (.table r) = (h.table r).metatable := by
  simp only [metatable?, table]
  cases h.tables[r]? <;> rfl

theorem metafield_table (h : Heap) {r m : Nat} (hm : (h.table r).metatable = some m)
    (event : ByteArray) : h.metafield (.table r) event = h.getKey m (.str event) := by
  simp only [metafield, metatable?_table, hm]

/-- The metatable of a value that is no table is that of its type. -/
theorem metatable?_of_ne (h : Heap) {v : Value} (hv : ∀ r, v ≠ .table r) :
    h.metatable? v = h.shared.of v.kind := by
  cases v with
  | table r => exact absurd rfl (hv r)
  | _ => rfl

theorem viewMetatable_get (b : Nat) (shown : Value) (k : Key) :
    (viewMetatable b shown).get k =
      if k = .str viewMark then .bool true
      else if k = .str Event.metatable then shown
      else if k = .str Event.pairs then .builtin (.view .pairs)
      else if k = .str Event.len then .builtin (.view .length)
      else if k = .str Event.newindex then .builtin (.view .deny)
      else if k = .str Event.index then .table b
      else .nil := by
  have h0 := Table.sound_empty 0 none
  have h1 := (h0.set (.str Event.index) (.table b)).1
  have h2 := (h1.set (.str Event.newindex) (.builtin (.view .deny))).1
  have h3 := (h2.set (.str Event.len) (.builtin (.view .length))).1
  have h4 := (h3.set (.str Event.pairs) (.builtin (.view .pairs))).1
  have h5 := (h4.set (.str Event.metatable) shown).1
  simp only [viewMetatable, List.foldl_cons, List.foldl_nil]
  rw [Table.get_set h5, Table.get_set h4, Table.get_set h3, Table.get_set h2, Table.get_set h1,
    Table.get_set h0]
  rw [Table.get_empty]

@[simp] theorem viewMetatable_index (b : Nat) (shown : Value) :
    (viewMetatable b shown).get (.str Event.index) = .table b := by
  rw [viewMetatable_get, if_neg (by decide), if_neg (by decide), if_neg (by decide),
    if_neg (by decide), if_neg (by decide), if_pos rfl]

@[simp] theorem viewMetatable_newindex (b : Nat) (shown : Value) :
    (viewMetatable b shown).get (.str Event.newindex) = .builtin (.view .deny) := by
  rw [viewMetatable_get, if_neg (by decide), if_neg (by decide), if_neg (by decide),
    if_neg (by decide), if_pos rfl]

@[simp] theorem viewMetatable_len (b : Nat) (shown : Value) :
    (viewMetatable b shown).get (.str Event.len) = .builtin (.view .length) := by
  rw [viewMetatable_get, if_neg (by decide), if_neg (by decide), if_neg (by decide), if_pos rfl]

@[simp] theorem viewMetatable_pairs (b : Nat) (shown : Value) :
    (viewMetatable b shown).get (.str Event.pairs) = .builtin (.view .pairs) := by
  rw [viewMetatable_get, if_neg (by decide), if_neg (by decide), if_pos rfl]

@[simp] theorem viewMetatable_metatable (b : Nat) (shown : Value) :
    (viewMetatable b shown).get (.str Event.metatable) = shown := by
  rw [viewMetatable_get, if_neg (by decide), if_pos rfl]

@[simp] theorem viewMetatable_mark (b : Nat) (shown : Value) :
    (viewMetatable b shown).get (.str viewMark) = .bool true := by
  rw [viewMetatable_get, if_pos rfl]

/-- A metatable of a view says nothing of its being weak. -/
theorem weakness_of_viewMetatable {h : Heap} {t : Table} {m b : Nat} {shown : Value}
    (ht : t.metatable = some m) (hm : h.table m = viewMetatable b shown) : h.weakness t = {} := by
  unfold weakness
  rw [ht]
  dsimp only
  rw [getKey_eq, hm, viewMetatable_get, if_neg (by decide), if_neg (by decide), if_neg (by decide),
    if_neg (by decide), if_neg (by decide), if_neg (by decide)]
  rfl

theorem viewMetatable_inj {b b' : Nat} {shown shown' : Value}
    (h : viewMetatable b shown = viewMetatable b' shown') : b = b' := by
  have hindex : (viewMetatable b shown).get (.str Event.index) =
      (viewMetatable b' shown').get (.str Event.index) := by rw [h]
  rw [viewMetatable_index, viewMetatable_index] at hindex
  exact Value.table.inj hindex

namespace Kept

/-- What scripts read from a table that they hold. -/
theorem get_ok (hk : h.Kept W) {r : Nat} (hr : W.Exposed r) (k : Key) :
    ((h.table r).get k).Ok W h.tables.size := by
  rcases hk.table_cases hr with ⟨-, hfree⟩ | ⟨m, b, -, hview⟩
  · exact hfree.holds.get (admits_ok W _) k
  · rw [hview, Table.get_empty]
    trivial

theorem getValue_ok (hk : h.Kept W) {r : Nat} (hr : W.Exposed r) (v : Value) :
    ((h.table r).getValue v).Ok W h.tables.size := by
  unfold Table.getValue
  split
  · exact hk.get_ok hr _
  · trivial

/-- The metatable of a value that scripts hold: they may hold it too, it is that of a basic type, or
it is that of a view. -/
theorem metatable_cases (hk : h.Kept W) {v : Value} (hv : v.Ok W h.tables.size) {m : Nat}
    (hm : h.metatable? v = some m) :
    (Value.table m).Ok W h.tables.size ∨ W.shared.of v.kind = some m ∨
      ∃ r b, v = .table r ∧ W.views r = some (m, b) := by
  by_cases hr : ∃ r, v = .table r
  · obtain ⟨r, rfl⟩ := hr
    rw [metatable?_table] at hm
    rcases hk.table_cases hv.2 with ⟨-, hfree⟩ | ⟨m', b, hviews, hview⟩
    · exact .inl (hfree.metatable m hm)
    · rw [hview] at hm
      cases hm
      exact .inr (.inr ⟨r, b, rfl, hviews⟩)
  · rw [metatable?_of_ne h fun r hv => hr ⟨r, hv⟩, hk.shared] at hm
    exact .inr (.inl hm)

/-- What is found in the metatable of a value that scripts hold. -/
theorem metafield_cases (hk : h.Kept W) {v : Value} (hv : v.Ok W h.tables.size)
    (event : ByteArray) :
    (h.metafield v event).Ok W h.tables.size ∨
      ∃ r m b, v = .table r ∧ W.views r = some (m, b) ∧
        (event = Event.index ∧ h.metafield v event = .table b ∨
          event = Event.newindex ∧ h.metafield v event = .builtin (.view .deny)) := by
  unfold metafield
  cases hm : h.metatable? v with
  | none => exact .inl trivial
  | some m =>
    dsimp only
    rw [getKey_eq]
    rcases hk.metatable_cases hv hm with hm | hm | ⟨r, b, rfl, hview⟩
    · exact .inl (hk.get_ok hm.2 _)
    · obtain ⟨t, ht, -, hget, -⟩ := hk.sound.shared hm
      rw [hk.table_of_fixed ht]
      exact .inl ((hget _).1.mono hk.size)
    · rw [hk.table_of_fixed (hk.sound.view hview).2.1, viewMetatable_get]
      simp only [Key.str.injEq]
      split_ifs with _ _ _ _ hnewindex hindex
      · exact .inl trivial
      · exact .inl trivial
      · exact .inl rfl
      · exact .inl rfl
      · exact .inr ⟨r, m, b, rfl, hview, .inr ⟨hnewindex, rfl⟩⟩
      · exact .inr ⟨r, m, b, rfl, hview, .inl ⟨hindex, rfl⟩⟩
      · exact .inl trivial

/-- Other events than reading and writing find only what scripts may hold. -/
theorem metafield_ok (hk : h.Kept W) {v : Value} (hv : v.Ok W h.tables.size) (event : ByteArray)
    (he : event ≠ Event.index ∧ event ≠ Event.newindex) :
    (h.metafield v event).Ok W h.tables.size := by
  rcases hk.metafield_cases hv event with hok | ⟨r, m, b, -, -, ⟨h, -⟩ | ⟨h, -⟩⟩
  · exact hok
  · exact absurd h he.1
  · exact absurd h he.2

/-- A view has no entries of its own, is indexed through its backing table, and refuses writes. -/
theorem table_view (hk : h.Kept W) {r m b : Nat} (hview : W.views r = some (m, b)) :
    h.table r = { metatable := some m } ∧ h.table m = viewMetatable b (.bool false) ∧
      ∃ t, h.table b = t ∧ t.metatable = none ∧ t.Holds (Value.Ok W h.tables.size) := by
  obtain ⟨hr, hm, -, t, ht, -, hnone, -, hholds⟩ := hk.sound.view hview
  exact ⟨hk.table_of_fixed hr, hk.table_of_fixed hm, t, hk.table_of_fixed ht, hnone,
    hholds.mono fun _ hv => hv.1.mono hk.size⟩

theorem newindex_view (hk : h.Kept W) {r m b : Nat} (hview : W.views r = some (m, b)) :
    h.getKey m (.str Event.newindex) = .builtin (.view .deny) := by
  rw [getKey_eq, (hk.table_view hview).2.1, viewMetatable_newindex]

/-- What scripts are shown when they ask for a metatable. -/
theorem shown_ok (hk : h.Kept W) {v : Value} (hv : v.Ok W h.tables.size) {m : Nat}
    (hm : h.metatable? v = some m) :
    (h.getKey m (.str Event.metatable)).Ok W h.tables.size ∧
      (h.getKey m (.str Event.metatable) = .nil → (Value.table m).Ok W h.tables.size) := by
  rw [getKey_eq]
  rcases hk.metatable_cases hv hm with hm | hm | ⟨r, b, rfl, hview⟩
  · exact ⟨hk.get_ok hm.2 _, fun _ => hm⟩
  · obtain ⟨t, ht, -, hget, v, hshown⟩ := hk.sound.shared hm
    rw [hk.table_of_fixed ht]
    exact ⟨(hget _).1.mono hk.size, fun hnil => by
      rw [hshown] at hnil
      cases hnil⟩
  · rw [hk.table_of_fixed (hk.sound.view hview).2.1, viewMetatable_metatable]
    exact ⟨trivial, fun hnil => by cases hnil⟩

/-- Fixed tables hold their entries by themselves: only views among them have a metatable, and that
says nothing of being weak. -/
theorem strong_of_fixed (hk : h.Kept W) {r : Nat} {t : Table} (hr : W.tables r = some t) :
    h.weakness (h.table r) = {} := by
  cases hm : (h.table r).metatable with
  | none => exact weakness_of_metatable hm
  | some m =>
    obtain ⟨b, hview⟩ := hk.sound.metatable hr (hk.table_of_fixed hr ▸ hm)
    exact weakness_of_viewMetatable hm (hk.table_of_fixed (hk.sound.view hview).2.1)

/-- The collector takes entries out of no fixed table. -/
theorem collected (hk : h.Kept W) (roots : List Value) (all : Bool) :
    (h.collected roots all).Kept W := by
  refine (collected_induction (P := fun g => g.Kept W ∧ g.tables.size = h.tables.size) ⟨hk, rfl⟩
    (fun g used kept vanished hg => ⟨hg.1.congr rfl rfl rfl rfl, hg.2⟩) ?_).1
  rintro g r k hweak ⟨v, hentry⟩ ⟨hg, hsize⟩
  have hfree : W.tables r = none :=
    Option.eq_none_iff_forall_ne_some.mpr fun t ht => hweak (hk.strong_of_fixed ht)
  have hkey : k.toValue.Ok W g.tables.size :=
    hsize ▸ ((hk.free_table hfree).holds.entries (admits_ok W _) hentry).1
  exact ⟨hg.setKey hfree hkey Value.ok_nil, (Array.size_modify ..).trans hsize⟩

end Kept

end Heap

/-- The values that are called on behalf of scripts: those that they hold, and what refuses writes
to views. -/
def Value.Callable (W : Ward) (n : Nat) (f : Value) : Prop :=
  f.Ok W n ∨ f = .builtin (.view .deny)

theorem Value.Callable.mono {f : Value} (hf : f.Callable W n) (hle : n ≤ m) : f.Callable W m :=
  hf.imp_left fun h => h.mono hle

theorem Value.Ok.callable {f : Value} (hf : f.Ok W n) : f.Callable W n := .inl hf

theorem Arith.event_ne (op : Arith) : op.event ≠ Event.index ∧ op.event ≠ Event.newindex := by
  cases op <;> decide

end StoryPack.Script
