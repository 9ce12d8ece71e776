/-
Snapshots that do not fail.

A library holds functions and numbers, all of them under texts.  So do the
backing tables of its views.  Such tables have snapshots, and so have tables
that hold views of them as well.

* `Table.Listed` — a table of functions and numbers under texts;
* `Heap.snapshotEntries_listed` — it has a snapshot;
* `Heap.freeze_listed` — the view of that has a backing table of the same kind.
-/
import StoryPack.Proofs.Confinement.Extension
import StoryPack.Proofs.Script.Fill
import StoryPack.Proofs.Text.Ascii

namespace StoryPack.Script

/-- Functions and numbers. -/
def Value.IsLeaf : Value → Prop
  | .function _ | .int _ | .float _ => True
  | _ => False

/-- A table of functions and numbers under texts. -/
structure Table.Listed (t : Table) : Prop where
  sound : t.Sound
  get : ∀ k, t.get k = .nil ∨ (∃ s : String, k = .str s.toUTF8) ∧ (t.get k).IsLeaf

namespace Table

variable {t : Table}

/-- What a snapshot looks at is what is found in the table. -/
theorem Sound.get_of_mem_snapshotOrder (ht : t.Sound) {e : Key × Value}
    (he : e ∈ Heap.snapshotOrder t) : t.get e.1 = e.2 ∧ e.2.isNil = false := by
  unfold Heap.snapshotOrder at he
  rcases List.mem_append.mp he with he | he
  · obtain ⟨i, -, hi⟩ := List.mem_filterMap.mp he
    dsimp only at hi
    split at hi
    · cases hi
    · rename_i hnil
      cases hi
      exact ⟨rfl, Bool.eq_false_iff.mpr hnil⟩
  · exact ht.get_of_mem_entries (List.mem_filter.mp he).1

theorem Listed.of_mem (ht : t.Listed) {e : Key × Value} (he : e ∈ Heap.snapshotOrder t) :
    (∃ s : String, e.1 = .str s.toUTF8) ∧ e.2.IsLeaf := by
  obtain ⟨hget, hnil⟩ := ht.sound.get_of_mem_snapshotOrder he
  rcases ht.get e.1 with h | h
  · rw [hget] at h
    rw [h] at hnil
    cases hnil
  · exact hget ▸ h

theorem listed_setAll {es : List (Key × Value)}
    (hes : ∀ e ∈ es, (∃ s : String, e.1 = .str s.toUTF8) ∧ e.2.IsLeaf) :
    (setAll {} es).Listed where
  sound := (sound_empty 0 none).setAll es
  get k := by
    rw [(sound_empty 0 none).get_setAll, get_empty]
    rcases lastOf_eq_or_mem k es .nil with hnil | hmem
    · exact .inl hnil
    · exact .inr (hes _ hmem)

theorem listed_named {es : List (String × Value)} (hes : ∀ e ∈ es, e.2.IsLeaf) :
    (named es).Listed := by
  refine listed_setAll fun e he => ?_
  obtain ⟨e', he', rfl⟩ := List.mem_map.mp he
  exact ⟨⟨e'.1, rfl⟩, hes e' he'⟩

end Table

namespace Heap

variable {h : Heap}

theorem exists_mapM_ok {α β ε : Type} {f : α → Except ε β} {Q : β → Prop} {as : List α}
    (hf : ∀ a ∈ as, ∃ b, f a = .ok b ∧ Q b) : ∃ bs, as.mapM f = .ok bs ∧ ∀ b ∈ bs, Q b := by
  induction as with
  | nil => exact ⟨[], rfl, fun b hb => by cases hb⟩
  | cons a as ih =>
    obtain ⟨b, hb, hQ⟩ := hf a List.mem_cons_self
    obtain ⟨bs, hbs, hQs⟩ := ih fun a' ha' => hf a' (List.mem_cons_of_mem _ ha')
    refine ⟨b :: bs, ?_, List.forall_mem_cons.mpr ⟨hQ, hQs⟩⟩
    rw [List.mapM_cons, hb, hbs]
    rfl

/-- Entries of a scope that are functions and numbers under texts. -/
def IsListing (entries : List (Scope.Key × Scope.Value)) : Prop :=
  ∀ e ∈ entries, (∃ s, e.1 = .text s) ∧
    ((∃ f, e.2 = .function f) ∨ (∃ i, e.2 = .integer i) ∨ ∃ x, e.2 = .number x)

theorem snapshotText_toUTF8 (s : String) : snapshotText s.toUTF8 = .ok s := by
  rw [snapshotText, Utf8.text_toUTF8]

theorem snapshotKey_text (path s : String) :
    snapshotKey path (.str s.toUTF8) = .ok (.text s) := by
  simp only [snapshotKey, snapshotText_toUTF8]
  rfl

/-- Such a table has a snapshot. -/
theorem snapshotEntries_listed {r : Nat} (hr : (h.table (h.readThrough r)).Listed) (fuel : Nat)
    {visiting : List Nat} (hvisiting : h.readThrough r ∉ visiting) (path : String) :
    ∃ entries, snapshotEntries h (fuel + 1) visiting path r = .ok entries ∧
      IsListing entries := by
  unfold snapshotEntries
  dsimp only
  rw [if_neg (by simpa using hvisiting)]
  refine exists_mapM_ok fun e he => ?_
  obtain ⟨⟨s, hs⟩, hleaf⟩ := hr.of_mem he
  obtain ⟨k, v⟩ := e
  cases hs
  dsimp only at hleaf ⊢
  rw [snapshotKey_text]
  cases v with
  | function f => exact ⟨_, rfl, ⟨s, rfl⟩, .inl ⟨f, rfl⟩⟩
  | int i => exact ⟨_, rfl, ⟨s, rfl⟩, .inr (.inl ⟨i, rfl⟩)⟩
  | float x => exact ⟨_, rfl, ⟨s, rfl⟩, .inr (.inr ⟨x, rfl⟩)⟩
  | _ => cases hleaf

/-- The entries of a listing are put into their backing table one after another. -/
theorem freezeEntries_listing {b : Nat} {entries : List (Scope.Key × Scope.Value)}
    (hentries : IsListing entries) : ∃ es : List (Key × Value),
      (∀ e ∈ es, (∃ s : String, e.1 = .str s.toUTF8) ∧ e.2.IsLeaf) ∧
        freezeEntries entries b h = es.foldl (fun h e => h.setKey b e.1 e.2) h := by
  induction entries generalizing h with
  | nil => exact ⟨[], fun e he => (by cases he), rfl⟩
  | cons e rest ih =>
    obtain ⟨⟨s, hs⟩, hv⟩ := hentries e List.mem_cons_self
    have hrest : IsListing rest := fun e' he' => hentries e' (List.mem_cons_of_mem _ he')
    obtain ⟨k, v⟩ := e
    cases hs
    have hfreeze {w : Value} (hw : freezeValue v h = (h, w)) (hleaf : w.IsLeaf) :
        ∃ es : List (Key × Value),
          (∀ e ∈ es, (∃ s : String, e.1 = .str s.toUTF8) ∧ e.2.IsLeaf) ∧
            freezeEntries ((.text s, v) :: rest) b h =
              es.foldl (fun h e => h.setKey b e.1 e.2) h := by
      obtain ⟨es, hes, heq⟩ := ih (h := h.setKey b (.str s.toUTF8) w) hrest
      refine ⟨(.str s.toUTF8, w) :: es, List.forall_mem_cons.mpr ⟨⟨⟨s, rfl⟩, hleaf⟩, hes⟩, ?_⟩
      rw [freezeEntries, hw]
      exact heq
    rcases hv with ⟨f, hf⟩ | ⟨i, hi⟩ | ⟨x, hx⟩
    · cases hf
      exact hfreeze (w := .function f) rfl trivial
    · cases hi
      exact hfreeze (w := .int i) rfl trivial
    · cases hx
      exact hfreeze (w := .float x) rfl trivial

/-- A view that has been added is read through to its backing table. -/
theorem newView_reads (h : Heap) {b : Nat} (hb : b < h.tables.size) :
    (h.newView b).1.readThrough (h.newView b).2 = b ∧ (h.newView b).1.table b = h.table b := by
  have hview : (h.newView b).2 = h.tables.size + 1 := by simp [newView, newTable]
  have hr : ((h.newView b).1.table (h.tables.size + 1)).metatable = some h.tables.size := by
    rw [table_newView, if_pos rfl]
  have hm : (h.newView b).1.table h.tables.size = viewMetatable b (.bool false) := by
    rw [table_newView, if_neg (by omega), if_pos rfl]
  refine ⟨hview ▸ readThrough_of_view hr hm, ?_⟩
  rw [table_newView, if_neg (by omega), if_neg (by omega)]

/-- The view of a listing leads to a table of functions and numbers under texts. -/
theorem freeze_listing {t : Scope.Table} (ht : IsListing t.entries) :
    ((h.freeze t).1.table ((h.freeze t).1.readThrough (h.freeze t).2)).Listed := by
  obtain ⟨es, hes, heq⟩ := freezeEntries_listing (h := (h.newTable {}).1) (b := h.tables.size) ht
  let g := freezeEntries t.entries h.tables.size (h.newTable {}).1
  have htables : g.tables = h.tables.push (Table.setAll {} es) := by
    have hfold := tables_foldl_setKey Prod.fst Prod.snd es (h.newTable {}).1 h.tables.size
    rw [show g = _ from heq, hfold, newTable, modify_push, List.map_id' es]
  have htable : g.table h.tables.size = Table.setAll {} es := by
    rw [table_push g htables, if_pos rfl]
  have hlt : h.tables.size < g.tables.size := by simp [htables]
  show ((g.newView h.tables.size).1.table _).Listed
  rw [show (h.freeze t).2 = (g.newView h.tables.size).2 from rfl,
    show (h.freeze t).1 = (g.newView h.tables.size).1 from rfl, (newView_reads g hlt).1,
    (newView_reads g hlt).2, htable]
  exact Table.listed_setAll hes

end Heap

end StoryPack.Script
