/-
Tables that are filled from lists of entries.

* `Table.setAll` — a table with the entries of a list put into it;
* `Table.Sound.get_setAll` — the last entry of a key is what is found under it;
* `Table.Sound.get_of_mem_entries` — the entries of a table are what is found in it;
* `Heap.tables_foldl_setKey` — the same for a table of a heap.
-/
import StoryPack.Proofs.Script.Lookup
import StoryPack.Script.Heap

namespace StoryPack.Script

namespace Table

variable {t : Table} {k : Key} {v : Value}

/-- Puts the entries of a list into a table, one after another. -/
def setAll (t : Table) (es : List (Key × Value)) : Table := es.foldl (fun t e => t.set e.1 e.2) t

/-- The value of a key after the entries of a list: that of its last entry, if there is one. -/
def lastOf (k : Key) (es : List (Key × Value)) (v : Value) : Value :=
  es.foldl (fun v e => if k = e.1 then e.2 else v) v

theorem Sound.setAll (ht : Sound t) (es : List (Key × Value)) : Sound (t.setAll es) := by
  induction es generalizing t with
  | nil => exact ht
  | cons e es ih => exact ih (ht.set e.1 e.2).1

theorem Sound.get_setAll (ht : Sound t) (es : List (Key × Value)) (k : Key) :
    (t.setAll es).get k = lastOf k es (t.get k) := by
  induction es generalizing t with
  | nil => rfl
  | cons e es ih =>
    show ((t.set e.1 e.2).setAll es).get k = lastOf k es _
    rw [ih (ht.set e.1 e.2).1, get_set ht]

theorem lastOf_eq_or_mem (k : Key) (es : List (Key × Value)) (v : Value) :
    lastOf k es v = v ∨ (k, lastOf k es v) ∈ es := by
  induction es generalizing v with
  | nil => exact .inl rfl
  | cons e es ih =>
    show lastOf k es (if k = e.1 then e.2 else v) = v ∨ (k, lastOf k es _) ∈ e :: es
    rcases ih (if k = e.1 then e.2 else v) with hlast | hmem
    · rw [hlast]
      split
      · rename_i hk
        exact .inr (hk ▸ List.mem_cons_self)
      · exact .inl rfl
    · exact .inr (List.mem_cons_of_mem _ hmem)

theorem metatable_setAll (t : Table) (es : List (Key × Value)) :
    (t.setAll es).metatable = t.metatable := by
  induction es generalizing t with
  | nil => rfl
  | cons e es ih => exact (ih _).trans (metatable_set t e.1 e.2)

theorem Holds.setAll {P : Value → Prop} (hP : Admits P) (ht : t.Holds P)
    {es : List (Key × Value)} (hes : ∀ e ∈ es, P e.1.toValue ∧ P e.2) : (t.setAll es).Holds P := by
  induction es generalizing t with
  | nil => exact ht
  | cons e es ih =>
    obtain ⟨hk, hv⟩ := hes e List.mem_cons_self
    exact ih (ht.set hP hk hv) fun e' he' => hes e' (List.mem_cons_of_mem _ he')

/-- The entries of a table are what is found in it. -/
theorem Sound.get_of_mem_entries (ht : Sound t) (he : (k, v) ∈ t.entries) :
    t.get k = v ∧ v.isNil = false := by
  rw [ht.get_eq_find]
  unfold entries at he
  rcases List.mem_append.mp he with he | he
  · obtain ⟨i, hi, he⟩ := List.mem_filterMap.mp he
    dsimp only at he
    split at he
    · cases he
    · rename_i hnil
      cases he
      have hlt : i < t.array.size := List.mem_range.mp hi
      have hplace := (arrayPlace?_eq_some_iff ht.bound).mpr ⟨rfl, hlt⟩
      refine ⟨?_, Bool.eq_false_iff.mpr hnil⟩
      rw [find, hplace]
      simp [hlt]
  · obtain ⟨n, hn, hslot, hnil⟩ := ht.mem_slotEntries_iff.mp he
    have hplace : t.arrayPlace? k = none := by
      cases hplace : t.arrayPlace? k with
      | none => rfl
      | some m =>
        rw [ht.apart hplace] at hn
        cases hn
    refine ⟨?_, hnil⟩
    rw [find, hplace]
    exact getSlot_of_slot hn hslot

/-- A new table with the entries of a list under texts. -/
def named (es : List (String × Value)) : Table :=
  setAll {} (es.map fun e => (.str e.1.toUTF8, e.2))

theorem sound_named (es : List (String × Value)) : Sound (named es) := (sound_empty 0 none).setAll _

theorem metatable_named (es : List (String × Value)) : (named es).metatable = none :=
  metatable_setAll {} _

theorem holds_named {P : Value → Prop} (hP : Admits P) (htext : ∀ s, P (.str s))
    {es : List (String × Value)} (hes : ∀ e ∈ es, P e.2) : (named es).Holds P := by
  refine (holds_empty 0 none).setAll hP fun e he => ?_
  obtain ⟨e', he', rfl⟩ := List.mem_map.mp he
  exact ⟨htext _, hes e' he'⟩

/-- The value of a text in such a table is that of its last entry. -/
theorem get_named (es : List (String × Value)) (name : String) :
    (named es).get (.str name.toUTF8) =
    es.foldl (fun v e => if name = e.1 then e.2 else v) .nil := by
  have hkeys (e : String × Value) : (Key.str name.toUTF8 = .str e.1.toUTF8) ↔ name = e.1 := by
    simp only [Key.str.injEq]
    exact ⟨fun h => String.toByteArray_inj.mp h, fun h => h ▸ rfl⟩
  rw [named, (sound_empty 0 none).get_setAll, get_empty, lastOf, List.foldl_map]
  simp only [hkeys]

/-- Whatever is found in such a table is one of its values. -/
theorem get_named_cases (es : List (String × Value)) (k : Key) :
    (named es).get k = .nil ∨ ∃ e ∈ es, k = .str e.1.toUTF8 ∧ (named es).get k = e.2 := by
  rw [named, (sound_empty 0 none).get_setAll, get_empty]
  rcases lastOf_eq_or_mem k (es.map fun e => (.str e.1.toUTF8, e.2)) .nil with hnil | hmem
  · exact .inl hnil
  · obtain ⟨e, he, heq⟩ := List.mem_map.mp hmem
    simp only [Prod.mk.injEq] at heq
    exact .inr ⟨e, he, heq.1.symm, heq.2.symm⟩

end Table

namespace Heap

variable {h : Heap}

theorem tables_setKey (h : Heap) (r : Nat) (k : Key) (v : Value) :
    (h.setKey r k v).tables = h.tables.modify r fun t => t.set k v := rfl

theorem tables_foldl_setKey {α : Type} (key : α → Key) (value : α → Value) (es : List α) (h : Heap)
    (r : Nat) :
    (es.foldl (fun h e => h.setKey r (key e) (value e)) h).tables =
      h.tables.modify r fun t => t.setAll (es.map fun e => (key e, value e)) := by
  induction es generalizing h with
  | nil =>
    refine Array.ext_getElem? fun i => ?_
    simp only [List.foldl_nil, List.map_nil, Array.getElem?_modify]
    split
    · exact Option.map_id'.symm
    · rfl
  | cons e es ih =>
    rw [List.foldl_cons, ih]
    refine Array.ext_getElem? fun i => ?_
    simp only [setKey, Array.getElem?_modify]
    split
    · rw [Option.map_map]
      rfl
    · rfl

theorem modify_push (ts : Array Table) (t : Table) (f : Table → Table) :
    (ts.push t).modify ts.size f = ts.push (f t) := by
  refine Array.ext_getElem? fun i => ?_
  simp only [Array.getElem?_modify, Array.getElem?_push]
  by_cases hi : ts.size = i
  · rw [if_pos hi, if_pos hi.symm, if_pos hi.symm]
    rfl
  · rw [if_neg hi, if_neg (Ne.symm hi), if_neg (Ne.symm hi)]

/-- Writes to a table concern nothing but tables and the count of bytes. -/
theorem foldl_setKey_eq {α : Type} (key : α → Key) (value : α → Value) (es : List α) (h : Heap)
    (r : Nat) : ∃ tables used,
      es.foldl (fun h e => h.setKey r (key e) (value e)) h =
        { h with tables := tables, used := used } := by
  induction es generalizing h with
  | nil => exact ⟨_, _, rfl⟩
  | cons e es ih => exact ih (h.setKey r (key e) (value e))

theorem rest_foldl_setKey {α : Type} (key : α → Key) (value : α → Value) (es : List α) (h : Heap)
    (r : Nat) :
    let g := es.foldl (fun h e => h.setKey r (key e) (value e)) h
    g.cells = h.cells ∧ g.closures = h.closures ∧ g.shared = h.shared ∧ g.limit = h.limit := by
  obtain ⟨tables, used, heq⟩ := foldl_setKey_eq key value es h r
  rw [heq]
  exact ⟨rfl, rfl, rfl, rfl⟩

end Heap

end StoryPack.Script
