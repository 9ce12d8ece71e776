/-
Heaps whose references are renamed.

What lies in an arena of the one heap is found in the other one at a renamed
reference, and what is added to both next comes to lie at references that
correspond.  Neither heap has a limit, so the bytes in use do not matter, and an
object is shown with the same address in both.

* `Arena` — two arrays whose places correspond;
* `Heap.Renamed` — two heaps whose arenas do;
* `Heap.Renamed.getKey`, `Heap.Renamed.metafield`, … — what is read from both;
* `Heap.Renamed.newTable`, `Heap.Renamed.setKey`, … — what is done to both.
-/
import StoryPack.Proofs.Renaming.Table
import StoryPack.Proofs.Confinement.Metatable
import StoryPack.Script.Library

namespace StoryPack.Script

/-! ### Arenas -/

/-- The places of two arrays correspond under a map: what lies at a place is related to what lies at
the other one, and places past the ends are past the ends by as much. -/
structure Arena {α β : Type} (f : Nat → Nat) (R : α → β → Prop) (a : Array α) (b : Array β) :
    Prop where
  rel : ∀ {r : Nat} {x : α}, a[r]? = some x → ∃ y, b[f r]? = some y ∧ R x y
  add : ∀ k, f (a.size + k) = b.size + k

namespace Arena

variable {α β : Type} {f : Nat → Nat} {R : α → β → Prop} {a : Array α} {b : Array β}

theorem size (h : Arena f R a b) : f a.size = b.size := h.add 0

theorem lt (h : Arena f R a b) {r : Nat} (hr : r < a.size) : f r < b.size := by
  obtain ⟨y, hy, -⟩ := h.rel (Array.getElem?_eq_getElem hr)
  exact (Array.getElem?_eq_some_iff.mp hy).1

theorem none (h : Arena f R a b) {r : Nat} (hr : a[r]? = .none) : b[f r]? = .none := by
  have hge := Array.getElem?_eq_none_iff.mp hr
  have hadd := h.add (r - a.size)
  rw [Nat.add_sub_cancel' hge] at hadd
  exact Array.getElem?_eq_none_iff.mpr (by omega)

theorem push (h : Arena f R a b) {x : α} {y : β} (hxy : R x y) :
    Arena f R (a.push x) (b.push y) where
  rel {r z} hr := by
    rw [Array.getElem?_push] at hr
    split at hr
    · rename_i heq
      cases hr
      exact ⟨y, by rw [heq, h.size, Array.getElem?_push_size], hxy⟩
    · obtain ⟨w, hw, hzw⟩ := h.rel hr
      have hlt := (Array.getElem?_eq_some_iff.mp hw).1
      exact ⟨w, by rw [Array.getElem?_push, if_neg (Nat.ne_of_lt hlt), hw], hzw⟩
  add k := by
    have hadd := h.add (k + 1)
    rw [Array.size_push, Array.size_push]
    rw [show a.size + 1 + k = a.size + (k + 1) by omega]
    omega

/-- What lies at a place is changed in both. -/
theorem modify (h : Arena f R a b) (hf : Function.Injective f) (r : Nat) {F : α → α} {G : β → β}
    (hFG : ∀ x y, a[r]? = some x → R x y → R (F x) (G y)) :
    Arena f R (a.modify r F) (b.modify (f r) G) where
  rel {r' z} hr := by
    rw [Array.getElem?_modify] at hr
    rw [Array.getElem?_modify]
    split at hr
    · rename_i heq
      subst heq
      obtain ⟨x, hx, rfl⟩ := Option.map_eq_some_iff.mp hr
      obtain ⟨y, hy, hxy⟩ := h.rel hx
      exact ⟨G y, by rw [if_pos rfl, hy]; rfl, hFG x y hx hxy⟩
    · rename_i hne
      rw [if_neg fun heq => hne (hf heq)]
      exact h.rel hr
  add k := by
    rw [Array.size_modify, Array.size_modify]
    exact h.add k

/-- What lies at a place is replaced in both. -/
theorem set (h : Arena f R a b) (hf : Function.Injective f) (r : Nat) {x : α} {y : β}
    (hxy : R x y) : Arena f R (a.set! r x) (b.set! (f r) y) where
  rel {r' z} hr := by
    rw [Array.set!_eq_setIfInBounds, Array.getElem?_setIfInBounds] at hr
    rw [Array.set!_eq_setIfInBounds, Array.getElem?_setIfInBounds]
    split at hr
    · rename_i heq
      subst heq
      split at hr
      · rename_i hlt
        cases hr
        exact ⟨y, by rw [if_pos rfl, if_pos (h.lt hlt)], hxy⟩
      · cases hr
    · rename_i hne
      rw [if_neg fun heq => hne (hf heq)]
      exact h.rel hr
  add k := by
    rw [Array.set!_eq_setIfInBounds, Array.set!_eq_setIfInBounds, Array.size_setIfInBounds,
      Array.size_setIfInBounds]
    exact h.add k

end Arena

/-! ### Heaps -/

/-- A closure with the references of its captured variables renamed. -/
def Renaming.closed (σ : Renaming) (c : Closure) : Closure :=
  ⟨c.proto, c.upvalues.map σ.cell⟩

/-- The shared metatables with their references renamed. -/
def Renaming.shared (σ : Renaming) (t : KindTables) : KindTables where
  nil := t.nil.map σ.table
  boolean := t.boolean.map σ.table
  number := t.number.map σ.table
  string := t.string.map σ.table
  function := t.function.map σ.table
  thread := t.thread.map σ.table

/-- A heap is another one with its references renamed. Neither has a limit, and objects that
correspond are shown with the same address. -/
structure Heap.Renamed (σ : Renaming) (h h' : Heap) : Prop where
  tables : Arena σ.table (Table.Renamed σ) h.tables h'.tables
  closures : Arena σ.closure (fun c c' => c' = σ.closed c) h.closures h'.closures
  cells : Arena σ.cell (fun v v' => v' = σ.value v) h.cells h'.cells
  searches : Arena σ.search (fun s s' => s' = s) h.searches h'.searches
  faults : Arena σ.fault (fun f f' => f' = f) h.faults h'.faults
  shared : h'.shared = σ.shared h.shared
  tripped : h'.tripped = h.tripped
  limit : h.limit = none
  limit' : h'.limit = none
  place : ∀ v, h'.place (σ.value v) = h.place v

variable {σ : Renaming}

namespace Heap.Renamed

variable {h h' : Heap} (hh : h.Renamed σ h')

include hh

/-! ### Readings -/

theorem table (r : Nat) : (h.table r).Renamed σ (h'.table (σ.table r)) := by
  unfold Heap.table
  cases ht : h.tables[r]? with
  | none =>
    rw [hh.tables.none ht]
    exact Table.renamed_empty 0 none
  | some t =>
    obtain ⟨t', ht', hrel⟩ := hh.tables.rel ht
    rw [ht']
    exact hrel

theorem closure (r : Nat) :
    (h'.closures[σ.closure r]?).getD default = σ.closed ((h.closures[r]?).getD default) := by
  cases hc : h.closures[r]? with
  | none =>
    rw [hh.closures.none hc]
    exact congrArg (Closure.mk default) Array.map_empty.symm
  | some c =>
    obtain ⟨c', hc', rfl⟩ := hh.closures.rel hc
    rw [hc']
    rfl

theorem cell (r : Nat) : h'.cell (σ.cell r) = σ.value (h.cell r) := by
  unfold Heap.cell
  cases hv : h.cells[r]? with
  | none => rw [hh.cells.none hv]; rfl
  | some v =>
    obtain ⟨v', hv', rfl⟩ := hh.cells.rel hv
    rw [hv']
    rfl

theorem search (r : Nat) : h'.searches[σ.search r]? = h.searches[r]? := by
  cases hs : h.searches[r]? with
  | none => exact hh.searches.none hs
  | some s =>
    obtain ⟨s', hs', rfl⟩ := hh.searches.rel hs
    exact hs'

theorem fault (r : Nat) : h'.faults[σ.fault r]? = h.faults[r]? := by
  cases hf : h.faults[r]? with
  | none => exact hh.faults.none hf
  | some f =>
    obtain ⟨f', hf', rfl⟩ := hh.faults.rel hf
    exact hf'

theorem overfull : h.overfull = false ∧ h'.overfull = false := by
  simp only [Heap.overfull, hh.limit, hh.limit', and_self]

theorem getKey (r : Nat) (k : Key) : h'.getKey (σ.table r) (σ.key k) = σ.value (h.getKey r k) := by
  rw [Heap.getKey_eq, Heap.getKey_eq]
  exact (hh.table r).get k

theorem getStr (r : Nat) (s : ByteArray) :
    h'.getKey (σ.table r) (.str s) = σ.value (h.getKey r (.str s)) := hh.getKey r (.str s)

theorem getName (r : Nat) (name : String) :
    h'.getName (σ.table r) name = σ.value (h.getName r name) := hh.getStr r _

theorem metatable? (v : Value) : h'.metatable? (σ.value v) = (h.metatable? v).map σ.table := by
  cases v with
  | table r =>
    rw [σ.value_table, Heap.metatable?_table, Heap.metatable?_table]
    exact (hh.table r).metatable
  | fault r => rfl
  | _ =>
    simp only [Renaming.value, Heap.metatable?, hh.shared]
    rfl

theorem metafield (v : Value) (event : ByteArray) :
    h'.metafield (σ.value v) event = σ.value (h.metafield v event) := by
  unfold Heap.metafield
  rw [hh.metatable?]
  cases h.metatable? v with
  | none => rfl
  | some m => exact hh.getStr m event

theorem typeName (v : Value) : h'.typeName (σ.value v) = h.typeName v := by
  cases v with
  | table r =>
    have hname := hh.metafield (.table r) Event.name
    rw [σ.value_table] at hname
    simp only [σ.value_table, Heap.typeName, hname]
    cases h.metafield (.table r) Event.name <;> rfl
  | _ => rfl

theorem backing? (r : Nat) : h'.backing? (σ.table r) = (h.backing? r).map σ.table := by
  unfold Heap.backing?
  rw [(hh.table r).metatable]
  cases (h.table r).metatable with
  | none => rfl
  | some m =>
    simp only [Option.map_some, hh.getStr]
    cases h.getKey m (.str viewMark) with
    | nil => rfl
    | bool b =>
      cases b with
      | false => rfl
      | true => cases h.getKey m (.str Event.index) <;> rfl
    | _ => cases h.getKey m (.str Event.index) <;> rfl

theorem readThrough (r : Nat) : h'.readThrough (σ.table r) = σ.table (h.readThrough r) := by
  unfold Heap.readThrough
  rw [hh.backing?]
  cases h.backing? r <;> rfl

/-! ### Writes -/

theorem newTable {t t' : Table} (ht : t.Renamed σ t') :
    (h.newTable t).1.Renamed σ (h'.newTable t').1 ∧
      (h'.newTable t').2 = σ.table (h.newTable t).2 :=
  ⟨{ hh with tables := hh.tables.push ht }, hh.tables.size.symm⟩

theorem newClosure (c : Closure) :
    (h.newClosure c).1.Renamed σ (h'.newClosure (σ.closed c)).1 ∧
      (h'.newClosure (σ.closed c)).2 = σ.closure (h.newClosure c).2 :=
  ⟨{ hh with closures := hh.closures.push rfl }, hh.closures.size.symm⟩

theorem newCell (v : Value) :
    (h.newCell v).1.Renamed σ (h'.newCell (σ.value v)).1 ∧
      (h'.newCell (σ.value v)).2 = σ.cell (h.newCell v).2 :=
  ⟨{ hh with cells := hh.cells.push rfl }, hh.cells.size.symm⟩

theorem newSearch (s : Search) :
    (h.newSearch s).1.Renamed σ (h'.newSearch s).1 ∧
      (h'.newSearch s).2 = σ.search (h.newSearch s).2 :=
  ⟨{ hh with searches := hh.searches.push rfl }, hh.searches.size.symm⟩

theorem newFault (f : HostFault) :
    (h.newFault f).1.Renamed σ (h'.newFault f).1 ∧
      (h'.newFault f).2 = σ.fault (h.newFault f).2 :=
  ⟨{ hh with faults := hh.faults.push rfl }, hh.faults.size.symm⟩

theorem setSearch (r : Nat) (s : Search) :
    Renamed σ { h with searches := h.searches.set! r s }
      { h' with searches := h'.searches.set! (σ.search r) s } :=
  { hh with searches := hh.searches.set σ.search_injective r rfl }

theorem setCell (r : Nat) (v : Value) :
    (h.setCell r v).Renamed σ (h'.setCell (σ.cell r) (σ.value v)) := by
  unfold Heap.setCell
  by_cases hr : r = 0
  · rw [if_pos hr, if_pos (by rw [hr, σ.cell_zero])]
    exact hh
  · rw [if_neg hr, if_neg fun h0 => hr (σ.cell_injective (h0.trans σ.cell_zero.symm))]
    exact { hh with cells := hh.cells.set σ.cell_injective r rfl }

/-- A table is changed in both; the bytes in use do not matter. -/
theorem modifyTable (r : Nat) {F G : Table → Table}
    (hFG : ∀ t t' : Table, t.Renamed σ t' → (F t).Renamed σ (G t')) (used used' : Nat) :
    Renamed σ { h with tables := h.tables.modify r F, used := used }
      { h' with tables := h'.tables.modify (σ.table r) G, used := used' } :=
  { hh with tables := hh.tables.modify σ.table_injective r fun t t' _ => hFG t t' }

theorem setKey (r : Nat) (k : Key) (v : Value) :
    (h.setKey r k v).Renamed σ (h'.setKey (σ.table r) (σ.key k) (σ.value v)) :=
  hh.modifyTable r (fun _ _ ht => ht.set k v) _ _

theorem setName (r : Nat) (name : String) (v : Value) :
    (h.setName r name v).Renamed σ (h'.setName (σ.table r) name (σ.value v)) :=
  hh.setKey r (.str name.toUTF8) v

theorem setMetatable (r : Nat) (m : Option Nat) :
    (h.setMetatable r m).Renamed σ (h'.setMetatable (σ.table r) (m.map σ.table)) :=
  hh.modifyTable r (fun _ _ ht => ht.withMetatable m) _ _

theorem countString (n : Nat) : (h.countString n).Renamed σ (h'.countString n) := { hh with }

theorem setTripped (b : Bool) : Renamed σ { h with tripped := b } { h' with tripped := b } :=
  { hh with tripped := rfl }

end Heap.Renamed

end StoryPack.Script
