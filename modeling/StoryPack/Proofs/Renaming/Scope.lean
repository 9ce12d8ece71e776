/-
Scopes whose references are renamed.

Scopes hold functions, and nothing else that is told apart by a reference.  What
a table holds is looked at in the same order in corresponding heaps, so the
snapshots of corresponding tables are the same but for references, and so are
the views that are made of them.

* `Renaming.scopeValue`, `Renaming.scope` — a scope with its references renamed;
* `Heap.Renamed.snapshot`, `Heap.Renamed.freeze` — snapshots, and their views.
-/
import StoryPack.Proofs.Renaming.Heap
import StoryPack.Proofs.Confinement.Extension
import StoryPack.Proofs.Scope.Snapshot

namespace StoryPack

open Script

namespace Script.Renaming

variable (σ : Renaming)

mutual

/-- A value of a scope with its references renamed. -/
def scopeValue : Scope.Value → Scope.Value
  | .boolean b => .boolean b
  | .integer i => .integer i
  | .number x => .number x
  | .text s => .text s
  | .table entries => .table (scopeEntries entries)
  | .function f => .function (σ.function f)

/-- Entries of a scope with their references renamed. -/
def scopeEntries : List (Scope.Key × Scope.Value) → List (Scope.Key × Scope.Value)
  | [] => []
  | (k, v) :: rest => (k, scopeValue v) :: scopeEntries rest

end

/-- A scope with its references renamed. -/
def scope (t : Scope.Table) : Scope.Table := ⟨σ.scopeEntries t.entries⟩

/-- The entry of a scope with its references renamed. -/
def scopeEntry (e : Scope.Key × Scope.Value) : Scope.Key × Scope.Value := (e.1, σ.scopeValue e.2)

theorem scopeEntries_eq_map (entries : List (Scope.Key × Scope.Value)) :
    σ.scopeEntries entries = entries.map σ.scopeEntry := by
  induction entries with
  | nil => rfl
  | cons e rest ih => exact congrArg (σ.scopeEntry e :: ·) ih

@[simp] theorem key_toScript (k : Scope.Key) : σ.key k.toScript = k.toScript := by cases k <;> rfl

@[simp] theorem hostTypeName_toValue (k : Key) :
    (σ.key k).toValue.hostTypeName = k.toValue.hostTypeName := by
  rw [← σ.value_toValue, σ.hostTypeName_value]

end Script.Renaming

namespace Script

variable {σ : Renaming}

/-! ### Snapshots -/

theorem Table.Renamed.snapshotOrder {t t' : Table} (ht : t.Renamed σ t') :
    Heap.snapshotOrder t' = (Heap.snapshotOrder t).map σ.entry := by
  unfold Heap.snapshotOrder
  dsimp only
  rw [ht.length, ht.entries, List.map_append]
  congr 1
  · rw [List.map_filterMap]
    congr 1
    funext i
    have hget := ht.get (.int (Int64.ofNat (i + 1)))
    rw [σ.key_int] at hget
    rw [hget, σ.isNil_value]
    split <;> rfl
  · rw [List.filter_map]
    refine congrArg (List.map σ.entry) (List.filter_congr fun e _ => ?_)
    obtain ⟨k, v⟩ := e
    cases k <;> rfl

theorem Heap.snapshotKey_key (path : String) (k : Key) :
    snapshotKey path (σ.key k) = snapshotKey path k := by
  have htype := σ.hostTypeName_toValue k
  cases k with
  | int i => rfl
  | str b => rfl
  | _ => exact congrArg (fun t => Except.error (SnapshotFault.key t path)) htype

/-- The results for each item of a list, in turn. -/
theorem mapM_map_eq {α β ε : Type} {f : α → α} {g : β → β} {F F' : α → Except ε β} (as : List α)
    (hF : ∀ a ∈ as, F' (f a) = (F a).map g) :
    (as.map f).mapM F' = (as.mapM F).map (List.map g) := by
  induction as with
  | nil => rfl
  | cons a as ih =>
    rw [List.map_cons, List.mapM_cons, List.mapM_cons, hF a List.mem_cons_self,
      ih fun b hb => hF b (List.mem_cons_of_mem _ hb)]
    cases F a with
    | error e => rfl
    | ok b => cases as.mapM F <;> rfl

namespace Heap

variable {h h' : Heap}

theorem snapshotEntry_entry {nested nested' : String → Nat → Except SnapshotFault
      (List (Scope.Key × Scope.Value))}
    (hnested : ∀ path r, nested' path (σ.table r) = (nested path r).map σ.scopeEntries)
    (path : String) (e : Key × Value) :
    snapshotEntry nested' path (σ.entry e) = (snapshotEntry nested path e).map σ.scopeEntry := by
  obtain ⟨k, v⟩ := e
  unfold snapshotEntry
  dsimp only [Renaming.entry]
  rw [snapshotKey_key]
  cases snapshotKey path k with
  | error f => rfl
  | ok k =>
    have htype := σ.hostTypeName_value v
    cases v with
    | str b =>
      show (snapshotText b >>= _) = Except.map _ (snapshotText b >>= _)
      cases snapshotText b <;> rfl
    | table c =>
      show (nested' (childPath path k) (σ.table c) >>= _) =
        Except.map _ (nested (childPath path k) c >>= _)
      rw [hnested]
      cases nested (childPath path k) c <;> rfl
    | _ => rfl

namespace Renamed

variable (hh : h.Renamed σ h')

include hh

theorem snapshotEntries (fuel : Nat) (visiting : List Nat) (path : String) (r : Nat) :
    Heap.snapshotEntries h' fuel (visiting.map σ.table) path (σ.table r) =
      (Heap.snapshotEntries h fuel visiting path r).map σ.scopeEntries := by
  induction fuel generalizing visiting path r with
  | zero => rfl
  | succ fuel ih =>
    have hcontains (r : Nat) :
        (visiting.map σ.table).contains (σ.table r) = visiting.contains r := by
      simp [σ.table_injective.eq_iff]
    rw [snapshotEntries_succ, snapshotEntries_succ, hh.readThrough, hcontains,
      (hh.table _).snapshotOrder]
    split
    · rfl
    · have hmap : σ.scopeEntries = List.map σ.scopeEntry := funext σ.scopeEntries_eq_map
      rw [hmap]
      refine mapM_map_eq _ fun e _ => snapshotEntry_entry (fun path c => ?_) path e
      exact ih (h.readThrough r :: visiting) path c

/-- The snapshot of a table. The heaps may have different numbers of tables. -/
theorem snapshot (r : Nat) : h'.snapshot (σ.table r) = (h.snapshot r).map σ.scope := by
  have hfuel : Heap.snapshotEntries h' (h'.tables.size + 2) [] "" (σ.table r) =
      (Heap.snapshotEntries h (h.tables.size + 2) [] "" r).map σ.scopeEntries := by
    have hmore (h : Heap) (more r : Nat) :
        Heap.snapshotEntries h (h.tables.size + 2 + more) [] "" r =
          Heap.snapshotEntries h (h.tables.size + 2) [] "" r :=
      snapshotEntries_of_le (by omega) more "" r
    rw [← hmore h h'.tables.size r, ← hmore h' h.tables.size (σ.table r),
      show h'.tables.size + 2 + h.tables.size = h.tables.size + 2 + h'.tables.size by omega]
    exact hh.snapshotEntries _ [] "" r
  unfold Heap.snapshot
  rw [hfuel]
  cases Heap.snapshotEntries h (h.tables.size + 2) [] "" r <;> rfl

/-! ### Views -/

theorem newView (b : Nat) :
    (h.newView b).1.Renamed σ (h'.newView (σ.table b)).1 ∧
      (h'.newView (σ.table b)).2 = σ.table (h.newView b).2 := by
  have hfold (es : List (ByteArray × Value)) (t t' : Table) (ht : t.Renamed σ t') :
      (es.foldl (fun t e => t.set (.str e.1) e.2) t).Renamed σ
        ((es.map fun e => (e.1, σ.value e.2)).foldl (fun t e => t.set (.str e.1) e.2) t') := by
    induction es generalizing t t' with
    | nil => exact ht
    | cons e es ih => exact ih _ _ (ht.set (.str e.1) e.2)
  have hmetatable : (viewMetatable b (.bool false)).Renamed σ
      (viewMetatable (σ.table b) (.bool false)) := by
    unfold viewMetatable
    exact hfold _ _ _ (Table.renamed_empty 0 none)
  obtain ⟨hheap, hm⟩ := hh.newTable hmetatable
  unfold Heap.newView
  dsimp only
  rw [hm]
  exact hheap.newTable (Table.renamed_empty 0 (some _))

end Renamed

mutual

theorem Renamed.freezeValue {h h' : Heap} (hh : h.Renamed σ h') (v : Scope.Value) :
    (Heap.freezeValue v h).1.Renamed σ (Heap.freezeValue (σ.scopeValue v) h').1 ∧
      (Heap.freezeValue (σ.scopeValue v) h').2 = σ.value (Heap.freezeValue v h).2 := by
  cases v with
  | table entries =>
    obtain ⟨hheap, hbacking⟩ := hh.newTable (Table.renamed_empty 0 none)
    have hentries := Renamed.freezeEntries hheap entries (h.newTable {}).2
    rw [← hbacking] at hentries
    obtain ⟨hview, hr⟩ := hentries.newView (h.newTable {}).2
    rw [← hbacking] at hview hr
    exact ⟨hview, congrArg Value.table hr⟩
  | text s => exact ⟨hh.countString _, rfl⟩
  | _ => exact ⟨hh, rfl⟩

theorem Renamed.freezeEntries {h h' : Heap} (hh : h.Renamed σ h')
    (entries : List (Scope.Key × Scope.Value)) (b : Nat) :
    (Heap.freezeEntries entries b h).Renamed σ
      (Heap.freezeEntries (σ.scopeEntries entries) (σ.table b) h') := by
  cases entries with
  | nil => exact hh
  | cons e rest =>
    obtain ⟨k, v⟩ := e
    obtain ⟨hheap, hv⟩ := Renamed.freezeValue hh v
    have hset := hheap.setKey b k.toScript (Heap.freezeValue v h).2
    rw [← hv, σ.key_toScript] at hset
    exact Renamed.freezeEntries hset rest b

end

/-- The view of a scope. -/
theorem Renamed.freeze (hh : h.Renamed σ h') (t : Scope.Table) :
    (h.freeze t).1.Renamed σ (h'.freeze (σ.scope t)).1 ∧
      (h'.freeze (σ.scope t)).2 = σ.table (h.freeze t).2 := by
  obtain ⟨hheap, hv⟩ := hh.freezeValue (.table t.entries)
  exact ⟨hheap, Value.table.inj hv⟩

end Heap

end Script

end StoryPack
