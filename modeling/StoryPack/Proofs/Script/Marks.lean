/-
What the collector finds.

A value reaches what it holds by itself, and what is held by a key that is
reached in a table whose keys are weak.  The collector marks exactly what its
roots reach: it looks at one value after another, and its fuel is enough, since
each object is entered only once.  So what vanishes is what nothing reaches.

* `Heap.Holds`, `Heap.Reaches` — what a value holds, and what roots reach;
* `Marks.Visit` — what looking at one value does;
* `Marks.Visit.within`, `Marks.Visit.covers`, `Marks.Visit.todo` — it marks only
  what is reached, leaves nothing out, and leaves less to be done;
* `Marks.reach_covers`, `Marks.complete_covers` — so does a search to its end;
* `Heap.isLive_marked_iff` — what the collector marks;
* `Heap.mem_dead_iff`, `Heap.loses_collected` — what vanishes, and what is left.
-/
import StoryPack.Proofs.Script.Collection
import StoryPack.Proofs.Script.Lookup
import Mathlib.Algebra.Order.BigOperators.Group.Finset

namespace StoryPack.Script

/-! ### What is reached -/

namespace Heap

/-- A reference to an object of the heap. -/
def isObject (h : Heap) : Value → Bool
  | .table r => r < h.tables.size
  | .function (.closure r) => r < h.closures.size
  | .function (.matcher r) => r < h.searches.size
  | .fault r => r < h.faults.size
  | _ => false

/-- What a value holds by itself. -/
inductive Holds (h : Heap) : Value → Value → Prop
  | key {r : Nat} {e : Key × Value} (he : e ∈ (h.table r).entries)
      (hstrong : (h.weakness (h.table r)).keys = true → Weakness.isText e.1.toValue = true) :
    Holds h (.table r) e.1.toValue
  | value {r : Nat} {e : Key × Value} (he : e ∈ (h.table r).entries)
      (hstrong : ((h.weakness (h.table r)).keys || (h.weakness (h.table r)).values) = true →
        Weakness.isText e.2 = true) :
    Holds h (.table r) e.2
  | metatable {r m : Nat} (hm : (h.table r).metatable = some m) : Holds h (.table r) (.table m)
  | captured {r u : Nat} (hu : u ∈ ((h.closures[r]?).getD default).upvalues) :
    Holds h (.function (.closure r)) (h.cell u)
  | subject (r : Nat) :
    Holds h (.function (.matcher r)) (.str ((h.searches[r]?).getD default).subject)
  | pattern (r : Nat) :
    Holds h (.function (.matcher r)) (.str ((h.searches[r]?).getD default).pattern)

/-- What some values reach. Where the keys are weak, a key that is reached holds its value. -/
inductive Reaches (h : Heap) (roots : List Value) : Value → Prop
  | root {v : Value} (hv : v ∈ roots) : Reaches h roots v
  | hold {v w : Value} (hv : Reaches h roots v) (hw : h.Holds v w) : Reaches h roots w
  | late {r : Nat} {e : Key × Value} (hr : Reaches h roots (.table r)) (hobject : r < h.tables.size)
      (hweak : h.weakness (h.table r) = { keys := true }) (he : e ∈ (h.table r).entries)
      (hk : h.isObject e.1.toValue = true → Reaches h roots e.1.toValue) : Reaches h roots e.2

end Heap

theorem Weakness.mem_hold_iff {w : Weakness} {e : Key × Value} {found : List Value} {v : Value} :
    v ∈ w.hold e found ↔
      (v = e.1.toValue ∧ (w.keys = true → isText e.1.toValue = true)) ∨
        (v = e.2 ∧ ((w.keys || w.values) = true → isText e.2 = true)) ∨ v ∈ found := by
  unfold hold
  cases w.keys <;> cases w.values <;> cases isText e.1.toValue <;> cases isText e.2 <;>
    simp [or_left_comm]

theorem Weakness.mem_hold_append {w : Weakness} {e : Key × Value} {found : List Value} {v : Value} :
    v ∈ w.hold e found ↔ v ∈ w.hold e [] ∨ v ∈ found := by
  rw [mem_hold_iff, mem_hold_iff, or_assoc, or_assoc]
  simp

namespace Marks

variable {h : Heap} {m m' : Marks} {v w : Value}

/-- The marks are those of a heap. -/
structure Fits (h : Heap) (m : Marks) : Prop where
  tables : m.tables.size = h.tables.size
  closures : m.closures.size = h.closures.size
  cells : m.cells.size = h.cells.size
  searches : m.searches.size = h.searches.size
  faults : m.faults.size = h.faults.size

/-- A value has been reached, or it is still to be looked at. -/
def Met (m : Marks) (v : Value) : Prop := m.isLive v = true ∨ v ∈ m.pending

/-- The values of the cells that have been reached have been met. -/
def Cells (h : Heap) (m : Marks) : Prop := ∀ c, m.cells.getD c true = true → m.Met (h.cell c)

/-- The values of the cells that have been reached have been met, or are looked at now. -/
def CellsBut (h : Heap) (m : Marks) (v : Value) : Prop :=
  ∀ c, m.cells.getD c true = true → m.Met (h.cell c) ∨ h.cell c = v

theorem getD_set (a : Array Bool) (r i : Nat) :
    (a.set! r true).getD i true = (decide (i = r) || a.getD i true) := by
  simp only [Array.getD_eq_getD_getElem?, Array.set!_eq_setIfInBounds, Array.getElem?_setIfInBounds]
  by_cases hr : r = i
  · subst hr
    by_cases hlt : r < a.size <;> simp [hlt]
  · simp [hr, Ne.symm hr]

theorem lt_of_getD {a : Array Bool} {r : Nat} (hr : ¬a.getD r true = true) : r < a.size := by
  refine Nat.lt_of_not_le fun hle => hr ?_
  rw [Array.getD_eq_getD_getElem?, Array.getElem?_eq_none hle]
  rfl

/-! ### How much is left -/

/-- What the objects cost that have not been reached. -/
def left (a : Array Bool) (cost : Nat → Nat) : Nat :=
  ∑ i ∈ Finset.range a.size, if a.getD i true then 0 else cost i

theorem left_set {a : Array Bool} {r : Nat} (hr : ¬a.getD r true = true) (cost : Nat → Nat) :
    left (a.set! r true) cost + cost r = left a cost := by
  have hmem : r ∈ Finset.range a.size := Finset.mem_range.mpr (lt_of_getD hr)
  unfold left
  rw [Array.set!_eq_setIfInBounds, Array.size_setIfInBounds, ← Array.set!_eq_setIfInBounds,
    ← Finset.sum_erase_add _ _ hmem, ← Finset.sum_erase_add (Finset.range a.size) _ hmem]
  rw [getD_set, decide_eq_true rfl, Bool.true_or, if_pos rfl, if_neg hr, Nat.add_zero]
  refine congrArg (· + cost r) (Finset.sum_congr rfl fun i hi => ?_)
  rw [getD_set, decide_eq_false (Finset.ne_of_mem_erase hi), Bool.false_or]

theorem left_replicate (n : Nat) (cost : Nat → Nat) :
    left (Array.replicate n false) cost = ∑ i ∈ Finset.range n, cost i := by
  unfold left
  rw [Array.size_replicate]
  refine Finset.sum_congr rfl fun i hi => if_neg ?_
  rw [Array.getD_eq_getD_getElem?, Array.getElem?_replicate, if_pos (Finset.mem_range.mp hi)]
  exact Bool.false_ne_true

/-- How many values a table holds at most. -/
def cost (h : Heap) (r : Nat) : Nat :=
  2 * (h.table r).array.size + 2 * (h.table r).slots.size + 1

/-- How many values there are at most that are still to be looked at. -/
def todo (h : Heap) (m : Marks) : Nat :=
  left m.tables (cost h) + left m.cells (fun _ => 1) + left m.searches (fun _ => 2) +
    m.pending.length

/-- How many objects have not been reached. -/
def unmet (m : Marks) : Nat :=
  left m.tables (fun _ => 1) + left m.closures (fun _ => 1) + left m.searches (fun _ => 1) +
    left m.faults (fun _ => 1)

/-! ### Looking at one value -/

/-- What is done when a value is looked at. -/
structure Visit (h : Heap) (m : Marks) (v : Value) (m' : Marks) : Prop where
  fits : m.Fits h → m'.Fits h
  live : ∀ w, m'.isLive w = true ↔ m.isLive w = true ∨ w = v
  found : ∀ w ∈ m'.pending, w ∈ m.pending ∨ h.Holds v w
  pending : ∀ w ∈ m.pending, w ∈ m'.pending
  holds : m.CellsBut h v → ¬m.isLive v = true → ∀ w, h.Holds v w → m'.Met w
  cells : m.CellsBut h v → m'.Cells h
  weak : ∀ r, r ∈ m'.weak ↔
    r ∈ m.weak ∨ v = .table r ∧ ¬m.isLive v = true ∧ h.weakness (h.table r) ≠ {}
  todo : m'.todo h ≤ m.todo h
  unmet : m'.unmet ≤ m.unmet
  fewer : ¬m.isLive v = true → m'.unmet < m.unmet

/-- Strings, and all that has been reached, only count. -/
theorem visit_reached (hv : m.isLive v = true) (strings : Std.HashSet ByteArray) (bytes : Nat) :
    Visit h m v { m with strings := strings, bytes := bytes } where
  fits hm := ⟨hm.tables, hm.closures, hm.cells, hm.searches, hm.faults⟩
  live _ := ⟨.inl, fun hw => hw.elim id fun hw => hw ▸ hv⟩
  found _ hw := .inl hw
  pending _ hw := hw
  holds _ hne := absurd hv hne
  cells hm c hc := (hm c hc).elim id fun heq => .inl (heq ▸ hv)
  weak _ := ⟨.inl, fun hr => hr.elim id fun hr => absurd hv hr.2.1⟩
  todo := Nat.le_refl _
  unmet := Nat.le_refl _
  fewer hne := absurd hv hne

/-! Tables -/

theorem mem_foldl_hold {w : Weakness} {es : List (Key × Value)} {found : List Value} :
    v ∈ es.foldl (fun found e => w.hold e found) found ↔
      v ∈ found ∨ ∃ e ∈ es, v ∈ w.hold e [] := by
  induction es generalizing found with
  | nil => simp
  | cons e es ih =>
    rw [List.foldl_cons, ih, List.exists_mem_cons_iff, Weakness.mem_hold_append, or_assoc,
      or_left_comm]

theorem length_foldl_hold (w : Weakness) (es : List (Key × Value)) (found : List Value) :
    (es.foldl (fun found e => w.hold e found) found).length ≤ found.length + 2 * es.length := by
  induction es generalizing found with
  | nil => exact Nat.le_refl _
  | cons e es ih =>
    have hone : (w.hold e found).length ≤ found.length + 2 := by
      unfold Weakness.hold
      dsimp only
      split <;> split <;> simp
    have hrest := ih (w.hold e found)
    rw [List.foldl_cons, List.length_cons]
    omega

theorem length_entries (t : Table) : t.entries.length ≤ t.array.size + t.slots.size := by
  unfold Table.entries
  rw [List.length_append]
  refine Nat.add_le_add ?_ ?_
  · exact Nat.le_trans (List.length_filterMap_le ..) (Nat.le_of_eq List.length_range)
  · exact List.length_filter_le ..

/-- What is still to be looked at when a table has been entered. -/
theorem pending_table {r : Nat} (hr : ¬m.tables.getD r true = true) :
    (∀ w, w ∈ (m.table h r).pending ↔ w ∈ m.pending ∨ h.Holds (.table r) w) ∧
      (m.table h r).pending.length ≤ m.pending.length + cost h r := by
  have hlength := length_foldl_hold (h.weakness (h.table r)) (h.table r).entries m.pending
  have hentries := length_entries (h.table r)
  have hheld {w : Value} :
      (∃ e ∈ (h.table r).entries, w ∈ (h.weakness (h.table r)).hold e []) ∨
        (∃ k, (h.table r).metatable = some k ∧ w = .table k) ↔ h.Holds (.table r) w := by
    constructor
    · rintro (⟨e, he, hw⟩ | ⟨k, hk, rfl⟩)
      · obtain ⟨rfl, hstrong⟩ | ⟨rfl, hstrong⟩ | hw := Weakness.mem_hold_iff.mp hw
        · exact .key he hstrong
        · exact .value he hstrong
        · cases hw
      · exact .metatable hk
    · intro hw
      cases hw with
      | key he hstrong => exact .inl ⟨_, he, Weakness.mem_hold_iff.mpr (.inl ⟨rfl, hstrong⟩)⟩
      | value he hstrong =>
        exact .inl ⟨_, he, Weakness.mem_hold_iff.mpr (.inr (.inl ⟨rfl, hstrong⟩))⟩
      | metatable hm => exact .inr ⟨_, hm, rfl⟩
  unfold Marks.table cost
  rw [if_neg hr]
  dsimp only
  cases hm : (h.table r).metatable with
  | none =>
    refine ⟨fun w => ?_, by dsimp only; omega⟩
    rw [mem_foldl_hold, ← hheld]
    simp [hm]
  | some k =>
    refine ⟨fun w => ?_, by rw [List.length_cons]; omega⟩
    rw [List.mem_cons, mem_foldl_hold, ← hheld]
    simp only [hm, Option.some.injEq, exists_eq_left']
    rw [or_left_comm, or_comm (a := w = .table k)]

theorem isLive_table (m : Marks) (r : Nat) : m.isLive (.table r) = m.tables.getD r true := rfl

/-- What has been met, or is looked at, has been met afterwards. -/
theorem Met.of_visit (hlive : ∀ w, m'.isLive w = true ↔ m.isLive w = true ∨ w = v)
    (hpending : ∀ w ∈ m.pending, w ∈ m'.pending) (hw : m.Met w ∨ w = v) : m'.Met w := by
  obtain (hw | hw) | hw := hw
  · exact .inl ((hlive w).mpr (.inl hw))
  · exact .inr (hpending w hw)
  · exact .inl ((hlive w).mpr (.inr hw))

theorem visit_table {r : Nat} (hr : ¬m.tables.getD r true = true) :
    Visit h m (.table r) (m.table h r) := by
  obtain ⟨hmem, hlength⟩ := pending_table (h := h) hr
  have htables : (m.table h r).tables = m.tables.set! r true := by
    unfold Marks.table
    rw [if_neg hr]
  have hsame : (m.table h r).closures = m.closures ∧ (m.table h r).cells = m.cells ∧
      (m.table h r).searches = m.searches ∧ (m.table h r).faults = m.faults := by
    unfold Marks.table
    rw [if_neg hr]
    exact ⟨rfl, rfl, rfl, rfl⟩
  have hweak : (m.table h r).weak =
      if h.weakness (h.table r) = {} then m.weak else r :: m.weak := by
    unfold Marks.table
    rw [if_neg hr]
  obtain ⟨hclosures, hcells, hsearches, hfaults⟩ := hsame
  have hlive (w : Value) :
      (m.table h r).isLive w = true ↔ m.isLive w = true ∨ w = .table r := by
    cases w with
    | table k =>
      rw [isLive_table, isLive_table, htables, getD_set, Bool.or_eq_true, decide_eq_true_iff,
        Value.table.injEq, or_comm]
    | function f => cases f <;> simp [isLive, hclosures, hsearches]
    | fault k => simp [isLive, hfaults]
    | _ => simp [isLive]
  have hleft := left_set hr (cost h)
  have hone := left_set hr fun _ => 1
  refine ⟨fun hm => ?_, hlive, fun w => (hmem w).mp, fun w hw => (hmem w).mpr (.inl hw),
    fun _ _ w hw => .inr ((hmem w).mpr (.inr hw)), fun hm c hc => ?_, fun k => ?_, ?_, ?_,
    fun _ => ?_⟩
  · refine ⟨?_, hclosures ▸ hm.closures, hcells ▸ hm.cells, hsearches ▸ hm.searches,
      hfaults ▸ hm.faults⟩
    rw [htables, Array.set!_eq_setIfInBounds, Array.size_setIfInBounds, hm.tables]
  · exact .of_visit hlive (fun w hw => (hmem w).mpr (.inl hw)) (hm c (hcells ▸ hc))
  · rw [hweak]
    split
    · simp only [isLive_table]
      constructor
      · exact .inl
      · rintro (hk | ⟨hk, -, hne⟩)
        · exact hk
        · cases hk
          exact absurd ‹_› hne
    · rw [List.mem_cons, isLive_table]
      constructor
      · rintro (rfl | hk)
        · exact .inr ⟨rfl, hr, ‹_›⟩
        · exact .inl hk
      · rintro (hk | ⟨hk, -⟩)
        · exact .inr hk
        · cases hk
          exact .inl rfl
  · unfold Marks.todo
    rw [htables, hcells, hsearches]
    omega
  · unfold Marks.unmet
    rw [htables, hclosures, hsearches, hfaults]
    omega
  · unfold Marks.unmet
    rw [htables, hclosures, hsearches, hfaults]
    omega

/-! Functions -/

/-- What is done when the cells are entered that a function has captured. -/
structure Opens (h : Heap) (m : Marks) (us : List Nat) (m' : Marks) : Prop where
  tables : m'.tables = m.tables
  closures : m'.closures = m.closures
  searches : m'.searches = m.searches
  faults : m'.faults = m.faults
  weak : m'.weak = m.weak
  size : m'.cells.size = m.cells.size
  found : ∀ w ∈ m'.pending, w ∈ m.pending ∨ ∃ u ∈ us, w = h.cell u
  pending : ∀ w ∈ m.pending, w ∈ m'.pending
  kept : ∀ u, m.cells.getD u true = true → m'.cells.getD u true = true
  reached : ∀ u ∈ us, m'.cells.getD u true = true
  cells : m.Cells h → m'.Cells h
  todo : m'.todo h = m.todo h

theorem opens_cell (m : Marks) (u : Nat) : m.Opens h [u] (m.cell h u) := by
  unfold Marks.cell
  split
  · rename_i hu
    refine ⟨rfl, rfl, rfl, rfl, rfl, rfl, fun w hw => .inl hw, fun w hw => hw, fun u hu => hu, ?_,
      id, rfl⟩
    rintro w hw
    cases List.mem_singleton.mp hw
    exact hu
  · rename_i hu
    refine ⟨rfl, rfl, rfl, rfl, rfl, Array.size_setIfInBounds .., fun w hw => ?_, fun w hw => ?_,
      fun k hk => ?_, fun k hk => ?_, fun hm k hk => ?_, ?_⟩
    · rcases List.mem_cons.mp hw with rfl | hw
      · exact .inr ⟨u, List.mem_singleton_self u, rfl⟩
      · exact .inl hw
    · exact List.mem_cons_of_mem _ hw
    · rw [getD_set, hk, Bool.or_true]
    · rw [getD_set, decide_eq_true (List.mem_singleton.mp hk), Bool.true_or]
    · rw [getD_set, Bool.or_eq_true, decide_eq_true_iff] at hk
      rcases hk with rfl | hk
      · exact .inr List.mem_cons_self
      · exact (hm k hk).imp id fun hw => List.mem_cons_of_mem _ hw
    · have hleft := left_set hu fun _ => 1
      simp only [Marks.todo, List.length_cons]
      omega

theorem Opens.append {us vs : List Nat} {m₁ : Marks} (hm : m.Opens h us m₁)
    (hm' : m₁.Opens h vs m') : m.Opens h (us ++ vs) m' where
  tables := hm'.tables.trans hm.tables
  closures := hm'.closures.trans hm.closures
  searches := hm'.searches.trans hm.searches
  faults := hm'.faults.trans hm.faults
  weak := hm'.weak.trans hm.weak
  size := hm'.size.trans hm.size
  found w hw := by
    obtain hw | ⟨u, hu, rfl⟩ := hm'.found w hw
    · exact (hm.found w hw).imp id fun ⟨u, hu, heq⟩ => ⟨u, List.mem_append_left _ hu, heq⟩
    · exact .inr ⟨u, List.mem_append_right _ hu, rfl⟩
  pending w hw := hm'.pending w (hm.pending w hw)
  kept u hu := hm'.kept u (hm.kept u hu)
  reached u hu := (List.mem_append.mp hu).elim (fun hu => hm'.kept u (hm.reached u hu))
    (hm'.reached u)
  cells hcells := hm'.cells (hm.cells hcells)
  todo := hm'.todo.trans hm.todo

theorem opens_cells (m : Marks) (us : List Nat) : m.Opens h us (us.foldl (cell h) m) := by
  induction us generalizing m with
  | nil =>
    exact ⟨rfl, rfl, rfl, rfl, rfl, rfl, fun w hw => .inl hw, fun w hw => hw, fun u hu => hu, nofun,
      id, rfl⟩
  | cons u us ih => exact (opens_cell m u).append (ih (m.cell h u))

theorem visit_closure {r : Nat} (hr : ¬m.closures.getD r true = true) :
    Visit h m (.function (.closure r)) (m.closure h r) := by
  let us := ((h.closures[r]?).getD default).upvalues
  let entered : Marks :=
    { m with closures := m.closures.set! r true, bytes := m.bytes + 40 + 8 * us.size }
  have heq : m.closure h r = us.toList.foldl (cell h) entered := by
    unfold Marks.closure
    rw [if_neg hr, ← Array.foldl_toList]
  have hopens := opens_cells (h := h) entered us.toList
  rw [← heq] at hopens
  have hlive (w : Value) :
      (m.closure h r).isLive w = true ↔ m.isLive w = true ∨ w = .function (.closure r) := by
    cases w with
    | table k => simp [isLive, hopens.tables, entered]
    | function f =>
      cases f with
      | closure k =>
        show (m.closure h r).closures.getD k true = true ↔ m.closures.getD k true = true ∨ _
        rw [hopens.closures, getD_set, Bool.or_eq_true, decide_eq_true_iff, Value.function.injEq,
          Function.closure.injEq, or_comm]
      | matcher k => simp [isLive, hopens.searches, entered]
      | builtin f => simp [isLive]
    | fault k => simp [isLive, hopens.faults, entered]
    | _ => simp [isLive]
  have hself : entered.isLive (.function (.closure r)) = true := by
    show (m.closures.set! r true).getD r true = true
    rw [getD_set, decide_eq_true rfl, Bool.true_or]
  have hentered (w : Value) (hw : m.isLive w = true) : entered.isLive w = true := by
    cases w with
    | function f =>
      cases f with
      | closure k =>
        show (m.closures.set! r true).getD k true = true
        rw [getD_set, show m.closures.getD k true = true from hw, Bool.or_true]
      | _ => exact hw
    | _ => exact hw
  have hcells (hm : m.CellsBut h (.function (.closure r))) : (m.closure h r).Cells h :=
    hopens.cells fun c hc => (hm c hc).elim (Or.imp (hentered _) id) fun heq => .inl (heq ▸ hself)
  have hone := left_set hr fun _ => 1
  have hunmet : (m.closure h r).unmet + 1 = m.unmet := by
    unfold Marks.unmet
    rw [hopens.tables, hopens.closures, hopens.searches, hopens.faults]
    simp only [entered]
    omega
  refine ⟨fun hm => ?_, hlive, fun w hw => ?_, fun w hw => hopens.pending w hw, fun hm _ w hw => ?_,
    hcells, fun k => ?_, hopens.todo ▸ Nat.le_refl _, by omega, fun _ => by omega⟩
  · refine ⟨hopens.tables ▸ hm.tables, ?_, hopens.size.trans hm.cells,
      hopens.searches ▸ hm.searches,
      hopens.faults ▸ hm.faults⟩
    rw [hopens.closures]
    exact (Array.size_setIfInBounds ..).trans hm.closures
  · obtain hw | ⟨u, hu, rfl⟩ := hopens.found w hw
    · exact .inl hw
    · exact .inr (.captured (Array.mem_toList_iff.mp hu))
  · cases hw with
    | captured hu => exact hcells hm _ (hopens.reached _ (Array.mem_toList_iff.mpr hu))
  · rw [hopens.weak]
    exact ⟨.inl, fun hk => hk.elim id fun hk => by cases hk.1⟩

/-! Searches and error objects -/

theorem visit_search {r : Nat} (hr : ¬m.searches.getD r true = true) :
    Visit h m (.function (.matcher r)) (m.search h r) := by
  let s := (h.searches[r]?).getD default
  have heq : m.search h r = { m with
      searches := m.searches.set! r true, bytes := m.bytes + 100
      pending := .str s.subject :: .str s.pattern :: m.pending } := by
    unfold Marks.search
    rw [if_neg hr]
  have hlive (w : Value) :
      (m.search h r).isLive w = true ↔ m.isLive w = true ∨ w = .function (.matcher r) := by
    rw [heq]
    cases w with
    | function f =>
      cases f with
      | matcher k =>
        show (m.searches.set! r true).getD k true = true ↔ m.searches.getD k true = true ∨ _
        rw [getD_set, Bool.or_eq_true, decide_eq_true_iff, Value.function.injEq,
          Function.matcher.injEq, or_comm]
      | _ => simp [isLive]
    | _ => simp [isLive]
  have hpending (w : Value) (hw : w ∈ m.pending) : w ∈ (m.search h r).pending := by
    rw [heq]
    exact List.mem_cons_of_mem _ (List.mem_cons_of_mem _ hw)
  have htwo := left_set hr fun _ => 2
  have hone := left_set hr fun _ => 1
  have hunmet : (m.search h r).unmet + 1 = m.unmet := by
    rw [heq]
    simp only [Marks.unmet]
    omega
  refine ⟨fun hm => ?_, hlive, fun w hw => ?_, hpending, fun _ _ w hw => ?_, fun hm c hc => ?_,
    fun k => ?_, ?_, by omega, fun _ => by omega⟩
  · rw [heq]
    exact ⟨hm.tables, hm.closures, hm.cells, (Array.size_setIfInBounds ..).trans hm.searches,
      hm.faults⟩
  · rw [heq] at hw
    rcases List.mem_cons.mp hw with rfl | hw
    · exact .inr (.subject r)
    · rcases List.mem_cons.mp hw with rfl | hw
      · exact .inr (.pattern r)
      · exact .inl hw
  · cases hw <;> exact .inl rfl
  · rw [heq] at hc
    exact .of_visit hlive hpending (hm c hc)
  · rw [heq]
    exact ⟨.inl, fun hk => hk.elim id fun hk => by cases hk.1⟩
  · rw [heq]
    simp only [Marks.todo, List.length_cons]
    omega

theorem visit_fault {r : Nat} (hr : ¬m.faults.getD r true = true) :
    Visit h m (.fault r) (m.fault r) := by
  have heq : m.fault r =
      { m with faults := m.faults.set! r true, bytes := m.bytes + 100 } := by
    unfold Marks.fault
    rw [if_neg hr]
  have hlive (w : Value) : (m.fault r).isLive w = true ↔ m.isLive w = true ∨ w = .fault r := by
    rw [heq]
    cases w with
    | fault k =>
      show (m.faults.set! r true).getD k true = true ↔ m.faults.getD k true = true ∨ _
      rw [getD_set, Bool.or_eq_true, decide_eq_true_iff, Value.fault.injEq, or_comm]
    | function f => cases f <;> simp [isLive]
    | _ => simp [isLive]
  have hpending (w : Value) (hw : w ∈ m.pending) : w ∈ (m.fault r).pending := heq ▸ hw
  have hone := left_set hr fun _ => 1
  have hunmet : (m.fault r).unmet + 1 = m.unmet := by
    rw [heq]
    simp only [Marks.unmet]
    omega
  refine ⟨fun hm => ?_, hlive, fun w hw => .inl ?_, hpending, fun _ _ _ => nofun,
    fun hm c hc => ?_, fun k => ?_, ?_, by omega, fun _ => by omega⟩
  · rw [heq]
    exact ⟨hm.tables, hm.closures, hm.cells, hm.searches,
      (Array.size_setIfInBounds ..).trans hm.faults⟩
  · rwa [heq] at hw
  · rw [heq] at hc
    exact .of_visit hlive hpending (hm c hc)
  · rw [heq]
    exact ⟨.inl, fun hk => hk.elim id fun hk => by cases hk.1⟩
  · rw [heq]
    exact Nat.le_refl _

/-- Each value is looked at so. -/
theorem visit_value (h : Heap) (m : Marks) (v : Value) : m.Visit h v (m.value h v) := by
  have hidle (hv : m.isLive v = true) : m.Visit h v m := visit_reached hv m.strings m.bytes
  cases v with
  | str b =>
    unfold Marks.value
    dsimp only
    split
    · exact hidle rfl
    · exact visit_reached (v := .str b) rfl _ _
  | table r =>
    by_cases hr : m.tables.getD r true = true
    · have heq : m.value h (.table r) = m := if_pos hr
      rw [heq]
      exact hidle hr
    · exact visit_table hr
  | function f =>
    cases f with
    | closure r =>
      by_cases hr : m.closures.getD r true = true
      · have heq : m.value h (.function (.closure r)) = m := if_pos hr
        rw [heq]
        exact hidle hr
      · exact visit_closure hr
    | matcher r =>
      by_cases hr : m.searches.getD r true = true
      · have heq : m.value h (.function (.matcher r)) = m := if_pos hr
        rw [heq]
        exact hidle hr
      · exact visit_search hr
    | builtin f => exact hidle rfl
  | fault r =>
    by_cases hr : m.faults.getD r true = true
    · have heq : m.value h (.fault r) = m := if_pos hr
      rw [heq]
      exact hidle hr
    · exact visit_fault hr
  | _ => exact hidle rfl

/-! ### Looking at all of them -/

variable {roots : List Value}

/-- Marks on the way: only what some roots reach has been reached or is to be looked at, and all
that has been reached has been entered. -/
structure Explores (h : Heap) (roots : List Value) (m : Marks) : Prop where
  fits : m.Fits h
  cells : m.Cells h
  holds : ∀ v, h.isObject v = true → m.isLive v = true → ∀ w, h.Holds v w → m.Met w
  weak : ∀ r, r ∈ m.weak ↔ r < h.tables.size ∧ m.isLive (.table r) = true ∧
    h.weakness (h.table r) ≠ {}
  met : ∀ v ∈ roots, m.Met v
  live : ∀ v, h.isObject v = true → m.isLive v = true → h.Reaches roots v
  pending : ∀ v ∈ m.pending, h.Reaches roots v

theorem isObject_of_not_live (hm : m.Fits h) (hv : ¬m.isLive v = true) : h.isObject v = true := by
  cases v with
  | table r => exact decide_eq_true (hm.tables ▸ lt_of_getD hv)
  | function f =>
    cases f with
    | closure r => exact decide_eq_true (hm.closures ▸ lt_of_getD hv)
    | matcher r => exact decide_eq_true (hm.searches ▸ lt_of_getD hv)
    | builtin f => exact absurd rfl hv
  | fault r => exact decide_eq_true (hm.faults ▸ lt_of_getD hv)
  | _ => exact absurd rfl hv

/-- One value is looked at. -/
theorem Explores.visit {rest : List Value} (hm : m.Explores h roots)
    (hpending : m.pending = v :: rest) (hvisit : Visit h { m with pending := rest } v m') :
    m'.Explores h roots := by
  have hv : h.Reaches roots v := hm.pending v (hpending ▸ List.mem_cons_self)
  have hbut {w : Value} (hw : m.Met w) : Met { m with pending := rest } w ∨ w = v := by
    obtain hw | hw := hw
    · exact .inl (.inl hw)
    · rw [hpending] at hw
      exact (List.mem_cons.mp hw).symm.imp .inr id
  have hmet {w : Value} (hw : m.Met w) : m'.Met w := .of_visit hvisit.live hvisit.pending (hbut hw)
  have hcells : CellsBut h { m with pending := rest } v := fun c hc => hbut (hm.cells c hc)
  refine ⟨hvisit.fits ⟨hm.fits.tables, hm.fits.closures, hm.fits.cells, hm.fits.searches,
    hm.fits.faults⟩, hvisit.cells hcells, fun w hobject hw u hu => ?_, fun r => ?_,
    fun w hw => hmet (hm.met w hw), fun w hobject hw => ?_, fun w hw => ?_⟩
  · obtain hw | rfl := (hvisit.live w).mp hw
    · exact hmet (hm.holds w hobject hw u hu)
    · by_cases hlive : m.isLive w = true
      · exact hmet (hm.holds w hobject hlive u hu)
      · exact hvisit.holds hcells hlive u hu
  · rw [hvisit.weak, hvisit.live]
    constructor
    · rintro (hr | ⟨rfl, hlive, hweak⟩)
      · obtain ⟨hlt, hlive, hweak⟩ := (hm.weak r).mp hr
        exact ⟨hlt, .inl hlive, hweak⟩
      · have hobject : h.isObject (.table r) = true := isObject_of_not_live hm.fits hlive
        exact ⟨of_decide_eq_true hobject, .inr rfl, hweak⟩
    · rintro ⟨hlt, hr, hweak⟩
      by_cases hlive : m.isLive (.table r) = true
      · exact .inl ((hm.weak r).mpr ⟨hlt, hlive, hweak⟩)
      · exact .inr ⟨(hr.resolve_left hlive).symm, fun hne => hlive (hr.resolve_left hlive ▸ hne),
          hweak⟩
  · obtain hw | rfl := (hvisit.live w).mp hw
    · exact hm.live w hobject hw
    · exact hv
  · obtain hw | hw := hvisit.found w hw
    · exact hm.pending w (hpending ▸ List.mem_cons_of_mem _ hw)
    · exact .hold hv hw

/-- A search ends with nothing left to be looked at, when its fuel is enough. -/
theorem Explores.reach (hm : m.Explores h roots) {fuel : Nat} (hfuel : m.todo h ≤ fuel) :
    (m.reach h fuel).Explores h roots ∧ (m.reach h fuel).pending = [] ∧
      (m.reach h fuel).unmet ≤ m.unmet ∧
      ((∃ w ∈ m.pending, ¬m.isLive w = true) → (m.reach h fuel).unmet < m.unmet) := by
  induction fuel generalizing m with
  | zero =>
    have hnil : m.pending = [] := by
      unfold Marks.todo at hfuel
      exact List.eq_nil_of_length_eq_zero (by omega)
    refine ⟨hm, hnil, Nat.le_refl _, ?_⟩
    rintro ⟨w, hw, -⟩
    rw [hnil] at hw
    cases hw
  | succ fuel ih =>
    unfold Marks.reach
    split
    · rename_i hnil
      refine ⟨hm, hnil, Nat.le_refl _, ?_⟩
      rintro ⟨w, hw, -⟩
      rw [hnil] at hw
      cases hw
    · rename_i v rest hpending
      have hvisit := visit_value h { m with pending := rest } v
      have htodo : ({ m with pending := rest } : Marks).todo h + 1 = m.todo h := by
        simp only [Marks.todo, hpending, List.length_cons, Nat.add_assoc]
      have hnext := hvisit.todo
      obtain ⟨hexplores, hnil, hunmet, hfewer⟩ := ih (hm.visit hpending hvisit) (by omega)
      refine ⟨hexplores, hnil, Nat.le_trans hunmet hvisit.unmet, ?_⟩
      rintro ⟨w, hw, hlive⟩
      by_cases hv : m.isLive v = true
      · -- then it is another one that is not reached yet
        refine Nat.lt_of_lt_of_le (hfewer ⟨w, ?_, fun hw => ?_⟩) hvisit.unmet
        · rw [hpending] at hw
          refine hvisit.pending w ((List.mem_cons.mp hw).resolve_left ?_)
          rintro rfl
          exact hlive hv
        · obtain hw | rfl := (hvisit.live w).mp hw
          · exact hlive hw
          · exact hlive hv
      · exact Nat.lt_of_le_of_lt hunmet (hvisit.fewer hv)

/-- What is held by keys that have been reached is reached. -/
theorem Explores.late (hm : m.Explores h roots) (hv : v ∈ m.late h) :
    h.Reaches roots v ∧ ¬m.isLive v = true := by
  obtain ⟨r, hr, hv⟩ := List.mem_flatMap.mp hv
  obtain ⟨hlt, hlive, hweak⟩ := (hm.weak r).mp hr
  dsimp only at hv
  split at hv
  · cases hv
  · rename_i hvalues
    obtain ⟨e, he, rfl⟩ := List.mem_map.mp hv
    obtain ⟨hentry, hdead⟩ := List.mem_filter.mp he
    rw [Bool.and_eq_true, Bool.not_eq_true'] at hdead
    have hkeys : h.weakness (h.table r) = { keys := true } := by
      rcases hw : h.weakness (h.table r) with ⟨keys, values⟩
      rw [hw] at hweak hvalues
      cases values with
      | true => exact absurd rfl hvalues
      | false => cases keys with
        | true => rfl
        | false => exact absurd rfl hweak
    have hobject : h.isObject (.table r) = true := decide_eq_true hlt
    refine ⟨.late (hm.live _ hobject hlive) hlt hkeys hentry fun hobject =>
      hm.live _ hobject hdead.1, ?_⟩
    rw [hdead.2]
    exact Bool.false_ne_true

/-- The values held by keys are looked at next. -/
theorem Explores.next (hm : m.Explores h roots) (hnil : m.pending = []) :
    Explores h roots { m with pending := m.late h ++ m.pending } := by
  have hmet {w : Value} (hw : m.Met w) : Met { m with pending := m.late h ++ m.pending } w :=
    hw.imp id fun hw => List.mem_append_right _ hw
  exact
    { fits := ⟨hm.fits.tables, hm.fits.closures, hm.fits.cells, hm.fits.searches, hm.fits.faults⟩
      cells := fun c hc => hmet (hm.cells c hc)
      holds := fun v hobject hv w hw => hmet (hm.holds v hobject hv w hw)
      weak := hm.weak
      met := fun v hv => hmet (hm.met v hv)
      live := hm.live
      pending := fun v hv => by
        rw [hnil, List.append_nil] at hv
        exact (hm.late hv).1 }

/-! ### The fuel -/

theorem left_le {a : Array Bool} {n : Nat} (ha : a.size = n) (cost : Nat → Nat) :
    left a cost ≤ ∑ i ∈ Finset.range n, cost i := by
  subst ha
  refine Finset.sum_le_sum fun i _ => ?_
  split
  · exact Nat.zero_le _
  · exact Nat.le_refl _

theorem foldl_add_cost (ts : List Table) (n : Nat) :
    ts.foldl (fun n t => n + 2 * t.array.size + 2 * t.slots.size + 1) n =
      n + ∑ i ∈ Finset.range ts.length,
        (2 * ((ts[i]?).getD {}).array.size + 2 * ((ts[i]?).getD {}).slots.size + 1) := by
  induction ts generalizing n with
  | nil => simp
  | cons t ts ih =>
    rw [List.foldl_cons, ih, List.length_cons, Finset.sum_range_succ']
    simp only [List.getElem?_cons_succ, List.getElem?_cons_zero, Option.getD_some]
    omega

/-- The fuel of a round is enough. -/
theorem todo_le (hm : m.Fits h) : m.todo h ≤ h.reachBound + m.pending.length := by
  have htables := left_le hm.tables (cost h)
  have hcells := left_le hm.cells fun _ => 1
  have hsearches := left_le hm.searches fun _ => 2
  have hfold := foldl_add_cost h.tables.toList 0
  rw [Array.foldl_toList, Array.length_toList] at hfold
  have hcost : (∑ i ∈ Finset.range h.tables.size, cost h i) =
      h.tables.foldl (fun n t => n + 2 * t.array.size + 2 * t.slots.size + 1) 0 := by
    rw [hfold, Nat.zero_add]
    refine Finset.sum_congr rfl fun i _ => ?_
    rw [Array.getElem?_toList]
    rfl
  simp only [Finset.sum_const, Finset.card_range] at hcells hsearches
  change _ ≤ h.cells.size * 1 at hcells
  change _ ≤ h.searches.size * 2 at hsearches
  unfold Marks.todo Heap.reachBound
  omega

/-- All rounds together end with nothing left out: each but the first enters an object more. -/
theorem Explores.complete (hm : m.Explores h roots) {rounds : Nat}
    (hrounds : m.unmet < rounds ∨ m.unmet ≤ rounds ∧ ∃ w ∈ m.pending, ¬m.isLive w = true) :
    (m.complete h rounds).Explores h roots ∧ (m.complete h rounds).pending = [] ∧
      (m.complete h rounds).late h = [] := by
  induction rounds generalizing m with
  | zero =>
    obtain hlt | ⟨hle, w, hw, hlive⟩ := hrounds
    · omega
    · have hfewer := (visit_value h m w).fewer hlive
      omega
  | succ rounds ih =>
    obtain ⟨hexplores, hnil, hunmet, hfewer⟩ := hm.reach (todo_le hm.fits)
    unfold Marks.complete
    dsimp only
    split
    · exact ⟨hexplores, hnil, ‹_›⟩
    · rename_i late hlate
      have hnext := hexplores.next hnil
      have hmore : ∃ w ∈ (m.reach h (h.reachBound + m.pending.length)).late h,
          ¬(m.reach h (h.reachBound + m.pending.length)).isLive w = true :=
        let ⟨w, hw⟩ := List.exists_mem_of_ne_nil _ hlate
        ⟨w, hw, (hexplores.late hw).2⟩
      obtain ⟨w, hw, hlive⟩ := hmore
      refine ih hnext (.inr ⟨?_, w, List.mem_append_left _ hw, hlive⟩)
      show (m.reach h (h.reachBound + m.pending.length)).unmet ≤ rounds
      obtain hlt | ⟨hle, hpending⟩ := hrounds
      · omega
      · have := hfewer hpending
        omega

/-! ### The start -/

theorem getD_replicate {n r : Nat} :
    (Array.replicate n false).getD r true = true ↔ n ≤ r := by
  rw [Array.getD_eq_getD_getElem?, Array.getElem?_replicate]
  by_cases hr : r < n
  · simp [hr]
  · simp [hr, Nat.not_lt.mp hr]

theorem isLive_start {vs : List Value} : (start h vs).isLive v = !h.isObject v := by
  cases v with
  | table r => rw [Bool.eq_iff_iff]; exact getD_replicate.trans (by simp [Heap.isObject])
  | function f =>
    cases f with
    | builtin f => rfl
    | _ => rw [Bool.eq_iff_iff]; exact getD_replicate.trans (by simp [Heap.isObject])
  | fault r => rw [Bool.eq_iff_iff]; exact getD_replicate.trans (by simp [Heap.isObject])
  | _ => rfl

theorem explores_start (h : Heap) (roots : List Value) : (start h roots).Explores h roots where
  fits := by
    unfold start
    exact ⟨Array.size_replicate .., Array.size_replicate .., Array.size_replicate ..,
      Array.size_replicate .., Array.size_replicate ..⟩
  cells c hc := by
    have hle : h.cells.size ≤ c := getD_replicate.mp hc
    refine .inl ?_
    rw [Heap.cell, Array.getElem?_eq_none hle]
    rfl
  holds v hobject hlive := by
    rw [isLive_start, hobject] at hlive
    cases hlive
  weak r := by
    rw [isLive_start]
    refine ⟨nofun, ?_⟩
    rintro ⟨hlt, hlive, -⟩
    rw [show h.isObject (.table r) = true from decide_eq_true hlt] at hlive
    cases hlive
  met v hv := .inr hv
  live v hobject hlive := by
    rw [isLive_start, hobject] at hlive
    cases hlive
  pending v hv := .root hv

theorem unmet_start (h : Heap) (vs : List Value) : (start h vs).unmet = h.objects := by
  simp [unmet, start, left_replicate, Heap.objects]

end Marks

/-! ### What vanishes -/

namespace Heap

variable {h : Heap} {roots : List Value} {v w : Value}

/-- Objects are held by objects only. -/
theorem Holds.isObject (hw : h.Holds v w) (hobject : h.isObject w = true) :
    h.isObject v = true := by
  have htable {r : Nat} (hr : ¬r < h.tables.size) : h.table r = {} := by
    rw [table, Array.getElem?_eq_none (Nat.not_lt.mp hr)]
    rfl
  cases hw with
  | @key r e he _ | @value r e he _ =>
    refine decide_eq_true (Decidable.by_contra fun hr => ?_)
    rw [htable hr] at he
    cases he
  | @metatable r m hm =>
    refine decide_eq_true (Decidable.by_contra fun hr => ?_)
    rw [htable hr] at hm
    cases hm
  | @captured r u hu =>
    refine decide_eq_true (Decidable.by_contra fun hr => ?_)
    rw [Array.getElem?_eq_none (Nat.not_lt.mp hr)] at hu
    exact Array.not_mem_empty u hu
  | subject r | pattern r => cases hobject

theorem explores_marked (h : Heap) (roots : List Value) :
    (h.marked roots).Explores h (h.shared.roots ++ roots) ∧ (h.marked roots).pending = [] ∧
      (h.marked roots).late h = [] := by
  refine (Marks.explores_start h _).complete (.inl ?_)
  rw [Marks.unmet_start]
  exact Nat.lt_succ_self _

/-- The objects that the collector marks are those that the roots reach. -/
theorem isLive_marked_iff (hv : h.isObject v = true) :
    (h.marked roots).isLive v = true ↔ h.Reaches (h.shared.roots ++ roots) v := by
  obtain ⟨hm, hnil, hlate⟩ := explores_marked h roots
  have hmet {w : Value} (hw : (h.marked roots).Met w) : (h.marked roots).isLive w = true := by
    obtain hw | hw := hw
    · exact hw
    · rw [hnil] at hw
      cases hw
  have hlive {w : Value} (hw : h.isObject w = false) : (h.marked roots).isLive w = true := by
    by_contra hdead
    rw [Marks.isObject_of_not_live hm.fits hdead] at hw
    cases hw
  refine ⟨hm.live v hv, fun hreaches => ?_⟩
  clear hv
  induction hreaches with
  | root hv => exact hmet (hm.met _ hv)
  | @hold v w _ hw ih =>
    by_contra hdead
    exact hdead (hmet (hm.holds v (hw.isObject (Marks.isObject_of_not_live hm.fits hdead)) ih w hw))
  | @late r e _ hlt hweak he _ ih hk =>
    by_contra hdead
    -- its key has been reached, so it would be looked at in another round
    have hkey : (h.marked roots).isLive e.1.toValue = true := by
      cases hobject : h.isObject e.1.toValue with
      | true => exact hk hobject
      | false => exact hlive hobject
    have hr : r ∈ (h.marked roots).weak := (hm.weak r).mpr ⟨hlt, ih, by rw [hweak]; decide⟩
    have hmem : e.2 ∈ (h.marked roots).late h := by
      refine List.mem_flatMap.mpr ⟨r, hr, ?_⟩
      dsimp only
      rw [hweak, if_neg Bool.false_ne_true]
      refine List.mem_map.mpr ⟨e, List.mem_filter.mpr ⟨he, ?_⟩, rfl⟩
      rw [hkey, Bool.eq_false_iff.mpr hdead]
      rfl
    rw [hlate] at hmem
    cases hmem

/-- The entries that vanish are those of the weak tables that are reached, as far as they hold an
object weakly that is not reached. -/
theorem mem_dead_iff {r : Nat} {k : Key} :
    (r, k) ∈ (h.marked roots).dead h ↔
      r < h.tables.size ∧ h.Reaches (h.shared.roots ++ roots) (.table r) ∧
        ∃ v, (k, v) ∈ (h.table r).entries ∧
          ((h.weakness (h.table r)).keys = true ∧ h.isObject k.toValue = true ∧
              ¬h.Reaches (h.shared.roots ++ roots) k.toValue ∨
            (h.weakness (h.table r)).values = true ∧ h.isObject v = true ∧
              ¬h.Reaches (h.shared.roots ++ roots) v) := by
  obtain ⟨hm, -, -⟩ := explores_marked h roots
  have hdead (v : Value) : (!(h.marked roots).isLive v) = true ↔
      h.isObject v = true ∧ ¬h.Reaches (h.shared.roots ++ roots) v := by
    rw [Bool.not_eq_true', ← Bool.not_eq_true]
    constructor
    · intro hv
      have hobject := Marks.isObject_of_not_live hm.fits hv
      exact ⟨hobject, fun hreaches => hv ((isLive_marked_iff hobject).mpr hreaches)⟩
    · rintro ⟨hobject, hreaches⟩ hv
      exact hreaches ((isLive_marked_iff hobject).mp hv)
  have hweak : r ∈ (h.marked roots).weak ↔ r < h.tables.size ∧
      h.Reaches (h.shared.roots ++ roots) (.table r) ∧ h.weakness (h.table r) ≠ {} := by
    rw [hm.weak]
    exact and_congr_right fun hlt => and_congr_left' (isLive_marked_iff (decide_eq_true hlt))
  constructor
  · intro hmem
    obtain ⟨r', hr', hmem⟩ := List.mem_flatMap.mp hmem
    obtain ⟨e, he, heq⟩ := List.mem_map.mp hmem
    cases heq
    obtain ⟨hlt, hreaches, -⟩ := hweak.mp hr'
    obtain ⟨hentry, hgone⟩ := List.mem_filter.mp he
    simp only [Bool.or_eq_true, Bool.and_eq_true, hdead] at hgone
    exact ⟨hlt, hreaches, e.2, hentry, hgone⟩
  · rintro ⟨hlt, hreaches, v, hentry, hgone⟩
    have hne : h.weakness (h.table r) ≠ {} := by
      intro hstrong
      rw [hstrong] at hgone
      obtain ⟨hkeys, -⟩ | ⟨hvalues, -⟩ := hgone
      · cases hkeys
      · cases hvalues
    refine List.mem_flatMap.mpr ⟨r, hweak.mpr ⟨hlt, hreaches, hne⟩, ?_⟩
    refine List.mem_map.mpr ⟨(k, v), List.mem_filter.mpr ⟨hentry, ?_⟩, rfl⟩
    simp only [Bool.or_eq_true, Bool.and_eq_true, hdead]
    exact hgone

/-- A table after some of its entries have been taken out. -/
structure Loses (h h' : Heap) (gone : List (Nat × Key)) (r : Nat) : Prop where
  sound : (h'.table r).Sound
  metatable : (h'.table r).metatable = (h.table r).metatable
  lost : ∀ k, (r, k) ∈ gone → (h'.table r).get k = .nil
  kept : ∀ k, (r, k) ∉ gone → (h'.table r).get k = (h.table r).get k

/-- What removals make of a table. -/
theorem loses_without {r : Nat} (hr : r < h.tables.size) (hsound : (h.table r).Sound)
    (gone : List (Nat × Key)) : h.Loses (h.without gone) gone r := by
  induction gone generalizing h with
  | nil => exact ⟨hsound, rfl, fun _ => nofun, fun _ _ => rfl⟩
  | cons e gone ih =>
    have hsize : (h.setKey e.1 e.2 .nil).tables.size = h.tables.size := Array.size_modify ..
    have htable : (h.setKey e.1 e.2 .nil).table r =
        if e.1 = r then (h.table r).set e.2 .nil else h.table r := by
      simp only [table, setKey, Array.getElem?_modify]
      split
      · rw [Array.getElem?_eq_getElem hr]
        rfl
      · rfl
    have hone : ((h.setKey e.1 e.2 .nil).table r).Sound ∧
        ((h.setKey e.1 e.2 .nil).table r).metatable = (h.table r).metatable ∧
        ∀ k, ((h.setKey e.1 e.2 .nil).table r).get k =
          if e = (r, k) then .nil else (h.table r).get k := by
      rw [htable]
      split
      · rename_i he
        refine ⟨(hsound.set e.2 .nil).1, Table.metatable_set .., fun k => ?_⟩
        rw [Table.get_set hsound]
        exact if_congr
          ⟨fun hk => Prod.ext he hk.symm, fun hk => (congrArg Prod.snd hk).symm⟩ rfl rfl
      · rename_i he
        refine ⟨hsound, rfl, fun k => (if_neg fun hk => he (congrArg Prod.fst hk)).symm⟩
    obtain ⟨hsound', hmeta, hget⟩ := hone
    have hrest := ih (hsize ▸ hr) hsound'
    refine ⟨hrest.sound, hrest.metatable.trans hmeta, fun k hk => ?_, fun k hk => ?_⟩
    · by_cases hmem : (r, k) ∈ gone
      · exact hrest.lost k hmem
      · have he : e = (r, k) := ((List.mem_cons.mp hk).resolve_right hmem).symm
        exact (hrest.kept k hmem).trans ((hget k).trans (if_pos he))
    · rw [List.mem_cons, not_or] at hk
      exact (hrest.kept k hk.2).trans ((hget k).trans (if_neg (Ne.symm hk.1)))

/-- What the collector makes of a table. -/
theorem loses_collected {r : Nat} (hr : r < h.tables.size) (hsound : (h.table r).Sound) :
    h.Loses (h.collected roots true) ((h.marked roots).dead h) r := by
  have htable : (h.collected roots true).table r =
      (h.without ((h.marked roots).dead h)).table r := by
    simp only [collected, table, if_true]
  have hloses := loses_without hr hsound ((h.marked roots).dead h)
  refine ⟨?_, ?_, fun k hk => ?_, fun k hk => ?_⟩
  all_goals rw [htable]
  · exact hloses.sound
  · exact hloses.metatable
  · exact hloses.lost k hk
  · exact hloses.kept k hk

end Heap

end StoryPack.Script
