/-
Which scopes hold the same, and what a table of a script shows.

Two scopes hold the same when every path of keys leads to the same in both of
them: to a table, to the same value that is no table, or to nothing.  The order
of their entries does not matter.  In the same way a table of a script, and what
it leads to, can be compared with a scope; views are read through.

* `Scope.Value.at?`, `Heap.follow` — what a path of keys leads to;
* `Scope.Value.Same` — values of scopes that hold the same;
* `Heap.Displays` — a value of a script that shows what a value of a scope holds;
* `Heap.Displays.same` — what one value shows is the same;
* `Scope.Value.Keyed` — all keys are different, at every level.
-/
import StoryPack.Sandbox.View

namespace StoryPack

open Script (Heap)

theorem Scope.Key.toScript_inj {k k' : Scope.Key} (h : k.toScript = k'.toScript) : k = k' := by
  cases k <;> cases k' <;> simp only [Scope.Key.toScript] at h
  · exact congrArg Scope.Key.integer (Script.Key.int.inj h)
  · cases h
  · cases h
  · exact congrArg Scope.Key.text (String.toByteArray_inj.mp (Script.Key.str.inj h))

namespace Scope.Value

/-- What a path of keys leads to through nested tables. -/
def at? : Value → List Key → Option Value
  | v, [] => some v
  | .table entries, k :: path => (entries.lookup k).bind fun v => v.at? path
  | _, _ :: _ => none

/-- The value of a script that a value is which is no table. -/
def leaf? : Value → Option Script.Value
  | .boolean b => some (.bool b)
  | .integer i => some (.int i)
  | .number x => some (.float x)
  | .text s => some (.str s.toUTF8)
  | .table _ => none
  | .function f => some (.function f)

/-- Every path leads to the same: to a table, to the same other value, or to nothing. -/
def Same (v w : Value) : Prop := ∀ path, (v.at? path).map leaf? = (w.at? path).map leaf?

theorem Same.refl (v : Value) : v.Same v := fun _ => rfl

theorem Same.trans {u v w : Value} (h : u.Same v) (h' : v.Same w) : u.Same w :=
  fun path => (h path).trans (h' path)

mutual

/-- The keys of a table are different, and so are those of all tables in it. -/
def Keyed : Value → Prop
  | .table entries => (entries.map (·.1)).Nodup ∧ entriesKeyed entries
  | _ => True

/-- The keys of all tables in entries are different. -/
def entriesKeyed : List (Key × Value) → Prop
  | [] => True
  | (_, v) :: rest => v.Keyed ∧ entriesKeyed rest

end

theorem entriesKeyed_iff {entries : List (Key × Value)} :
    entriesKeyed entries ↔ ∀ e ∈ entries, e.2.Keyed := by
  induction entries with
  | nil => simp [entriesKeyed]
  | cons e rest ih => simp [entriesKeyed, ih]

end Scope.Value

namespace Scope.Table

/-- A table as a value. -/
def value (t : Table) : Value := .table t.entries

/-- Tables that hold the same. -/
def Same (s t : Table) : Prop := s.value.Same t.value

/-- The keys are different, at every level. -/
def Keyed (t : Table) : Prop := t.value.Keyed

end Scope.Table

namespace Script

/-- A value that is no table; `none` for a table. -/
def Value.leaf? : Value → Option Value
  | .table _ => none
  | v => some v

namespace Heap

/-- What a path of keys leads to, when views are read through: `nil` when it leads nowhere. -/
def follow (h : Heap) : Value → List Key → Value
  | v, [] => v
  | .table r, k :: path => h.follow ((h.table (h.readThrough r)).get k) path
  | _, _ :: _ => .nil

/-- A value of a script shows what a value of a scope holds: the keys of the scope lead to the same,
and other keys lead nowhere. -/
structure Displays (h : Heap) (v : Value) (w : Scope.Value) : Prop where
  keys : ∀ path : List Scope.Key,
    let v' := h.follow v (path.map Scope.Key.toScript)
    (if v'.isNil then none else some v'.leaf?) = (w.at? path).map Scope.Value.leaf?
  others : ∀ (path : List Scope.Key) (k : Key),
    h.follow v (path.map Scope.Key.toScript ++ [k]) ≠ .nil → ∃ k', k = Scope.Key.toScript k'

/-- What one value shows is the same. -/
theorem Displays.same {h : Heap} {v : Value} {w w' : Scope.Value} (hw : h.Displays v w)
    (hw' : h.Displays v w') : w.Same w' :=
  fun path => (hw.keys path).symm.trans (hw'.keys path)

theorem follow_nil (h : Heap) (path : List Key) : h.follow .nil path = .nil := by
  cases path <;> rfl

theorem follow_append (h : Heap) (v : Value) (path rest : List Key) :
    h.follow v (path ++ rest) = h.follow (h.follow v path) rest := by
  induction path generalizing v with
  | nil => rfl
  | cons k path ih =>
    cases v with
    | table r => exact ih _
    | _ => exact (h.follow_nil rest).symm

namespace Displays

variable {h : Heap} {r : Nat} {scope : Scope.Table} {k : Scope.Key}

theorem leaf?_get (hr : h.Displays (.table r) scope.value) :
    let v := (h.table (h.readThrough r)).get k.toScript
    (if v.isNil then none else some v.leaf?) = (scope.get? k).map Scope.Value.leaf? := by
  have hat : scope.value.at? [k] = scope.get? k := by
    show (scope.entries.lookup k).bind (fun w => some w) = _
    rw [Option.bind_fun_some]
    rfl
  rw [← hat]
  exact hr.keys [k]

/-- What a scope holds under a key is in the table that shows it. -/
theorem get (hr : h.Displays (.table r) scope.value) {w : Scope.Value}
    (hw : scope.get? k = some w) {v : Value} (hleaf : w.leaf? = some v) :
    (h.table (h.readThrough r)).get k.toScript = v := by
  have hget := hr.leaf?_get (k := k)
  rw [hw] at hget
  dsimp only [Option.map_some] at hget
  split at hget
  · cases hget
  · have hvalue := (Option.some.inj hget).trans hleaf
    unfold Value.leaf? at hvalue
    split at hvalue
    · cases hvalue
    · exact Option.some.inj hvalue

/-- A text in a table is in the scope that the table shows. -/
theorem get?_text (hr : h.Displays (.table r) scope.value) {s : String}
    (hs : (h.table (h.readThrough r)).get k.toScript = .str s.toUTF8) :
    scope.get? k = some (.text s) := by
  have hget := hr.leaf?_get (k := k)
  rw [hs] at hget
  obtain ⟨w, hw, hleaf⟩ := Option.map_eq_some_iff.mp hget.symm
  rw [hw]
  cases w with
  | text s' =>
    have hbytes : s'.toUTF8 = s.toUTF8 := Value.str.inj (Option.some.inj hleaf)
    rw [String.toByteArray_inj.mp hbytes]
  | _ => cases hleaf

end Displays

end Heap

end Script

end StoryPack
