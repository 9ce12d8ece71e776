/-
What a fresh sandbox holds.

A fresh sandbox is a new table that holds its bindings and what every sandbox
holds from the start, and nothing else.  Where there is a limit, there may be no
memory for it; then the collector has run.

* `Host.tables_furnish` — the table that is added;
* `Host.table_newSandbox` — the table of a fresh sandbox;
* `Host.get_newSandbox_of_mem`, `Host.get_newSandbox_of_not_mem` — the value of a
  name in it.
-/
import StoryPack.Sandbox.Host
import StoryPack.Proofs.Confinement.Freeze
import StoryPack.Proofs.Script.Fill

namespace StoryPack

open Script

namespace Script.Table

/-- A name that has one entry has its value. -/
theorem get_named_of_mem {es : List (String × Value)} (hnodup : (es.map (·.1)).Nodup)
    {name : String} {v : Value} (hmem : (name, v) ∈ es) :
    (named es).get (.str name.toUTF8) = v := by
  -- the value is that of the last entry with the name: the one found so far, or one still to come
  have hlast (v₀ : Value) (es : List (String × Value)) (hnodup : (es.map (·.1)).Nodup)
      (hmem : v = v₀ ∧ name ∉ es.map (·.1) ∨ (name, v) ∈ es) :
      es.foldl (fun v e => if name = e.1 then e.2 else v) v₀ = v := by
    induction es generalizing v₀ with
    | nil =>
      rcases hmem with ⟨rfl, -⟩ | hmem
      · rfl
      · cases hmem
    | cons e es ih =>
      rw [List.map_cons, List.nodup_cons] at hnodup
      refine ih _ hnodup.2 ?_
      rcases hmem with ⟨rfl, hnot⟩ | hmem
      · rw [List.map_cons, List.mem_cons, not_or] at hnot
        exact .inl ⟨(if_neg hnot.1).symm, hnot.2⟩
      · rcases List.mem_cons.mp hmem with rfl | hmem
        · exact .inl ⟨(if_pos rfl).symm, hnodup.1⟩
        · exact .inr hmem
  rw [get_named]
  exact hlast .nil es hnodup (.inr hmem)

/-- A name without entry has no value. -/
theorem get_named_of_not_mem {es : List (String × Value)} {name : String}
    (hnot : name ∉ es.map (·.1)) : (named es).get (.str name.toUTF8) = .nil := by
  rcases get_named_cases es (.str name.toUTF8) with hnil | ⟨e, he, hk, -⟩
  · exact hnil
  · refine absurd (List.mem_map_of_mem (f := (·.1)) he) ?_
    rwa [← String.toByteArray_inj.mp (Key.str.inj hk)]

end Script.Table

namespace Host

variable (host : Host) (bindings : List (String × Value))

/-- The names that every sandbox holds from the start. -/
def defaultNames : List String :=
  ["assert", "error", "ipairs", "pairs", "select", "tonumber", "tostring", "type", "getmetatable",
   "setmetatable", "rawequal", "_VERSION", "next", "rawget", "rawlen", "string", "table", "math",
   "pcall", "xpcall", "_G"]

theorem map_defaults (env : Nat) : (host.defaults env).map (·.1) = defaultNames := rfl

/-- The entries of a fresh sandbox. -/
def openings : List (String × Value) := host.defaults host.heap.tables.size ++ bindings

theorem furnish_eq : (host.furnish bindings).1 = host.withHeap
    ((host.openings bindings).foldl (fun h e => h.setName host.heap.tables.size e.1 e.2)
      (host.heap.newTable {}).1) := rfl

theorem heap_furnish : (host.furnish bindings).1.heap =
    (host.openings bindings).foldl (fun h e => h.setName host.heap.tables.size e.1 e.2)
      (host.heap.newTable {}).1 := by
  rw [furnish_eq]
  generalize (host.openings bindings).foldl
    (fun h e => h.setName host.heap.tables.size e.1 e.2) (host.heap.newTable {}).1 = g
  rfl

theorem tables_furnish : (host.furnish bindings).1.heap.tables =
    host.heap.tables.push (Table.named (host.openings bindings)) := by
  rw [heap_furnish]
  generalize host.openings bindings = es
  have hfold := Heap.tables_foldl_setKey (fun e : String × Value => Key.str e.1.toUTF8) Prod.snd es
    (host.heap.newTable {}).1 host.heap.tables.size
  rw [Heap.newTable, Heap.modify_push] at hfold
  exact hfold

/-- Only tables and the count of bytes are other ones. -/
theorem rest_furnish : ∃ tables used,
    (host.furnish bindings).1.heap = { host.heap with tables := tables, used := used } := by
  rw [heap_furnish]
  exact Heap.foldl_setKey_eq (fun e : String × Value => Key.str e.1.toUTF8) Prod.snd _ _ _

theorem limit_furnish : (host.furnish bindings).1.heap.limit = host.heap.limit := by
  obtain ⟨tables, used, heq⟩ := host.rest_furnish bindings
  rw [heq]

variable {α : Type} {host bindings} {host' : Host} {sandbox : Sandbox}

/-- The collector leaves a table without metatable as it is. -/
theorem table_afford (host : Host) (roots : List Value) (a : α) {r : Nat}
    (hr : (host.heap.table r).metatable = none ∨ host.heap.limit = none) :
    (host.afford roots a).1.heap.table r = host.heap.table r := by
  obtain h | ⟨hfull, r', -, h⟩ := host.afford_cases roots a
  · rw [h]
  · rw [h]
    obtain hr | hlimit := hr
    · exact Heap.table_collected hr
    · rw [Heap.overfull, hlimit] at hfull
      cases hfull

/-- The collector changes nothing but the heap, and adds and removes no tables. -/
theorem afford_rest (host : Host) (roots : List Value) (a : α) :
    ∃ h, (host.afford roots a).1 = host.withHeap h ∧ h.tables.size = host.heap.tables.size ∧
      h.limit = host.heap.limit ∧ h.cells = host.heap.cells ∧ h.closures = host.heap.closures := by
  obtain h | ⟨-, r, -, h⟩ := host.afford_cases roots a
  · exact ⟨host.heap, congrArg Prod.fst h, rfl, rfl, rfl, rfl⟩
  · exact ⟨_, congrArg Prod.fst h, by simp⟩

theorem newTable_eq : host.newTable = (host.withHeap (host.heap.newTable {}).1).afford
    [.table host.heap.tables.size] host.heap.tables.size := rfl

/-- Without a limit, there is memory for a table. -/
theorem newTable_of_limit (hlimit : host.heap.limit = none) : host.newTable =
    (host.withHeap (host.heap.newTable {}).1, .ok host.heap.tables.size) := by
  rw [newTable_eq]
  exact (host.withHeap (host.heap.newTable {}).1).afford_of_limit hlimit _ _

/-- A table that is added is empty, and all other tables are as they were, but for what the
collector takes out of weak ones. -/
theorem table_newTable (host : Host) {r : Nat}
    (hstrong : (host.heap.table r).metatable = none ∨ host.heap.limit = none) :
    host.newTable.1.heap.table r =
      if r = host.heap.tables.size then {} else host.heap.table r := by
  have htable : (host.withHeap (host.heap.newTable {}).1).heap.table r = _ :=
    Heap.table_push (h := host.heap) _ rfl
  rw [newTable_eq, table_afford, htable]
  rw [htable]
  split
  · exact .inl rfl
  · exact hstrong

theorem limit_newTable (host : Host) : host.newTable.1.heap.limit = host.heap.limit := by
  obtain ⟨h, hheap, -, hlimit, -⟩ := (host.withHeap (host.heap.newTable {}).1).afford_rest
    [.table host.heap.tables.size] host.heap.tables.size
  rw [newTable_eq, hheap]
  exact hlimit

theorem newSandbox_eq : host.newSandbox bindings = (host.furnish bindings).1.afford
    [.table host.heap.tables.size] ⟨host.heap.tables.size⟩ := rfl

/-- Without a limit, there is memory for a sandbox. -/
theorem newSandbox_of_limit (hlimit : host.heap.limit = none) :
    host.newSandbox bindings = ((host.furnish bindings).1, .ok ⟨host.heap.tables.size⟩) := by
  rw [newSandbox_eq]
  exact afford_of_limit _ ((host.limit_furnish bindings).trans hlimit) _ _

/-- Without a limit, there is memory for a sandbox after an empty table, and only these two are
added. -/
theorem newSandbox_newTable (hlimit : host.heap.limit = none) (bindings : List (String × Value)) :
    ∃ host' used, (host.withHeap (host.heap.newTable {}).1).newSandbox bindings =
        (host', .ok ⟨host.heap.tables.size + 1⟩) ∧
      host'.heap = { host.heap with
        tables := (host.heap.tables.push {}).push
          (Table.named (host.defaults (host.heap.tables.size + 1) ++ bindings))
        used := used } ∧
      host'.interpreter.held = host.interpreter.held := by
  let added : Host := host.withHeap (host.heap.newTable {}).1
  have hsandbox : added.newSandbox bindings = _ := newSandbox_of_limit hlimit
  have hsize : added.heap.tables.size = host.heap.tables.size + 1 := Array.size_push ..
  have htables := added.tables_furnish bindings
  have hopenings : added.openings bindings =
      host.defaults (host.heap.tables.size + 1) ++ bindings := by
    rw [openings, hsize]
    rfl
  obtain ⟨tables, used, hheap⟩ := added.rest_furnish bindings
  rw [hsize] at hsandbox
  rw [hheap, hopenings] at htables
  refine ⟨_, used, hsandbox, ?_, congrArg (·.interpreter.held) (added.furnish_eq bindings)⟩
  rw [hheap, show tables = _ from htables]
  rfl

variable (hnew : host.newSandbox bindings = (host', .ok sandbox))

include hnew

theorem eq_of_newSandbox : host' =
      ((host.furnish bindings).1.afford [.table host.heap.tables.size] sandbox).1 ∧
    sandbox = ⟨host.heap.tables.size⟩ := by
  have hafford : (host.furnish bindings).1.afford [.table host.heap.tables.size]
      (⟨host.heap.tables.size⟩ : Sandbox) = (host', .ok sandbox) := hnew
  generalize (host.furnish bindings).1 = furnished at hafford ⊢
  obtain h | ⟨-, r, hr, h⟩ := furnished.afford_cases [.table host.heap.tables.size]
    (⟨host.heap.tables.size⟩ : Sandbox)
  · cases h.symm.trans hafford
    exact ⟨(congrArg Prod.fst h).symm, rfl⟩
  · obtain rfl | rfl := hr
    · cases h.symm.trans hafford
      exact ⟨(congrArg Prod.fst h).symm, rfl⟩
    · cases h.symm.trans hafford

/-- A fresh sandbox is a new table. -/
theorem table_newSandbox :
    host'.heap.table host.heap.tables.size = Table.named (host.openings bindings) := by
  have htable := Heap.table_push (r := host.heap.tables.size) _ (host.tables_furnish bindings)
  rw [if_pos rfl] at htable
  rw [(eq_of_newSandbox hnew).1, table_afford _ _ _ (.inl (htable ▸ Table.metatable_named _)),
    htable]

/-- All other tables are as they were, but for what the collector takes out of weak ones. -/
theorem table_newSandbox_of_ne {r : Nat} (hr : r ≠ host.heap.tables.size)
    (hstrong : (host.heap.table r).metatable = none ∨ host.heap.limit = none) :
    host'.heap.table r = host.heap.table r := by
  have htable := Heap.table_push (r := r) _ (host.tables_furnish bindings)
  rw [if_neg hr] at htable
  rw [(eq_of_newSandbox hnew).1, table_afford, htable]
  rw [htable, limit_furnish]
  exact hstrong

theorem get_newSandbox (name : String) :
    host'.get sandbox name = (Table.named (host.openings bindings)).get (.str name.toUTF8) := by
  rw [Host.get, Heap.getName, Heap.getKey_eq, (eq_of_newSandbox hnew).2, table_newSandbox hnew]

/-- A binding that no other one takes the name of has its value. -/
theorem get_newSandbox_of_mem (hnodup : ((host.openings bindings).map (·.1)).Nodup)
    {name : String} {v : Value} (hmem : (name, v) ∈ bindings) : host'.get sandbox name = v := by
  rw [get_newSandbox hnew]
  exact Table.get_named_of_mem hnodup (List.mem_append_right _ hmem)

/-- All other names have no value. -/
theorem get_newSandbox_of_not_mem {name : String}
    (hnot : name ∉ (host.openings bindings).map (·.1)) : host'.get sandbox name = .nil := by
  rw [get_newSandbox hnew]
  exact Table.get_named_of_not_mem hnot

end Host

end StoryPack
