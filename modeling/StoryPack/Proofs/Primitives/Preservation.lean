/-
What values that are no tables do is not changed when their metatables are.

The metatables of the basic types are replaced once, and only once.  Nothing but
tables is added for that.  Whatever is done afterwards with values that are no
tables takes the course that it would have taken before, as long as the present
library has not been written to in the one heap, and what has been added not in
the other.

* `Heap.SameUses` — values that are no tables are used to the same effect;
* `Interpreter.guardPrimitives_sameUses` — the uses of values before and after.
-/
import StoryPack.Proofs.Primitives.Guard
import StoryPack.Proofs.Primitives.Use
import StoryPack.Proofs.Script.Packed

namespace StoryPack

open Script Script.Heap

/-- Tables without metatables have no metamethods, and are read alike, when tables are added. -/
theorem Script.Heap.beside_of_grows {g h : Heap} (hgrows : g.Grows h) (hrest : g.SameRest h)
    {n : Nat} (hn : n ≤ g.tables.size) (hmeta : ∀ r < n, (g.table r).metatable = none) :
    g.Beside ⟨(· < n), (· < n)⟩ h where
  toSameRest := hrest
  fields r hr event := by
    have htable := hgrows.table r (Nat.lt_of_lt_of_le hr hn)
    rw [metafield, metafield, metatable?_table, metatable?_table, htable, hmeta r hr]
  reads r hr := by
    have htable := hgrows.table r (Nat.lt_of_lt_of_le hr hn)
    exact ⟨fun _ => True, fun _ => True, g.table r, .plain trivial (hmeta r hr) fun _ => rfl,
      .plain trivial (htable ▸ hmeta r hr) fun k => by rw [htable]⟩

/-- Values that are no tables are used, and called, to the same effect in two heaps. -/
structure Script.Heap.SameUses (T : Known) (g h : Heap) : Prop where
  uses : ∀ u : Use, u.Suits T → (u.run g).Alike T (u.run h)
  calls : ∀ (c : State) (o : Origin) (f : Value) (args : List Value), (∀ r, f ≠ .table r) →
    (∀ v ∈ args, v.Suits T) →
    (∀ b : Builtin, f = .builtin b → b ≠ .base .pcall → b ≠ .base .xpcall →
      (Use.apply b args).Suits T) →
    ({ c with heap := h }.call o f args).mode = ({ c with heap := g }.call o f args).mode
  /-- Packing gives a new table of the same entries. -/
  packs : ∀ args : List Value, ∃ t : Table, t.Packs args ∧
    Builtin.run (.table .pack) args g = .done (g.newTable t).1 [.table g.tables.size] ∧
    Builtin.run (.table .pack) args h = .done (h.newTable t).1 [.table h.tables.size]

theorem Script.Heap.Alike.sameUses {T : Known} {g h : Heap} (hgh : g.Alike T h) :
    g.SameUses T h where
  uses _ hu := Use.steady hu g h hgh
  calls c o _ _ hf hargs hbuiltin := c.mode_call hgh o hf hargs hbuiltin
  packs args := ⟨_, Table.packs_of args, rfl, rfl⟩

namespace Interpreter

variable {m library strings : Nat} {t : Table} {h₀ h₁ : Heap} {s : Interpreter}

/-- Once the metatables have been replaced this is not done again. -/
theorem guardPrimitives_of_guarded (hs : s.guarded = true) (strings : Nat) :
    s.guardPrimitives strings = .ok (s, false) := by
  unfold guardPrimitives
  rw [if_pos hs]

/-- All basic types have new metatables, with which values that are no tables behave as usual. -/
theorem guardPrimitives_usual (hguarded : s.guarded = false) (hs : s.heap.Stock m library t)
    {E : Nat → Prop} (hview : s.heap.ViewOf E t strings) (hE : ∀ r, E r → r < s.heap.tables.size) :
    ∃ g, s.guardPrimitives strings = .ok ({ s with heap := g, guarded := true }, true) ∧
      s.heap.Grows g ∧ s.heap.KeepsRest g ∧ g.Usual (fun r => Added s.heap g r ∨ E r) t := by
  have hnone : ∀ k ∈ [Kind.boolean, .number, .nil, .function, .thread],
      s.heap.shared.of k = none := by
    intro k hk
    rw [hs.shared]
    cases k with
    | string => exact absurd hk (by decide)
    | _ => rfl
  obtain ⟨g₁, hkinds, ⟨hgrows₁, hkeeps₁, hbare⟩, hsame, -⟩ :=
    guardKinds_bare (hs.bare _) (by decide) hnone
  have hstring : g₁.shared.string = some m := by
    have hof := hsame .string (by decide)
    rw [hs.shared] at hof
    exact hof
  obtain ⟨g, hstrings, hgrows, hkeeps, husual⟩ := guardStrings_usual hgrows₁ hbare hstring
    ((hgrows₁.table m hs.lt).trans hs.metatable) hs.listed
    (hview.congr fun r hr => hgrows₁.table r (hE r hr))
    fun r hr => Nat.lt_of_lt_of_le (hE r hr) hgrows₁.size
  refine ⟨g, ?_, hgrows₁.trans hgrows, hkeeps₁.trans hkeeps, husual⟩
  unfold guardPrimitives
  rw [hguarded, if_neg Bool.false_ne_true, bind_of_eq_ok hkinds, bind_of_eq_ok hstrings]
  rfl

/-- The metatables of the basic types are replaced, and never again. That adds tables, and nothing
else is changed but what the metatables are. What is then done with values that are no tables takes
the same course as in a heap where the string library is still as it was set up, as long as no table
has been written to that was added for the new metatables or for the view of the library. -/
theorem guardPrimitives_sameUses (hguarded : s.guarded = false) (hs : s.heap.Stock m library t)
    (hlibrary : h₀.table library = t) (hfreeze : freezeTable h₀ library = .ok (h₁, strings))
    (hgrows : h₁.Grows s.heap) :
    ∃ s', s.guardPrimitives strings = .ok (s', true) ∧
      s' = { s with heap := s'.heap, guarded := true } ∧
      s.heap.Grows s'.heap ∧ s.heap.KeepsRest s'.heap ∧
      (∀ u : Interpreter, u.guarded = s'.guarded → ∀ v, u.guardPrimitives v = .ok (u, false)) ∧
      ∀ (T : Known) (g h : Heap), g.Stock m library t → h.shared = s'.heap.shared →
        (∀ r, Added s.heap s'.heap r ∨ Added h₀ h₁ r → h.table r = s'.heap.table r) →
        g.Beside T h → g.SameUses T h := by
  obtain ⟨h, v, heq, -, hview⟩ := freezeTable_viewOf hlibrary hs.listed hs.plain
  cases hfreeze.symm.trans heq
  -- the view is older than the metatables, so that it is still what strings are read through
  obtain ⟨g, hg, hgrows', hkeeps, husual⟩ := guardPrimitives_usual hguarded hs
    (hview.congr fun r hr => hgrows.table r hr.2)
    fun r hr => Nat.lt_of_lt_of_le hr.2 hgrows.size
  refine ⟨{ s with heap := g, guarded := true }, hg, rfl, hgrows', hkeeps,
    fun u hu v => guardPrimitives_of_guarded hu v, fun T g h hstock hshared htable hbeside => ?_⟩
  exact Alike.sameUses ⟨hbeside, _, _, t, hstock.usual, husual.congr hshared htable⟩

theorem metatable_new (limit : Option Nat) (r : Nat) :
    ((new limit).heap.table r).metatable = none := by
  have hfirst : ∀ t ∈ Table.named allEntries :: libraryTables, t.metatable = none := by
    simp [libraryTables, Table.metatable_named]
  rw [Heap.table, tables_new, List.getElem?_toArray]
  cases ht : (Table.named allEntries :: libraryTables)[r]? with
  | none => rfl
  | some t => exact hfirst t (List.mem_of_getElem? ht)

/-- In a new interpreter the tables of the libraries have the same metamethods, and are read alike,
before and after. -/
theorem guardPrimitives_sameUses_new : ∃ (h₁ : Heap) (strings : Nat) (s' : Interpreter),
    freezeTable (new none).heap 1 = .ok (h₁, strings) ∧
      { new none with heap := h₁ }.guardPrimitives strings = .ok (s', true) ∧
      s'.guardPrimitives strings = .ok (s', false) ∧ h₁.SameUses ⟨(· < 6), (· < 6)⟩ s'.heap := by
  have hstock := stock_new none
  have hsize : (new none).heap.tables.size = 6 := by
    rw [tables_new]
    rfl
  obtain ⟨h₁, strings, hfreeze, hext, -⟩ :=
    freezeTable_viewOf hstock.library hstock.listed hstock.plain
  have hstock₁ := hstock.extends (by rw [hsize]; decide) hext
  obtain ⟨s', hs', -, hgrows, hkeeps, hagain, hsame⟩ :=
    guardPrimitives_sameUses (s := { new none with heap := h₁ }) rfl hstock₁ hstock.library hfreeze
      (.refl _)
  have hbeside := beside_of_grows hgrows hkeeps.sameRest (n := 6) (hsize ▸ hext.size) fun r hr => by
    rw [hext.table r (hsize.symm ▸ hr), metatable_new]
  exact ⟨h₁, strings, s', hfreeze, hs', hagain s' rfl strings,
    hsame _ h₁ s'.heap hstock₁ rfl (fun _ _ => rfl) hbeside⟩

end Interpreter

end StoryPack
