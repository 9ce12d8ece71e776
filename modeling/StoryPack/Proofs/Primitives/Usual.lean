/-
Heaps in which values that are no tables behave alike.

What such a value does is decided by the metatable that its type shares.  As a
rule only strings have one: it has metamethods for arithmetic, and a library
that strings are read like.  The library may be a plain table or a view.  Two
heaps of this kind give the same answers to all operators on such values.

* `Heap.Usual` — a heap in which the metatables of the basic types are as usual;
* `Heap.Usual.congr` — only some tables matter for that;
* `Heap.Usual.index_str`, `Heap.Usual.index_of_ne` — what is read from values
  that are no tables;
* `Heap.Alike` — two such heaps;
* `Heap.Alike.metafield`, `Heap.Alike.typeName`, … — what is the same in both.
-/
import StoryPack.Proofs.Confinement.View
import StoryPack.Proofs.Script.Fill
import StoryPack.Script.Library.Argument

namespace StoryPack.Script

/-- The operators that strings have metamethods for. -/
def stringOperators : List Arith := [.add, .sub, .mul, .mod, .pow, .div, .idiv, .unm]

/-- The metamethods of strings: arithmetic takes the numbers that they spell. -/
def stringFields : List (String × Value) :=
  stringOperators.map fun op => ("__" ++ op.eventName, .builtin (.stringArith op))

/-- The metamethod that a value has as a rule, if it is no table. -/
def Value.usualField (v : Value) (event : ByteArray) : Value :=
  if v.kind = .string then (Table.named stringFields).get (.str event) else .nil

theorem Value.usualField_eq_nil (v : Value) (event : ByteArray)
    (hevent : ∀ op : Arith, op.event ≠ event) : v.usualField event = .nil := by
  unfold usualField
  split
  · rcases Table.get_named_cases stringFields (.str event) with hnil | ⟨e, he, hkey, -⟩
    · exact hnil
    · obtain ⟨op, -, rfl⟩ := List.mem_map.mp he
      exact absurd (Key.str.inj hkey).symm (hevent op)
  · rfl

namespace Heap

/-- A table that is read like another one: it has no metatable, or it is a view. The tables that are
looked at lie within a part of the heap. -/
inductive ReadsLike (D : Nat → Prop) (t : Table) (h : Heap) : Nat → Prop
  | plain {r : Nat} (hr : D r) (hmeta : (h.table r).metatable = none)
    (hget : ∀ k, (h.table r).get k = t.get k) : ReadsLike D t h r
  | view {r m b : Nat} {u : Table} (hr : D r) (hm : D m) (hb : D b) (hview : h.Views r m b u)
    (hget : ∀ k, u.get k = t.get k) : ReadsLike D t h r

/-- Values that are no tables have no metamethods but the arithmetic of strings, and strings are
read like a table `t`. The tables that are looked at for that lie within a part of the heap. -/
structure Usual (D : Nat → Prop) (t : Table) (h : Heap) : Prop where
  within : ∀ k m, h.shared.of k = some m → D m
  metafield : ∀ v, (∀ r, v ≠ .table r) → ∀ event, event ≠ Event.index → event ≠ Event.metatable →
    h.metafield v event = v.usualField event
  index : ∃ r, ReadsLike D t h r ∧ ∀ v, (∀ r, v ≠ .table r) →
    h.metafield v Event.index = if v.kind = .string then .table r else .nil

variable {D E : Nat → Prop} {t : Table} {g h : Heap}

theorem getValue_congr {t u : Table} (hget : ∀ k, u.get k = t.get k) (v : Value) :
    u.getValue v = t.getValue v := by
  unfold Table.getValue
  cases v.toKey? with
  | none => rfl
  | some k => exact hget k

theorem ReadsLike.congr {r : Nat} (hr : h.ReadsLike D t r)
    (htable : ∀ r, D r → g.table r = h.table r) :
    g.ReadsLike D t r := by
  cases hr with
  | plain hr hmeta hget => exact .plain hr (htable r hr ▸ hmeta) (htable r hr ▸ hget)
  | view hr hm hb hview hget =>
    exact .view hr hm hb ⟨(htable _ hr).trans hview.proxy, (htable _ hm).trans hview.metatable,
      (htable _ hb).trans hview.backing, hview.plain⟩ hget

theorem ReadsLike.mono {r : Nat} (hr : h.ReadsLike D t r) (hDE : ∀ r, D r → E r) :
    h.ReadsLike E t r := by
  cases hr with
  | plain hr hmeta hget => exact .plain (hDE _ hr) hmeta hget
  | view hr hm hb hview hget => exact .view (hDE _ hr) (hDE _ hm) (hDE _ hb) hview hget

/-- What is read from such a table. -/
theorem ReadsLike.indexFrom {r : Nat} (hr : h.ReadsLike D t r) (fuel : Nat) (which : Option Nat)
    (key : Value) :
    Operation.indexFrom (fuel + 2) which (.table r) key h = .done h (t.getValue key) := by
  cases hr with
  | plain _ hmeta hget =>
    rw [← getValue_congr hget]
    unfold Operation.indexFrom
    dsimp only
    rw [hmeta]
    cases hv : (h.table r).getValue key <;> rfl
  | view _ _ _ hview hget => rw [hview.indexFrom_view, getValue_congr hget]

theorem metafield_of_ne (h : Heap) {v : Value} (hv : ∀ r, v ≠ .table r) (event : ByteArray) :
    h.metafield v event =
      ((h.shared.of v.kind).map fun m => (h.table m).get (.str event)).getD .nil := by
  unfold metafield
  rw [metatable?_of_ne h hv]
  cases h.shared.of v.kind with
  | none => rfl
  | some m => exact getKey_eq h m _

/-- Only the metatables of the basic types and the tables that strings are read through matter. -/
theorem Usual.congr (hh : h.Usual D t) (hshared : g.shared = h.shared)
    (htable : ∀ r, D r → g.table r = h.table r) : g.Usual D t := by
  have hfield (v : Value) (hv : ∀ r, v ≠ .table r) (event : ByteArray) :
      g.metafield v event = h.metafield v event := by
    rw [metafield_of_ne g hv, metafield_of_ne h hv, hshared]
    cases hm : h.shared.of v.kind with
    | none => rfl
    | some m => rw [Option.map_some, Option.map_some, htable m (hh.within _ m hm)]
  obtain ⟨r, hr, hindex⟩ := hh.index
  refine ⟨fun k m hm => hh.within k m (hshared ▸ hm), fun v hv event hne hne' => ?_, r,
    hr.congr htable, fun v hv => ?_⟩
  · rw [hfield v hv, hh.metafield v hv event hne hne']
  · rw [hfield v hv, hindex v hv]

/-- A string is read like the library. -/
theorem Usual.index_str (hh : h.Usual D t) (s : ByteArray) (key : Value) :
    Operation.index (.str s) key h = .done h (t.getValue key) := by
  obtain ⟨r, hr, hindex⟩ := hh.index
  have hfield : h.metafield (.str s) Event.index = .table r := hindex _ fun r hv => by cases hv
  -- the metatable of strings is one link of the chain
  have hread := hr.indexFrom 1997 none key
  unfold Operation.index Operation.chainLimit Operation.indexFrom
  dsimp only
  rw [hfield]
  exact hread

/-- Other values that are no tables can not be read. -/
theorem Usual.index_of_ne (hh : h.Usual D t) {v : Value} (hv : ∀ r, v ≠ .table r)
    (hstr : v.kind ≠ .string) (key : Value) :
    Operation.index v key h = Operation.wrongType "index" v (some 0) h := by
  obtain ⟨r, -, hindex⟩ := hh.index
  have hfield := hindex v hv
  rw [if_neg hstr] at hfield
  unfold Operation.index Operation.chainLimit Operation.indexFrom
  cases v with
  | table r => exact absurd rfl (hv r)
  | str s => exact absurd rfl hstr
  | _ =>
    dsimp only
    rw [hfield]

/-- No value that is no table can be written to. -/
theorem Usual.setIndex_of_ne (hh : h.Usual D t) {v : Value} (hv : ∀ r, v ≠ .table r)
    (key value : Value) :
    Operation.setIndex v key value h = Operation.wrongType "index" v (some 0) h := by
  have hfield := hh.metafield v hv Event.newindex (by decide) (by decide)
  rw [v.usualField_eq_nil _ fun op => op.event_ne.2] at hfield
  unfold Operation.setIndex Operation.chainLimit Operation.setIndexFrom
  cases v with
  | table r => exact absurd rfl (hv r)
  | _ =>
    dsimp only
    rw [hfield]

/-! ### Metatables without metamethods -/

/-- A metatable without metamethods, within a part of the heap. -/
structure IsBare (D : Nat → Prop) (h : Heap) (m : Nat) : Prop where
  within : D m
  get : ∀ event, event ≠ Event.metatable → (h.table m).get (.str event) = .nil

theorem IsBare.mono {D E : Nat → Prop} {m : Nat} (hm : h.IsBare D m) (hDE : ∀ r, D r → E r) :
    h.IsBare E m := ⟨hDE m hm.within, hm.get⟩

/-- The metatables of the basic types have no metamethods, that of strings aside. -/
def Bare (D : Nat → Prop) (h : Heap) : Prop :=
  ∀ kind ≠ .string, ∀ m, h.shared.of kind = some m → h.IsBare D m

/-- Values that are no tables behave as usual when only strings have metamethods, and when these are
those of arithmetic. -/
theorem Bare.usual (hh : h.Bare D) {m r : Nat} (hm : h.shared.string = some m) (hD : D m)
    (hfields : ∀ event, event ≠ Event.index → event ≠ Event.metatable →
      (h.table m).get (.str event) = (Table.named stringFields).get (.str event))
    (hindex : (h.table m).get (.str Event.index) = .table r) (hr : h.ReadsLike D t r) :
    h.Usual D t where
  within kind m' hm' := by
    by_cases hkind : kind = .string
    · cases hkind
      cases hm.symm.trans hm'
      exact hD
    · exact (hh kind hkind m' hm').within
  metafield v hv event hne hne' := by
    rw [metafield_of_ne h hv, Value.usualField]
    split
    · rename_i hkind
      rw [hkind, show h.shared.of .string = some m from hm]
      exact hfields event hne hne'
    · rename_i hkind
      cases hm' : h.shared.of v.kind with
      | none => rfl
      | some m' => exact (hh v.kind hkind m' hm').get event hne'
  index := by
    refine ⟨r, hr, fun v hv => ?_⟩
    rw [metafield_of_ne h hv]
    split
    · rename_i hkind
      rw [hkind, show h.shared.of .string = some m from hm]
      exact hindex
    · rename_i hkind
      cases hm' : h.shared.of v.kind with
      | none => rfl
      | some m' => exact (hh v.kind hkind m' hm').get Event.index (by decide)

end Heap

/-! ### Two heaps -/

/-- Tables of which something is known in two heaps: which metamethods they have, or how they are
read. -/
structure Known where
  fields : Nat → Prop
  reads : Nat → Prop

namespace Heap

/-- Two heaps that differ in tables and in their metatables only, as far as values are concerned. -/
structure SameRest (g h : Heap) : Prop where
  closures : h.closures = g.closures
  cells : h.cells = g.cells
  searches : h.searches = g.searches
  faults : h.faults = g.faults
  tripped : h.tripped = g.tripped
  limit : h.limit = g.limit
  place : h.place = g.place

/-- Such heaps, in which some tables have the same metamethods, and some are read alike. -/
structure Beside (T : Known) (g h : Heap) : Prop extends SameRest g h where
  fields : ∀ r, T.fields r → ∀ event, h.metafield (.table r) event = g.metafield (.table r) event
  reads : ∀ r, T.reads r → ∃ D E t, g.ReadsLike D t r ∧ h.ReadsLike E t r

/-- Two heaps in which values that are no tables behave as usual, and strings are read alike. -/
structure Alike (T : Known) (g h : Heap) : Prop extends Beside T g h where
  usual : ∃ D E t, g.Usual D t ∧ h.Usual E t

end Heap

/-- Values that have the same metamethods in both heaps. -/
def Value.Suits (T : Known) (v : Value) : Prop := ∀ r, v = .table r → T.fields r

/-- Values that are read alike in both heaps. -/
def Value.Reads (T : Known) (v : Value) : Prop := ∀ r, v = .table r → T.reads r

theorem Value.suits_of_ne {T : Known} {v : Value} (hv : ∀ r, v ≠ .table r) : v.Suits T :=
  fun r hr => absurd hr (hv r)

theorem Value.reads_of_ne {T : Known} {v : Value} (hv : ∀ r, v ≠ .table r) : v.Reads T :=
  fun r hr => absurd hr (hv r)

theorem Value.suits_str {T : Known} (s : ByteArray) : (Value.str s).Suits T :=
  suits_of_ne fun _ hr => by cases hr

namespace Heap.Alike

variable {T : Known} {g h : Heap}

/-- Only the tables and the metatables of the basic types matter. -/
theorem congr {g' h' : Heap} (hgh : g.Alike T h) (hg : g'.tables = g.tables)
    (hg' : g'.shared = g.shared) (hh : h'.tables = h.tables) (hh' : h'.shared = h.shared)
    (hrest : g'.SameRest h') : g'.Alike T h' := by
  have htable {f f' : Heap} (hf : f'.tables = f.tables) (r : Nat) : f'.table r = f.table r := by
    rw [Heap.table, Heap.table, hf]
  have hfield {f f' : Heap} (hf : f'.tables = f.tables) (r : Nat) (event : ByteArray) :
      f'.metafield (.table r) event = f.metafield (.table r) event := by
    simp only [Heap.metafield, Heap.metatable?, Heap.getKey, hf]
  obtain ⟨D, E, t, hD, hE⟩ := hgh.usual
  refine ⟨⟨hrest, fun r hr event => ?_, fun r hr => ?_⟩, D, E, t,
    hD.congr hg' fun r _ => htable hg r,
    hE.congr hh' fun r _ => htable hh r⟩
  · rw [hfield hg, hfield hh]
    exact hgh.fields r hr event
  · obtain ⟨D, E, t, hD, hE⟩ := hgh.reads r hr
    exact ⟨D, E, t, hD.congr fun r _ => htable hg r, hE.congr fun r _ => htable hh r⟩

theorem countString (hgh : g.Alike T h) (n : Nat) : (g.countString n).Alike T (h.countString n) :=
  hgh.congr rfl rfl rfl rfl { hgh.toSameRest with }

theorem newCell (hgh : g.Alike T h) (v : Value) :
    (g.newCell v).1.Alike T (h.newCell v).1 ∧ (h.newCell v).2 = (g.newCell v).2 :=
  ⟨hgh.congr rfl rfl rfl rfl { hgh.toSameRest with cells := congrArg (·.push v) hgh.cells },
    congrArg Array.size hgh.cells⟩

theorem newClosure (hgh : g.Alike T h) (c : Closure) :
    (g.newClosure c).1.Alike T (h.newClosure c).1 ∧ (h.newClosure c).2 = (g.newClosure c).2 :=
  ⟨hgh.congr rfl rfl rfl rfl { hgh.toSameRest with closures := congrArg (·.push c) hgh.closures },
    congrArg Array.size hgh.closures⟩

theorem newSearch (hgh : g.Alike T h) (s : Search) :
    (g.newSearch s).1.Alike T (h.newSearch s).1 ∧ (h.newSearch s).2 = (g.newSearch s).2 :=
  ⟨hgh.congr rfl rfl rfl rfl { hgh.toSameRest with searches := congrArg (·.push s) hgh.searches },
    congrArg Array.size hgh.searches⟩

theorem setSearch (hgh : g.Alike T h) (r : Nat) (s : Search) :
    Alike T { g with searches := g.searches.set! r s } { h with searches := h.searches.set! r s } :=
  hgh.congr rfl rfl rfl rfl
    { hgh.toSameRest with searches := congrArg (·.set! r s) hgh.searches }

theorem newFault (hgh : g.Alike T h) (f : HostFault) :
    (g.newFault f).1.Alike T (h.newFault f).1 ∧ (h.newFault f).2 = (g.newFault f).2 :=
  ⟨hgh.congr rfl rfl rfl rfl { hgh.toSameRest with faults := congrArg (·.push f) hgh.faults },
    congrArg Array.size hgh.faults⟩

/-- The metamethods of a value are the same; how it is read is not among them. -/
theorem metafield (hgh : g.Alike T h) {v : Value} (hv : v.Suits T) (event : ByteArray)
    (hindex : event ≠ Event.index) (hmeta : event ≠ Event.metatable) :
    h.metafield v event = g.metafield v event := by
  by_cases hr : ∃ r, v = .table r
  · obtain ⟨r, rfl⟩ := hr
    exact hgh.fields r (hv r rfl) event
  · have hne : ∀ r, v ≠ .table r := fun r heq => hr ⟨r, heq⟩
    obtain ⟨D, E, t, hD, hE⟩ := hgh.usual
    rw [hE.metafield v hne event hindex hmeta, hD.metafield v hne event hindex hmeta]

theorem metafield_name (hgh : g.Alike T h) {v : Value} (hv : v.Suits T) :
    h.metafield v Event.name = g.metafield v Event.name :=
  hgh.metafield hv _ (by decide) (by decide)

theorem typeName (hgh : g.Alike T h) {v : Value} (hv : v.Suits T) :
    h.typeName v = g.typeName v := by
  unfold Heap.typeName
  rw [hgh.metafield_name hv]

theorem objectText (hgh : g.Alike T h) {v : Value} (hv : v.Suits T) :
    Operation.objectText h v = Operation.objectText g v := by
  unfold Operation.objectText
  rw [hgh.metafield_name hv, hgh.place]

theorem plainText (hgh : g.Alike T h) {v : Value} (hv : v.Suits T) :
    Operation.plainText h v = Operation.plainText g v := by
  unfold Operation.plainText
  simp only [hgh.faults]
  split <;> first | rfl | rw [hgh.objectText hv]

theorem argumentName (hgh : g.Alike T h) (args : List Value) (n : Nat)
    (hv : (Argument.get args n).Suits T) :
    Argument.typeName h args n = Argument.typeName g args n := by
  unfold Argument.typeName
  rw [hgh.metafield_name hv]

end Heap.Alike

end StoryPack.Script
