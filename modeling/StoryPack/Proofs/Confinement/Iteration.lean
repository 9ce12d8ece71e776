/-
The functions that loops iterate with.

A loop asks for a function and calls it with the table and the last key.  For a
view this is the reader of the sandbox, by the metamethod of views.  For a table
without such a metamethod it is the function of the base library, which does not
look through views.  On the table of the loop both give the same.  On a view the
function of the base library sees the empty table that stands there, and so comes
to nothing: it matters with which of the two a loop over a view was begun.

* `Heap.finds_pairs_of_plain` — the function for a table without a metamethod;
* `Heap.run_next_of_plain` — it gives what the reader of the sandbox gives there;
* `Heap.Views.traverses_base` — in a view it comes to nothing;
* `Session.views_iterate` — the two functions on the view of a scope, for good.
-/
import StoryPack.Proofs.Confinement.Mirroring

namespace StoryPack

namespace Script

/-- Nothing is found in an empty table, which has no keys. -/
theorem Table.after_empty (m : Option Nat) (k : Option Key) :
    Table.after { metatable := m } k = if k.isNone then .done else .invalid := by
  cases k with
  | none =>
    show fromArray _ 0 = _
    unfold fromArray
    rw [dif_neg (show ¬ 0 < #[].size from Nat.lt_irrefl 0)]
    unfold fromSlot
    exact dif_neg (Nat.lt_irrefl 0)
  | some k =>
    have hplace : Table.arrayPlace? { metatable := m } k = none := by
      refine Option.eq_none_iff_forall_ne_some.mpr fun n hn => ?_
      have hlt := ((arrayPlace?_eq_some_iff (show #[].size < 0x8000000000000000 by decide)).mp hn).2
      exact absurd hlt (Nat.not_lt_zero n)
    have hindex : ({ metatable := m } : Table).index[k]? = none := Std.HashMap.getElem?_empty
    rw [after_some, hplace, hindex]
    rfl

theorem Table.following_empty (m : Option Nat) (k : Value) :
    Table.following { metatable := m } k = if k.isNil then .done else .invalid := by
  cases k with
  | nil => exact after_empty m none
  | _ =>
    unfold following
    dsimp only
    split
    · exact after_empty m _
    · rfl

namespace Heap

variable {h : Heap} {r : Nat}

/-- A loop over a table without a metamethod for loops iterates with the function of the base
library. -/
theorem finds_pairs_of_plain (hr : h.metafield (.table r) Event.pairs = .nil) :
    ((Builtin.base .pairs).run [.table r] h).Finds h
      [.builtin (.base .next), .table r, .nil] := by
  have hread : Action.read (fun h => h.metafield (.table r) Event.pairs) h = .done h .nil :=
    congrArg (Run.done h) hr
  have hpresent : Argument.present [.table r] 1 h = .done h (.table r) := rfl
  have hrun : (Builtin.base .pairs).run [.table r] h =
      .done h [.builtin (.base .next), .table r, .nil] := by
    unfold Builtin.run Library.runBase
    dsimp only
    rw [Action.bind_apply, hpresent]
    show (Action.read (fun h => h.metafield (.table r) Event.pairs) >>= _) h = _
    rw [Action.bind_apply, hread]
    rfl
  rw [hrun]
  exact .done _

theorem run_next_base (h : Heap) (r : Nat) (k : Value) :
    (Builtin.base .next).run [.table r, k] h = Run.ofFollowing h ((h.table r).following k) := rfl

theorem run_next_view (h : Heap) (r : Nat) (k : Value) :
    (Builtin.view .next).run [.table r, k] h =
      (Run.ofFollowing h ((h.table (h.readThrough r)).following k)).relabeled := rfl

/-- On a table that is no view the function of the base library gives what the reader of sandboxes
gives; an invalid key is a failure of the host there. -/
theorem run_next_of_plain (hr : h.backing? r = none) (k : Value) :
    (Builtin.view .next).run [.table r, k] h =
      ((Builtin.base .next).run [.table r, k] h).relabeled := by
  rw [run_next_view, run_next_base, readThrough, hr, Option.getD_none]

namespace Views

variable {v m b : Nat} {t : Table} {scope : Scope.Table}

/-- The function of the base library finds nothing in a view, and knows no key of it. -/
theorem run_next_base (hv : h.Views v m b t) (k : Value) :
    (Builtin.base .next).run [.table v, k] h =
      Run.ofFollowing h (if k.isNil then .done else .invalid) := by
  rw [Heap.run_next_base, hv.proxy, Table.following_empty]

/-- A loop over a view that was begun with another table comes to nothing. -/
theorem traverses_base (hv : h.Views v m b t) : h.Traverses (.base .next) (.table v) .nil [] := by
  refine .done ?_
  rw [hv.run_next_base]
  exact .done _

end Views

/-- The functions that iterate over the view of a scope: the one for the view itself comes to each
key of the scope, the one for tables without a metamethod to none. -/
structure Iterates (h : Heap) (v : Nat) (scope : Scope.Table) : Prop where
  own : ((Builtin.base .pairs).run [.table v] h).Finds h [.builtin (.view .next), .table v, .nil]
  entries : ∃ items, h.Traverses (.view .next) (.table v) .nil items ∧
    (scope.entries.map (·.1.toScript.toValue)).Perm (items.map (·.1))
  other : ∀ r, h.metafield (.table r) Event.pairs = .nil →
    ((Builtin.base .pairs).run [.table r] h).Finds h [.builtin (.base .next), .table r, .nil]
  none : h.Traverses (.base .next) (.table v) .nil []

theorem Views.iterates {v m b : Nat} {t : Table} {scope : Scope.Table} (hv : h.Views v m b t)
    (ht : t.Carries scope) : h.Iterates v scope where
  own := hv.finds_pairs
  entries := by
    obtain ⟨items, htraverses, hperm⟩ := (hv.reads ht).next
    refine ⟨items, htraverses, ?_⟩
    have hkeys := hperm.map (·.1)
    rwa [List.map_map] at hkeys
  other _ hr := finds_pairs_of_plain hr
  none := hv.traverses_base

/-- What a ward keeps of a view that spells a scope. -/
theorem Kept.iterates {W : Ward} {D : Nat → Prop} {v : Nat}
    {entries : List (Scope.Key × Scope.Value)} (hk : h.Kept W)
    (hspells : h.Spells D (.table v) (.table entries)) (hv : (Value.table v).Settled W) :
    h.Iterates v ⟨entries⟩ := by
  cases hspells with
  | leaf hw => cases hw
  | table hr hsound hnodup hvalues hothers =>
    rename_i b
    obtain ⟨⟨m, b'⟩, hview⟩ := Option.isSome_iff_exists.mp (hv.2 v rfl)
    obtain ⟨t, hviews, -⟩ := hk.views_of_view hview
    obtain rfl : b' = b := hviews.readThrough.symm.trans hr.reads
    obtain rfl : h.table b' = t := hviews.backing
    exact hviews.iterates (carries_of_spells hsound hnodup hvalues hothers)

end Heap

end Script

open Script

namespace Session

/-- Whatever the owner of a host does after the view of a scope has been made, and however far a
script is, a loop over the view comes to the entries of the scope when it was begun with the view,
and to nothing when it was begun with a table that has no metamethod for loops. -/
theorem views_iterate {limit : Option Nat} {host : Host} (hhost : Host.new limit = .ok host)
    {s : Session} (hs : (start host).Reaches s) {t : Scope.Table} (hkeyed : t.Keyed)
    (ht : t.Within fun f => s.Known (.function f)) {roots : List Value} {host' : Host} {v : Nat}
    (hv : s.host.freeze t roots = (host', .ok v)) {s' : Session}
    (hs' : Session.Reaches { s with host := host', views := v :: s.views } s') :
    s'.host.heap.Iterates v t ∧ ∀ σ : State, s'.Runs σ → σ.heap.Iterates v t := by
  obtain ⟨W, -, hconfined⟩ := (start_confined (Host.fresh_of_new hhost)).reaches hs
  have hfrozen := (hconfined.freeze ht roots).1
  rw [hv] at hfrozen
  obtain ⟨W', hle, hlater⟩ := hfrozen.reaches hs'
  have hwithin := Scope.Value.entriesWithin.mono (fun f hf => hconfined.known hf) t.entries ht
  have hshows := Host.freeze_shows hconfined.host hkeyed hwithin hv
  have hiterates {h : Heap} (hk : h.Kept W') : h.Iterates v t := by
    have hlast := hshows.lasts hfrozen.host.kept hk hle
    obtain ⟨⟨m, b⟩, hview⟩ := Option.isSome_iff_exists.mp hlast.isSome
    obtain ⟨u, hviews, -⟩ := hk.views_of_view hview
    exact hk.iterates hlast.spells (hk.settled_of_views hviews)
  exact ⟨hiterates hlater.host.kept, fun σ hσ => hiterates (hlater.runs hσ).heap⟩

end Session

end StoryPack
