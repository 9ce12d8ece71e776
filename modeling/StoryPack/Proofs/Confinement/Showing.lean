/-
Views show their scopes for good.

What a script leaves has no key twice, so that its view spells it.  The tables
that are looked at for that are fixed together with the view.  Therefore the
view shows its scope in every later heap as well.

* `Heap.Shows` — a view that spells a scope within what is fixed;
* `Heap.Shows.lasts` — which it does as long as that is kept;
* `Host.takeScope_keyed`, `Host.takeScope_eq_error` — what a script leaves;
* `Host.freeze_shows` — a view that is added shows its scope.
-/
import StoryPack.Proofs.Confinement.Host
import StoryPack.Proofs.Scope.Diagnosis

namespace StoryPack

open Script

variable {W W' : Ward} {host host' : Host}

/-- A view of a ward that spells a scope, within what is fixed. -/
structure Script.Heap.Shows (W : Ward) (h : Heap) (view : Nat) (scope : Scope.Table) : Prop where
  isSome : (W.views view).isSome
  spells : h.Spells (fun r => (W.tables r).isSome) (.table view) scope.value

namespace Script.Heap.Shows

variable {h h' : Heap} {view : Nat} {scope : Scope.Table}

/-- Scripts may hold such a view. -/
theorem ok (hv : h.Shows W view scope) (hk : h.Kept W) : (Value.table view).Ok W h.tables.size := by
  obtain ⟨⟨m, b⟩, hview⟩ := Option.isSome_iff_exists.mp hv.isSome
  exact ⟨hk.view_lt hview, .inr hv.isSome⟩

/-- It shows the scope as long as it is fixed. -/
theorem lasts (hv : h.Shows W view scope) (hk : h.Kept W) (hk' : h'.Kept W')
    (hle : W'.Contains W) : h'.Shows W' view scope where
  isSome := by
    obtain ⟨p, hp⟩ := Option.isSome_iff_exists.mp hv.isSome
    rw [hle.views hp]
    rfl
  spells := by
    refine (hv.spells.congr fun r hr => hk.table_eq hk' hle hr).mono fun r hr => ?_
    obtain ⟨t, ht⟩ := Option.isSome_iff_exists.mp hr
    rw [hle.tables ht]
    rfl

theorem views (hv : h.Shows W view scope) (hk : h.Kept W) : ∃ m b t, h.Views view m b t := by
  obtain ⟨⟨m, b⟩, hview⟩ := Option.isSome_iff_exists.mp hv.isSome
  obtain ⟨t, hviews, -⟩ := hk.views_of_view hview
  exact ⟨m, b, t, hviews⟩

end Script.Heap.Shows

/-- The tables that scripts hold are sound, and hold only what scripts may hold. -/
theorem Script.Heap.Kept.soundBelow {h : Heap} (hk : h.Kept W) :
    h.SoundBelow (Value.Ok W h.tables.size) where
  sound _ hr := hk.sound_of_readable (hk.readThrough_readable hr)
  values _ k hr := (hk.holds_of_readable (hk.readThrough_readable hr)).get (admits_ok W _) k

namespace Host

/-- The scope that is taken is the snapshot of the table that the name holds. -/
theorem takeScope_eq_ok {sandbox : Sandbox} {scope label : String} {t : Scope.Table}
    (ht : host.takeScope sandbox scope label = .ok t) :
    ∃ r, host.get sandbox scope = .table r ∧ host.heap.snapshot r = .ok t := by
  unfold takeScope at ht
  split at ht
  · split at ht
    · cases ht
      exact ⟨_, ‹_›, ‹_›⟩
    · cases ht
  · cases ht

/-- What a script leaves has no key twice. -/
theorem takeScope_keyed (hh : host.Confined W) {sandbox : Sandbox}
    (henv : (Value.table sandbox.env).Ok W host.heap.tables.size) {scope label : String}
    {t : Scope.Table} (ht : host.takeScope sandbox scope label = .ok t) : t.Keyed := by
  obtain ⟨r, hr, hsnapshot⟩ := takeScope_eq_ok ht
  have hget := get_ok hh henv scope
  rw [hr] at hget
  exact (hh.kept.soundBelow.spells_of_snapshot hget hsnapshot).1.keyed

/-- When no scope is taken, its name holds no table, or the fault says what stands in the way of a
snapshot. -/
theorem takeScope_eq_error (hh : host.Confined W) {sandbox : Sandbox}
    (henv : (Value.table sandbox.env).Ok W host.heap.tables.size) {scope label : String}
    {fault : ScriptFault} (hf : host.takeScope sandbox scope label = .error fault) :
    (∀ r, host.get sandbox scope ≠ .table r) ∨ ∃ r f, host.get sandbox scope = .table r ∧
      host.heap.Impedes r f ∧ fault = .runtime label f.shown := by
  have hget := get_ok hh henv scope
  unfold takeScope at hf
  split at hf
  · rename_i r hr
    rw [hr] at hget
    split at hf
    · cases hf
    · rename_i f hsnapshot
      cases hf
      exact .inr ⟨r, f, hr, hh.kept.soundBelow.impedes hget hsnapshot, rfl⟩
  · rename_i hnone
    exact .inl hnone

/-- Where there is no limit, there is memory for a view. -/
theorem freeze_of_limit (hlimit : host.heap.limit = none) {t : Scope.Table} (hkeyed : t.Keyed)
    (roots : List Value) : host.freeze t roots =
      (host.withHeap (host.heap.freeze t).1, .ok (host.heap.freeze t).2) := by
  obtain ⟨hextends, -⟩ := host.heap.freeze_spells hkeyed
  have hfree : (host.heap.freeze t).1.limit = none := hextends.limit.trans hlimit
  exact (host.withHeap (host.heap.freeze t).1).afford_of_limit hfree _ _

/-- A view that is added shows its scope. -/
theorem freeze_shows (hh : host.Confined W) {t : Scope.Table} (hkeyed : t.Keyed)
    (ht : t.Within fun f => (Value.function f).Ok W host.heap.tables.size) {roots : List Value}
    {v : Nat} (hv : host.freeze t roots = (host', .ok v)) :
    host'.heap.Shows (frozenWard W host t) v t := by
  obtain ⟨-, -, hfollows, -, hview, -⟩ := freeze_kept hh ht roots
  rw [hv] at hfollows hview
  obtain ⟨rfl, hview⟩ := hview v rfl
  -- the ward has been made larger by all tables that have been added
  have hfixed {r : Nat} (hr : Heap.Added host.heap (host.heap.freeze t).1 r) :
      (frozenWard W host t).tables r = some ((host.heap.freeze t).1.table r) := by
    have htable : (frozenWard W host t).tables r = (host.heap.freeze t).1.tables[r]? :=
      if_neg (Nat.not_lt.mpr hr.1)
    rw [htable, Heap.getElem?_tables _ hr.2]
  obtain ⟨-, hspells⟩ := host.heap.freeze_spells hkeyed
  refine ⟨hview.2 _ rfl, (hspells.congr fun r hr => ?_).mono fun r hr => ?_⟩
  · exact hfollows.kept.table_of_fixed (hfixed hr)
  · rw [hfixed hr]
    rfl

end Host

end StoryPack
