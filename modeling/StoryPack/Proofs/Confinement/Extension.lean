/-
Wards that grow.

What freezing adds to a heap can be fixed as well.  Scripts do not hold any of
it yet, so the values that they hold stay among those that they may hold.

* `Heap.viewAt` — the metatable and the backing table of a table that is a view;
* `Ward.extend` — a ward with all tables from some place on;
* `Heap.Kept.extend` — the larger ward is kept.
-/
import StoryPack.Proofs.Confinement.Freeze

namespace StoryPack.Script

variable {W : Ward} {n : Nat} {g h : Heap} {F : Function → Prop}

namespace Heap

theorem getElem?_tables (h : Heap) {r : Nat} (hr : r < h.tables.size) :
    h.tables[r]? = some (h.table r) := by
  rw [table, Array.getElem?_eq_getElem hr]
  rfl

theorem lt_of_metatable {r m : Nat} (hm : (h.table r).metatable = some m) :
    r < h.tables.size := by
  rcases Nat.lt_or_ge r h.tables.size with hlt | hge
  · exact hlt
  · rw [table, Array.getElem?_eq_none hge] at hm
    cases hm

/-- The metatable of a table, and the table that it is indexed through. -/
def viewAt (h : Heap) (r : Nat) : Option (Nat × Nat) :=
  match (h.table r).metatable with
  | some m =>
    match h.getKey m (.str Event.index) with
    | .table b => some (m, b)
    | _ => none
  | none => none

theorem viewAt_of_view {r m b : Nat} (hr : (h.table r).metatable = some m)
    (hm : h.table m = viewMetatable b (.bool false)) : h.viewAt r = some (m, b) := by
  have hindex : h.getKey m (.str Event.index) = .table b := by
    rw [getKey_eq, hm, viewMetatable_index]
  simp only [viewAt, hr, hindex]

theorem viewAt_of_isNone {r : Nat} (hr : (h.table r).metatable = none) : h.viewAt r = none := by
  simp only [viewAt, hr]

theorem backing?_of_view {r m b : Nat} (hr : (h.table r).metatable = some m)
    (hm : h.table m = viewMetatable b (.bool false)) : h.backing? r = some b := by
  have hmark : h.getKey m (.str viewMark) = .bool true := by
    rw [getKey_eq, hm, viewMetatable_mark]
  have hindex : h.getKey m (.str Event.index) = .table b := by
    rw [getKey_eq, hm, viewMetatable_index]
  simp only [backing?, hr, hmark, hindex]

/-- What is taken for a view has a metatable with the mark. -/
theorem marked_of_backing? {r : Nat} (hr : (h.backing? r).isSome) :
    ∃ m, (h.table r).metatable = some m ∧ (h.table m).get (.str viewMark) ≠ .nil := by
  unfold backing? at hr
  cases hm : (h.table r).metatable with
  | none =>
    rw [hm] at hr
    cases hr
  | some m =>
    refine ⟨m, rfl, fun hnil => ?_⟩
    simp only [hm, getKey_eq, hnil] at hr
    cases hr

theorem readThrough_of_view {r m b : Nat} (hr : (h.table r).metatable = some m)
    (hm : h.table m = viewMetatable b (.bool false)) : h.readThrough r = b := by
  rw [readThrough, backing?_of_view hr hm]
  rfl

theorem readThrough_of_isNone {r : Nat} (hr : (h.table r).metatable = none) :
    h.readThrough r = r := by
  simp only [readThrough, backing?, hr, Option.getD_none]

/-- A table that has a metatable is a view of a backing table. -/
theorem Viewed.viewAt (hviewed : h.Viewed F n) {r : Nat} (hr : n ≤ r) {p : Nat × Nat}
    (hp : h.viewAt r = some p) :
    h.tables[r]? = some { metatable := some p.1 } ∧ n ≤ p.1 ∧
      h.tables[p.1]? = some (viewMetatable p.2 (.bool false)) ∧ h.viewAt p.1 = none ∧
      h.Backs F n p.2 ∧ h.viewAt p.2 = none := by
  cases hm : (h.table r).metatable with
  | none =>
    rw [viewAt_of_isNone hm] at hp
    cases hp
  | some m =>
    obtain ⟨hview, hnm, hlt, b, hmeta, hback⟩ := hviewed r m hr hm
    rw [viewAt_of_view hm hmeta] at hp
    cases hp
    refine ⟨?_, hnm, ?_, ?_, hback, viewAt_of_isNone hback.metatable⟩
    · rw [getElem?_tables h (lt_of_metatable hm), hview]
    · rw [getElem?_tables h hlt, hmeta]
    · exact viewAt_of_isNone (hmeta ▸ metatable_viewMetatable b _)

theorem Viewed.isSome_viewAt (hviewed : h.Viewed F n) {r m : Nat} (hr : n ≤ r)
    (hm : (h.table r).metatable = some m) : ∃ b, h.viewAt r = some (m, b) := by
  obtain ⟨-, -, -, b, hmeta, -⟩ := hviewed r m hr hm
  exact ⟨b, viewAt_of_view hm hmeta⟩

end Heap

/-- The ward to which all tables of a heap from `n` on are added. -/
def Ward.extend (W : Ward) (n : Nat) (g : Heap) : Ward :=
  { W with
    tables := fun r => if r < n then W.tables r else g.tables[r]?
    views := fun r => if r < n then W.views r else g.viewAt r
    size := g.tables.size }

namespace Heap.Kept

theorem view_lt (hk : h.Kept W) {r : Nat} {p : Nat × Nat} (hr : W.views r = some p) :
    r < h.tables.size :=
  hk.lt_of_fixed (hk.sound.view (m := p.1) (b := p.2) hr).1

theorem extend_tables (hk : h.Kept W) {r : Nat} {t : Table} (hr : W.tables r = some t) :
    (W.extend h.tables.size g).tables r = some t :=
  (if_pos (hk.lt_of_fixed hr)).trans hr

theorem extend_views (hk : h.Kept W) {r : Nat} {p : Nat × Nat} (hr : W.views r = some p) :
    (W.extend h.tables.size g).views r = some p :=
  (if_pos (hk.view_lt hr)).trans hr

theorem extend_notView (hk : h.Kept W) {r : Nat} {t : Table} (ht : W.tables r = some t)
    (hr : W.views r = none) : (W.extend h.tables.size g).views r = none :=
  (if_pos (hk.lt_of_fixed ht)).trans hr

/-- Scripts may hold what they could hold before. -/
theorem extend_ok (hext : h.Extends g) {v : Value} (hv : v.Ok W h.tables.size) :
    v.Ok (W.extend h.tables.size g) g.tables.size := by
  cases v with
  | table r =>
    refine ⟨Nat.lt_of_lt_of_le hv.1 hext.size, ?_⟩
    rcases hv.2 with hfree | hview
    · exact .inl ((if_pos hv.1).trans hfree)
    · exact .inr ((congrArg Option.isSome (if_pos hv.1)).trans hview)
  | function f => cases f <;> exact hv
  | _ => trivial

theorem extend_settled (hk : h.Kept W) (hext : h.Extends g) {v : Value} (hv : v.Settled W) :
    v.Settled (W.extend h.tables.size g) := by
  refine ⟨extend_ok hext (hv.1.mono hk.size), fun r hr => ?_⟩
  obtain ⟨p, hp⟩ := Option.isSome_iff_exists.mp (hv.2 r hr)
  rw [hk.extend_views hp]
  rfl

/-- What freezing has put into backing tables is settled. -/
theorem extend_frozen (hviewed : g.Viewed (fun f => (Value.function f).Ok W h.tables.size)
    h.tables.size) {v : Value}
    (hv : v.Frozen (fun f => (Value.function f).Ok W h.tables.size) h.tables.size g) :
    v.Settled (W.extend h.tables.size g) := by
  cases v with
  | table r =>
    obtain ⟨m, hm⟩ := Option.isSome_iff_exists.mp hv.2.2
    obtain ⟨b, hb⟩ := hviewed.isSome_viewAt hv.1 hm
    have hview : ((W.extend h.tables.size g).views r).isSome := by
      rw [show (W.extend h.tables.size g).views r = g.viewAt r from
        if_neg (Nat.not_lt.mpr hv.1), hb]
      rfl
    refine ⟨⟨hv.2.1, .inr hview⟩, fun r' hr' => ?_⟩
    cases hr'
    exact hview
  | function f =>
    refine ⟨?_, fun r hr => by cases hr⟩
    cases f <;> exact hv
  | _ => exact ⟨trivial, fun r hr => by cases hr⟩

theorem sound_extend (hk : h.Kept W) (hext : h.Extends g)
    (hviewed : g.Viewed (fun f => (Value.function f).Ok W h.tables.size) h.tables.size) :
    (W.extend h.tables.size g).Sound where
  view {r m b} hr := by
    rcases Nat.lt_or_ge r h.tables.size with hlt | hge
    · have hview := hk.sound.view ((if_pos hlt).symm.trans hr)
      obtain ⟨hr', hm, hnone, t, ht, hb, hmeta, hsound, hholds⟩ := hview
      exact ⟨hk.extend_tables hr', hk.extend_tables hm, hk.extend_notView hm hnone, t,
        hk.extend_tables ht, hk.extend_notView ht hb, hmeta, hsound,
        hholds.mono fun _ => hk.extend_settled hext⟩
    · have hview := hviewed.viewAt hge ((if_neg (Nat.not_lt.mpr hge)).symm.trans hr)
      obtain ⟨hr', hnm, hm, hnone, hback, hb⟩ := hview
      have hfix {r' : Nat} (hr' : h.tables.size ≤ r') :
          (W.extend h.tables.size g).tables r' = g.tables[r']? ∧
            (W.extend h.tables.size g).views r' = g.viewAt r' :=
        ⟨if_neg (Nat.not_lt.mpr hr'), if_neg (Nat.not_lt.mpr hr')⟩
      refine ⟨(hfix hge).1.trans hr', (hfix hnm).1.trans hm, (hfix hnm).2.trans hnone, g.table b,
        ?_, (hfix hback.lower).2.trans hb, hback.metatable, hback.sound,
        hback.holds.mono fun _ => extend_frozen hviewed⟩
      exact (hfix hback.lower).1.trans (getElem?_tables g hback.upper)
  metatable {r m t} hr ht := by
    rcases Nat.lt_or_ge r h.tables.size with hlt | hge
    · obtain ⟨b, hb⟩ := hk.sound.metatable ((if_pos hlt).symm.trans hr) ht
      exact ⟨b, hk.extend_views hb⟩
    · have hr' : g.tables[r]? = some t := (if_neg (Nat.not_lt.mpr hge)).symm.trans hr
      have htable : g.table r = t := by rw [table, hr']; rfl
      obtain ⟨b, hb⟩ := hviewed.isSome_viewAt hge (htable ▸ ht)
      exact ⟨b, (if_neg (Nat.not_lt.mpr hge)).trans hb⟩
  shared {k m} hm := by
    obtain ⟨t, ht, hnone, hget, hshown⟩ := hk.sound.shared hm
    exact ⟨t, hk.extend_tables ht, hk.extend_notView ht hnone,
      fun k => hk.extend_settled hext (hget k), hshown⟩
  globals := by
    obtain ⟨t, ht, hnone, hmeta, herror⟩ := hk.sound.globals
    exact ⟨t, hk.extend_tables ht, hk.extend_notView ht hnone, hmeta, herror⟩
  wrapper {r c f} hr := by
    obtain ⟨hne, hwraps⟩ := hk.sound.wrapper hr
    exact ⟨hne, hwraps.isRaw, hwraps.proto, hwraps.upvalues⟩
  cell := hk.sound.cell
  bound {r t} hr := by
    rcases Nat.lt_or_ge r h.tables.size with hlt | hge
    · exact Nat.lt_of_lt_of_le hlt hext.size
    · have hr' : g.tables[r]? = some t := (if_neg (Nat.not_lt.mpr hge)).symm.trans hr
      exact (Array.getElem?_eq_some_iff.mp hr').1

/-- What has been added to a heap is fixed. -/
theorem extend (hk : h.Kept W) (hext : h.Extends g)
    (hviewed : g.Viewed (fun f => (Value.function f).Ok W h.tables.size) h.tables.size) :
    g.Kept (W.extend h.tables.size g) where
  sound := hk.sound_extend hext hviewed
  size := Nat.le_refl _
  fixed {r t} hr := by
    rcases Nat.lt_or_ge r h.tables.size with hlt | hge
    · have hr' : W.tables r = some t := (if_pos hlt).symm.trans hr
      rw [getElem?_tables g (Nat.lt_of_lt_of_le hlt hext.size), hext.table r hlt,
        hk.table_of_fixed hr']
    · exact (if_neg (Nat.not_lt.mpr hge)).symm.trans hr
  free {r t} hr ht := by
    rcases Nat.lt_or_ge r h.tables.size with hlt | hge
    · have hr' : W.tables r = none := (if_pos hlt).symm.trans hr
      have htable : h.tables[r]? = some t := by
        rw [getElem?_tables h hlt, ← hext.table r hlt]
        rwa [getElem?_tables g (Nat.lt_of_lt_of_le hlt hext.size)] at ht
      have hfree := hk.free hr' htable
      exact ⟨hfree.holds.mono fun _ => extend_ok hext,
        fun m hm => extend_ok hext (hfree.metatable m hm), hfree.sound⟩
    · have hr' : g.tables[r]? = none := (if_neg (Nat.not_lt.mpr hge)).symm.trans hr
      rw [hr'] at ht
      cases ht
  fixedCell hc := hext.cells ▸ hk.fixedCell hc
  freeCell hc hv := extend_ok hext (hk.freeCell hc (hext.cells ▸ hv))
  wrapper hr := hext.closures ▸ hk.wrapper hr
  closure hr hne hc := hk.closure hr hne (hext.closures ▸ hc)
  factory := hext.closures ▸ hk.factory
  first := hext.cells ▸ hk.first
  shared := hext.shared.trans hk.shared

end Heap.Kept

end StoryPack.Script
