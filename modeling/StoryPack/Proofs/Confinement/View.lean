/-
Frozen views, as scripts see them.

A view is a table without entries.  Its metatable leads readers to a backing
table and refuses writes.  Whatever way of reading is used, it is the backing
table that is read; whatever way of writing is tried, it does not come to an end.

* `Heap.Views` — a table of a heap is a view;
* `Reading` — the ways to read, `Heap.Views.run_reading` — what they give for views;
* `Heap.chain` — the value at the end of a chain of readings.
-/
import StoryPack.Proofs.Confinement.Action
import StoryPack.Proofs.Confinement.Extension

namespace StoryPack.Script

/-- A table that is a view: its metatable is `m`, and its backing table `b` is `t`. -/
structure Heap.Views (v m b : Nat) (t : Table) (h : Heap) : Prop where
  proxy : h.table v = { metatable := some m }
  metatable : h.table m = viewMetatable b (.bool false)
  backing : h.table b = t
  plain : t.metatable = none

/-- The ways in which values are read. -/
inductive Reading where
  /-- The value of a key, through metatables. -/
  | index (key : Value)
  | rawget (key : Value)
  /-- The entry after a key. -/
  | next (key : Value)
  | rawlen
  /-- The metamethod of the length operator of views. -/
  | length
  /-- The metatable, or what stands for it. -/
  | metatable

/-- A reading of a value. -/
def Reading.run (r : Reading) (v : Value) : Action (List Value) :=
  match r with
  | .index k => do pure [← Operation.index v k]
  | .rawget k => Library.runView .rawget [v, k]
  | .next k => Library.runView .next [v, k]
  | .rawlen => Library.runView .rawlen [v]
  | .length => Library.runView .length [v]
  | .metatable => Library.getmetatable v

/-- What a course gives that has ended well. -/
def Run.values? {α : Type} : Run α → Option α
  | .done _ a => some a
  | _ => none

namespace Heap.Views

variable {v m b : Nat} {t : Table} {h : Heap}

theorem getKey_index (hv : h.Views v m b t) : h.getKey m (.str Event.index) = .table b := by
  rw [getKey_eq, hv.metatable, viewMetatable_index]

theorem readThrough (hv : h.Views v m b t) : h.readThrough v = b := by
  have hm : (h.table v).metatable = some m := by rw [hv.proxy]
  exact readThrough_of_view hm hv.metatable

theorem getValue_proxy (m : Nat) (k : Value) :
    ({ metatable := some m } : Table).getValue k = .nil := by
  unfold Table.getValue
  split
  · exact Table.get_empty 0 (some m) _
  · rfl

/-- A view is indexed through its backing table. -/
theorem indexFrom_view (hv : h.Views v m b t) (fuel : Nat) (which : Option Nat) (k : Value) :
    Operation.indexFrom (fuel + 2) which (.table v) k h = .done h (t.getValue k) := by
  unfold Operation.indexFrom
  simp only [hv.proxy, getValue_proxy, Value.isNil, hv.getKey_index]
  unfold Operation.indexFrom
  simp only [hv.backing, hv.plain]
  cases hk : (t.getValue k).isNil with
  | false => rfl
  | true =>
    cases ht : t.getValue k with
    | nil => rfl
    | _ =>
      rw [ht] at hk
      cases hk

theorem index (hv : h.Views v m b t) (k : Value) :
    Operation.index (.table v) k h = .done h (t.getValue k) :=
  hv.indexFrom_view 1998 (some 0) k

/-- Nothing but the three tables matters. -/
theorem congr (hv : h.Views v m b t) {h' : Heap}
    (hsame : ∀ r, h.table r = { metatable := some m } ∨
      h.table r = viewMetatable b (.bool false) ∨ h.table r = t → h'.table r = h.table r) :
    h'.Views v m b t where
  proxy := (hsame v (.inl hv.proxy)).trans hv.proxy
  metatable := (hsame m (.inr (.inl hv.metatable))).trans hv.metatable
  backing := (hsame b (.inr (.inr hv.backing))).trans hv.backing
  plain := hv.plain

/-- It has no values itself. -/
theorem getValue_isNil (hv : h.Views v m b t) (k : Value) :
    ((h.table v).getValue k).isNil = true := by
  rw [hv.proxy, getValue_proxy]
  rfl

end Heap.Views

/-- A table is indexed where it has a value. -/
theorem Operation.index_of_getValue {h : Heap} {r : Nat} {k v : Value}
    (hv : (h.table r).getValue k = v) (hsome : v.isNil = false) :
    Operation.index (.table r) k h = .done h v := by
  have hindex : Operation.indexFrom (1999 + 1) (some 0) (.table r) k h = .done h v := by
    unfold Operation.indexFrom
    simp only [hv, hsome, Bool.not_false, if_true]
  exact hindex

/-- The entry after a value, or the first one after `nil`. -/
def Table.following (t : Table) (k : Value) : Table.Following :=
  match k with
  | .nil => t.after none
  | k =>
    match k.toKey? with
    | some k => t.after (some k)
    | none => .invalid

theorem Table.Holds.following {P : Value → Prop} {t : Table} (ht : t.Holds P)
    (hP : Table.Admits P) (k : Value) : (t.following k).Holds P := by
  unfold Table.following
  split
  · exact ht.after hP none
  · split
    · exact ht.after hP _
    · trivial

/-- What a reading of a view finds in its backing table. -/
def Table.answer (t : Table) : Reading → Option (List Value)
  | .index k | .rawget k => some [t.getValue k]
  | .next k =>
    match t.following k with
    | .entry k v => some [k.toValue, v]
    | .done => some [.nil]
    | .invalid => none
  | .rawlen | .length => some [.int (Int64.ofNat t.length)]
  | .metatable => some [.bool false]

theorem Table.Holds.answer {P : Value → Prop} {t : Table} (ht : t.Holds P) (hP : Table.Admits P)
    (hfalse : P (.bool false)) {r : Reading} {vs : List Value} (hvs : t.answer r = some vs) :
    ∀ v ∈ vs, P v := by
  cases r with
  | index k | rawget k =>
    cases hvs
    simpa using ht.getValue hP k
  | rawlen | length =>
    cases hvs
    simpa using hP.int _
  | metatable =>
    cases hvs
    simpa using hfalse
  | next k =>
    unfold Table.answer at hvs
    dsimp only at hvs
    have hfollowing := ht.following hP k
    split at hvs
    · rename_i hentry
      rw [hentry] at hfollowing
      cases hvs
      simpa [Table.Following.Holds] using hfollowing
    · cases hvs
      simpa using hP.nil
    · cases hvs

theorem Run.values?_andThen_list (r : Run Value) :
    (r.andThen fun v h => Run.done h [v]).values? = r.values?.map fun v => [v] := by
  cases r <;> rfl

theorem Reading.run_index (v k : Value) (h : Heap) :
    ((Reading.index k).run v h).values? =
      ((Operation.index v k h).values?).map fun v => [v] := by
  rw [← Run.values?_andThen_list]
  exact congrArg Run.values? (Action.bind_apply _ _ h)

/-- What a step through a table gives. -/
def Run.ofFollowing (h : Heap) : Table.Following → Run (List Value)
  | .entry k v => .done h [k.toValue, v]
  | .done => .done h [.nil]
  | .invalid => .failed h (.operation "invalid key to 'next'".toUTF8)

/-- Failures of operations are failures of the host. -/
def Run.relabeled : Run (List Value) → Run (List Value)
  | .failed h (.operation m) => .failed h (.host (.runtime m))
  | run => run

/-- The other readings of a table look through views, but for that of its metatable. -/
theorem Reading.run_table (r : Reading) (hindex : ∀ k, r ≠ .index k) (hmeta : r ≠ .metatable)
    (c : Nat) (h : Heap) :
    (r.run (.table c) h).values? = (h.table (h.readThrough c)).answer r := by
  cases r with
  | index k => exact absurd rfl (hindex k)
  | metatable => exact absurd rfl hmeta
  | rawget k | rawlen | length => rfl
  | next k =>
    have hnext : Library.nextEntry (h.readThrough c) k h =
        Run.ofFollowing h ((h.table (h.readThrough c)).following k) := rfl
    show (Run.relabeled (Library.nextEntry (h.readThrough c) k h)).values? = _
    rw [hnext]
    unfold Table.answer
    dsimp only
    cases (h.table (h.readThrough c)).following k <;> rfl

/-- Whatever way of reading is used, it is the backing table that is read. -/
theorem Heap.Views.run_reading {v m b : Nat} {t : Table} {h : Heap} (hv : h.Views v m b t)
    (r : Reading) : (r.run (.table v) h).values? = t.answer r := by
  cases r with
  | index k =>
    rw [Reading.run_index, hv.index]
    rfl
  | metatable =>
    have hm : h.metatable? (.table v) = some m := by
      rw [metatable?_table, hv.proxy]
    have hshown : h.getKey m (.str Event.metatable) = .bool false := by
      rw [getKey_eq, hv.metatable, viewMetatable_metatable]
    simp only [Reading.run, Library.getmetatable, Action.read, hm, hshown]
    rfl
  | rawget k | rawlen | length | next k =>
    rw [Reading.run_table _ (fun _ h => by cases h) (fun h => by cases h), hv.readThrough,
      hv.backing]

/-- The value at the end of a chain of readings, each of which goes on with one of the values of the
one before. -/
def Heap.chain (h : Heap) : List (Reading × Nat) → Value → Option Value
  | [], v => some v
  | (r, i) :: rest, v => ((r.run v h).values?).bind fun vs => h.chain rest (vs.getD i .nil)

/-- A chain that begins with an index goes on with the value there. -/
theorem Heap.chain_index {h h' : Heap} {k v w : Value} (hw : Operation.index v k h = .done h' w)
    (rs : List (Reading × Nat)) : h.chain ((.index k, 0) :: rs) v = h.chain rs w := by
  rw [chain, Reading.run_index, hw]
  rfl

/-- A ward that contains another one. -/
structure Ward.Contains (W' W : Ward) : Prop where
  tables : ∀ {r : Nat} {t : Table}, W.tables r = some t → W'.tables r = some t
  views : ∀ {r : Nat} {p : Nat × Nat}, W.views r = some p → W'.views r = some p
  cells : W'.cells = W.cells
  wrappers : W'.wrappers = W.wrappers
  factory : W'.factory = W.factory
  maker : W'.maker = W.maker
  shared : W'.shared = W.shared

theorem Ward.Contains.refl (W : Ward) : W.Contains W := ⟨id, id, rfl, rfl, rfl, rfl, rfl⟩

theorem Ward.Contains.trans {W W' W'' : Ward} (h : W''.Contains W') (h' : W'.Contains W) :
    W''.Contains W :=
  ⟨fun hr => h.tables (h'.tables hr), fun hr => h.views (h'.views hr), h.cells.trans h'.cells,
    h.wrappers.trans h'.wrappers, h.factory.trans h'.factory, h.maker.trans h'.maker,
    h.shared.trans h'.shared⟩

theorem settled_bool {W : Ward} (b : Bool) : (Value.bool b).Settled W :=
  ⟨trivial, fun _ h => by cases h⟩

namespace Heap.Kept

variable {W W' : Ward} {h h' : Heap}

/-- A fixed table is the same in all heaps that keep it. -/
theorem table_eq (hk : h.Kept W) (hk' : h'.Kept W') (hle : W'.Contains W) {r : Nat}
    (hr : (W.tables r).isSome) : h'.table r = h.table r := by
  obtain ⟨t, ht⟩ := Option.isSome_iff_exists.mp hr
  rw [hk.table_of_fixed ht, hk'.table_of_fixed (hle.tables ht)]

theorem views_of_view (hk : h.Kept W) {r m b : Nat} (hr : W.views r = some (m, b)) :
    ∃ t, h.Views r m b t ∧ t.Holds (Value.Settled W) ∧ W.tables b = some t := by
  obtain ⟨hview, hm, -, t, ht, -, hplain, -, hholds⟩ := hk.sound.view hr
  exact ⟨t, ⟨hk.table_of_fixed hview, hk.table_of_fixed hm, hk.table_of_fixed ht, hplain⟩, hholds,
    ht⟩

/-- The metatable of a basic type is the same in all heaps that keep it. -/
theorem metatable?_settled (hk : h.Kept W) (hk' : h'.Kept W') (hle : W'.Contains W) {v : Value}
    (hv : ∀ r, v ≠ .table r) :
    h'.metatable? v = h.metatable? v ∧ ∀ m, h.metatable? v = some m →
      h'.table m = h.table m ∧ (∀ k, ((h.table m).get k).Settled W) ∧
        ∃ r, (h.table m).get (.str Event.metatable) = .table r := by
  rw [metatable?_of_ne h' hv, metatable?_of_ne h hv, hk'.shared, hle.shared, hk.shared]
  refine ⟨rfl, fun m hm => ?_⟩
  obtain ⟨t, ht, -, hget, hshown⟩ := hk.sound.shared hm
  rw [hk.table_eq hk' hle (by rw [ht]; rfl), hk.table_of_fixed ht]
  exact ⟨rfl, hget, hshown⟩

/-- What is read through a metafield. Functions give nothing by themselves. -/
def indexedThrough (fuel : Nat) (k : Value) (h : Heap) : Value → Option Value
  | .nil => none
  | .function _ => none
  | next => (Operation.indexFrom fuel none next k h).values?

theorem indexFrom_settled (hk : h.Kept W) (hk' : h'.Kept W') (hle : W'.Contains W) (fuel : Nat)
    (which : Option Nat) {v : Value} (hv : v.Settled W) (k : Value) :
    (Operation.indexFrom fuel which v k h').values? =
        (Operation.indexFrom fuel which v k h).values? ∧
      ∀ w, (Operation.indexFrom fuel which v k h).values? = some w → w.Settled W := by
  induction fuel generalizing which v with
  | zero => exact ⟨rfl, fun w hw => by cases hw⟩
  | succ fuel ih =>
    by_cases hr : ∃ r, v = .table r
    · obtain ⟨r, rfl⟩ := hr
      obtain ⟨⟨m, b⟩, hview⟩ := Option.isSome_iff_exists.mp (hv.2 r rfl)
      obtain ⟨t, hviews, hholds, ht⟩ := hk.views_of_view hview
      obtain ⟨t', hviews', -, ht'⟩ := hk'.views_of_view (hle.views hview)
      cases ht'.symm.trans (hle.tables ht)
      cases fuel with
      | zero =>
        have hfail {g : Heap} (hg : g.Views r m b t) :
            (Operation.indexFrom 1 which (.table r) k g).values? = none := by
          unfold Operation.indexFrom
          simp only [hg.proxy, Heap.Views.getValue_proxy, Value.isNil, hg.getKey_index]
          rfl
        rw [hfail hviews, hfail hviews']
        exact ⟨rfl, fun w hw => by cases hw⟩
      | succ fuel =>
        rw [hviews.indexFrom_view, hviews'.indexFrom_view]
        refine ⟨rfl, fun w hw => ?_⟩
        cases hw
        exact hholds.getValue (admits_settled W) k
    · -- other values are indexed through the metatable of their type
      have hfield : h'.metafield v Event.index = h.metafield v Event.index ∧
          (h.metafield v Event.index).Settled W := by
        unfold Heap.metafield
        obtain ⟨hsame, hmeta⟩ := hk.metatable?_settled hk' hle fun r heq => hr ⟨r, heq⟩
        rw [hsame]
        cases hm : h.metatable? v with
        | none => exact ⟨rfl, trivial, fun r hr => by cases hr⟩
        | some m =>
          obtain ⟨htable, hget, -⟩ := hmeta m hm
          dsimp only
          rw [getKey_eq, getKey_eq, htable]
          exact ⟨rfl, hget _⟩
      have hstep (g : Heap) : (Operation.indexFrom (fuel + 1) which v k g).values? =
          indexedThrough fuel k g (g.metafield v Event.index) := by
        cases v with
        | table r => exact absurd ⟨r, rfl⟩ hr
        | _ =>
          conv => lhs; unfold Operation.indexFrom
          dsimp only
          cases g.metafield _ Event.index with
          | nil => cases which <;> rfl
          | _ => rfl
      rw [hstep h', hstep h, hfield.1]
      unfold indexedThrough
      split
      · exact ⟨rfl, fun w hw => by cases hw⟩
      · exact ⟨rfl, fun w hw => by cases hw⟩
      · exact ih none hfield.2

/-- A reading of what is found in a view gives the same in all heaps that keep it. -/
theorem run_reading_settled (hk : h.Kept W) (hk' : h'.Kept W') (hle : W'.Contains W) (r : Reading)
    {v : Value} (hv : v.Settled W) :
    (r.run v h').values? = (r.run v h).values? ∧
      ∀ vs, (r.run v h).values? = some vs → ∀ w ∈ vs, w.Settled W := by
  by_cases hr : ∃ c, v = .table c
  · obtain ⟨c, rfl⟩ := hr
    obtain ⟨⟨m, b⟩, hview⟩ := Option.isSome_iff_exists.mp (hv.2 c rfl)
    obtain ⟨t, hviews, hholds, ht⟩ := hk.views_of_view hview
    obtain ⟨t', hviews', -, ht'⟩ := hk'.views_of_view (hle.views hview)
    cases ht'.symm.trans (hle.tables ht)
    rw [hviews.run_reading, hviews'.run_reading]
    exact ⟨rfl, fun vs hvs => hholds.answer (admits_settled W) (settled_bool false) hvs⟩
  · -- of the readings only two look at the heap for other values
    cases r with
    | metatable =>
      obtain ⟨hsame, hmeta⟩ := hk.metatable?_settled hk' hle fun r heq => hr ⟨r, heq⟩
      simp only [Reading.run, Library.getmetatable, Action.read, hsame]
      cases hm : h.metatable? v with
      | none =>
        cases v with
        | table c => exact absurd ⟨c, rfl⟩ hr
        | fault c =>
          refine ⟨rfl, fun vs hvs => ?_⟩
          cases hvs
          simpa using settled_bool false
        | _ =>
          refine ⟨rfl, fun vs hvs => ?_⟩
          cases hvs
          simpa using (admits_settled W).nil
      | some m =>
        obtain ⟨htable, hget, shown, hshown⟩ := hmeta m hm
        simp only [getKey_eq, htable, hshown]
        refine ⟨rfl, fun vs hvs => ?_⟩
        cases hvs
        simpa [hshown] using hget (.str Event.metatable)
    | index k =>
      obtain ⟨hsame, hsettled⟩ := hk.indexFrom_settled hk' hle Operation.chainLimit (some 0) hv k
      rw [Reading.run_index, Reading.run_index]
      refine ⟨congrArg (Option.map fun v => [v]) hsame, fun vs hvs => ?_⟩
      obtain ⟨w, hw, rfl⟩ := Option.map_eq_some_iff.mp hvs
      simpa using hsettled w hw
    | rawlen =>
      cases v with
      | table c => exact absurd ⟨c, rfl⟩ hr
      | str s =>
        refine ⟨rfl, fun vs hvs => ?_⟩
        cases hvs
        simpa using (admits_settled W).int _
      | _ => exact ⟨rfl, fun vs hvs => by cases hvs⟩
    | rawget k | next k | length =>
      cases v with
      | table c => exact absurd ⟨c, rfl⟩ hr
      | _ => exact ⟨rfl, fun vs hvs => by cases hvs⟩

/-- A chain of readings that starts at a view gives the same in all heaps that keep it, and the
tables that it comes to are views. -/
theorem chain_settled (hk : h.Kept W) (hk' : h'.Kept W') (hle : W'.Contains W)
    (rs : List (Reading × Nat)) {v : Value} (hv : v.Settled W) :
    h'.chain rs v = h.chain rs v ∧ ∀ w, h.chain rs v = some w → w.Settled W := by
  induction rs generalizing v with
  | nil =>
    refine ⟨rfl, fun w hw => ?_⟩
    cases hw
    exact hv
  | cons p rest ih =>
    obtain ⟨r, i⟩ := p
    obtain ⟨hsame, hsettled⟩ := hk.run_reading_settled hk' hle r hv
    unfold Heap.chain
    rw [hsame]
    cases hvs : (r.run v h).values? with
    | none => exact ⟨rfl, fun w hw => by cases hw⟩
    | some vs =>
      refine ih ?_
      rw [List.getD_eq_getElem?_getD]
      cases hi : vs[i]? with
      | none => exact (admits_settled W).nil
      | some w => exact hsettled vs hvs w (List.mem_of_getElem? hi)

/-- Tables whose metatable refuses writes are views of the ward: scripts can not hold what refuses
writes, and can not give a table such a metatable. -/
theorem view_of_deny (hk : h.Kept W) {r m : Nat} (hr : (h.table r).metatable = some m)
    (hm : (h.table m).get (.str Event.newindex) = .builtin (.view .deny)) :
    ∃ b, W.views r = some (m, b) := by
  have hfree {c : Nat} (hc : W.Exposed c) :
      (h.table c).get (.str Event.newindex) ≠ .builtin (.view .deny) := by
    intro heq
    have hok := hk.get_ok hc (.str Event.newindex)
    rw [heq] at hok
    cases hok
  cases hr' : W.tables r with
  | none => exact absurd hm (hfree ((hk.free_table hr').metatable m hr).2)
  | some t =>
    refine hk.sound.metatable hr' ?_
    rw [← hk.table_of_fixed hr']
    exact hr

end Heap.Kept

end StoryPack.Script
