/-
What the collector does.

The collector counts the bytes in use, and takes entries out of weak tables.  It
touches nothing else, and no table that holds its entries by itself.  So where no
entry vanishes, the heap is as it was, but for the count.

* `Heap.without_induction` — what each removal keeps, all of them keep;
* `Heap.collected_eq` — the collector changes tables and counts only;
* `Heap.weak_of_mem_dead` — entries vanish from weak tables;
* `Heap.getElem?_collected` — other tables are as they were;
* `Heap.collected_of_strong` — without weak tables, only the counts change;
* `Heap.Resting`, `Heap.Sheds` — where the collector does not run, no entry vanishes;
* `Host.afford_cases` — the collector between two scripts.
-/
import StoryPack.Sandbox.Host

namespace StoryPack

namespace Script

namespace Heap

/-! ### Removals -/

variable (h : Heap) (gone : List (Nat × Key)) (roots : List Value) (all : Bool)

/-- What each removal keeps, all of them keep. -/
theorem without_induction {P : Heap → Prop} (hh : P h)
    (hstep : ∀ g, ∀ e ∈ gone, P g → P (g.setKey e.1 e.2 .nil)) : P (h.without gone) := by
  induction gone generalizing h with
  | nil => exact hh
  | cons e gone ih =>
    exact ih (h.setKey e.1 e.2 .nil) (hstep h e List.mem_cons_self hh) fun g e' he' =>
      hstep g e' (List.mem_cons_of_mem _ he')

/-- Removals change only tables and the count of bytes. -/
theorem without_eq : ∃ tables used,
    h.without gone = { h with tables := tables, used := used } ∧ tables.size = h.tables.size := by
  refine h.without_induction gone (P := fun g => ∃ tables used,
    g = { h with tables := tables, used := used } ∧ tables.size = h.tables.size)
    ⟨_, _, rfl, rfl⟩ ?_
  rintro g e - ⟨tables, used, rfl, hsize⟩
  exact ⟨_, _, rfl, (Array.size_modify ..).trans hsize⟩

/-- A table from which nothing is taken is as it was. -/
theorem getElem?_without {r : Nat} (hr : ∀ e ∈ gone, e.1 ≠ r) :
    (h.without gone).tables[r]? = h.tables[r]? := by
  refine h.without_induction gone (P := fun g => g.tables[r]? = h.tables[r]?) rfl ?_
  intro g e he hg
  rw [setKey, Array.getElem?_modify, if_neg (hr e he), hg]

/-- The collector changes only tables and counts. -/
theorem collected_eq : ∃ tables used vanished,
    h.collected roots all =
      { h with tables := tables, used := used, kept := used, vanished := vanished } ∧
    tables.size = h.tables.size ∧ h.vanished <:+ vanished := by
  let gone : List (Nat × Key) := if all then (h.marked roots).dead h else []
  obtain ⟨tables, used, hwithout, hsize⟩ := h.without_eq gone
  refine ⟨tables, h.base + (h.marked roots).bytes, gone.map (·.1) ++ h.vanished, ?_, hsize,
    List.suffix_append _ _⟩
  show ({ h.without gone with
    used := h.base + (h.marked roots).bytes, kept := h.base + (h.marked roots).bytes
    vanished := gone.map (·.1) ++ h.vanished } : Heap) = _
  rw [hwithout]

@[simp] theorem tripped_collected : (h.collected roots all).tripped = h.tripped := by
  obtain ⟨tables, used, vanished, heq, -⟩ := h.collected_eq roots all
  rw [heq]

@[simp] theorem limit_collected : (h.collected roots all).limit = h.limit := by
  obtain ⟨tables, used, vanished, heq, -⟩ := h.collected_eq roots all
  rw [heq]

@[simp] theorem pace_collected : (h.collected roots all).pace = h.pace := by
  obtain ⟨tables, used, vanished, heq, -⟩ := h.collected_eq roots all
  rw [heq]

@[simp] theorem cells_collected : (h.collected roots all).cells = h.cells := by
  obtain ⟨tables, used, vanished, heq, -⟩ := h.collected_eq roots all
  rw [heq]

@[simp] theorem closures_collected : (h.collected roots all).closures = h.closures := by
  obtain ⟨tables, used, vanished, heq, -⟩ := h.collected_eq roots all
  rw [heq]

@[simp] theorem shared_collected : (h.collected roots all).shared = h.shared := by
  obtain ⟨tables, used, vanished, heq, -⟩ := h.collected_eq roots all
  rw [heq]

@[simp] theorem size_collected : (h.collected roots all).tables.size = h.tables.size := by
  obtain ⟨tables, used, vanished, heq, hsize, -⟩ := h.collected_eq roots all
  rw [heq]
  exact hsize

/-- Entries only vanish. -/
theorem vanished_collected : h.vanished <:+ (h.collected roots all).vanished :=
  List.suffix_append _ _

end Heap

/-! ### Weak tables -/

namespace Marks

variable {h : Heap} {m : Marks}

/-- The weak tables that have been reached are weak. -/
def Weakly (h : Heap) (m : Marks) : Prop := ∀ r ∈ m.weak, h.weakness (h.table r) ≠ {}

theorem weak_cells (m : Marks) (cs : Array Nat) : (cs.foldl (cell h) m).weak = m.weak := by
  refine Array.foldl_induction (fun _ (m' : Marks) => m'.weak = m.weak) rfl fun i m' hm' => ?_
  unfold cell
  split
  · exact hm'
  · exact hm'

theorem Weakly.value (hm : m.Weakly h) (v : Value) : (m.value h v).Weakly h := by
  unfold Marks.value
  split
  · split <;> exact hm
  · unfold Marks.table
    split
    · exact hm
    · dsimp only
      split
      · exact hm
      · rename_i hweak
        intro r hr
        obtain rfl | hr := List.mem_cons.mp hr
        · exact hweak
        · exact hm r hr
  · unfold Marks.closure
    split
    · exact hm
    · intro r hr
      rw [weak_cells] at hr
      exact hm r hr
  · unfold Marks.search
    split <;> exact hm
  · unfold Marks.fault
    split <;> exact hm
  · exact hm

theorem Weakly.reach (hm : m.Weakly h) (fuel : Nat) : (m.reach h fuel).Weakly h := by
  induction fuel generalizing m with
  | zero => exact hm
  | succ fuel ih =>
    unfold Marks.reach
    split
    · exact hm
    · rename_i v rest _
      exact ih (Weakly.value (m := { m with pending := rest }) hm v)

theorem Weakly.complete (hm : m.Weakly h) (rounds : Nat) : (m.complete h rounds).Weakly h := by
  induction rounds generalizing m with
  | zero => exact hm
  | succ rounds ih =>
    have hreach := hm.reach (h.reachBound + m.pending.length)
    unfold Marks.complete
    dsimp only
    split
    · exact hreach
    · exact ih (m := { m.reach h (h.reachBound + m.pending.length) with pending := _ }) hreach

end Marks

namespace Heap

variable {h : Heap} {roots : List Value} {all : Bool}

/-- Entries vanish from weak tables. -/
theorem weak_of_mem_dead {e : Nat × Key} (he : e ∈ (h.marked roots).dead h) :
    h.weakness (h.table e.1) ≠ {} ∧ ∃ v, (e.2, v) ∈ (h.table e.1).entries := by
  have hweak : (h.marked roots).Weakly h :=
    Marks.Weakly.complete (fun r hr => absurd hr List.not_mem_nil) _
  obtain ⟨r, hr, he⟩ := List.mem_flatMap.mp he
  obtain ⟨entry, hentry, rfl⟩ := List.mem_map.mp he
  exact ⟨hweak r hr, entry.2, (List.mem_filter.mp hentry).1⟩

/-- The tables that hold their entries by themselves are as they were. -/
theorem getElem?_collected {r : Nat} (hr : h.weakness (h.table r) = {}) :
    (h.collected roots all).tables[r]? = h.tables[r]? := by
  refine h.getElem?_without _ fun e he heq => ?_
  cases all with
  | false => cases he
  | true => exact (weak_of_mem_dead he).1 (heq ▸ hr)

/-- Without a metatable, a table is not weak. -/
theorem weakness_of_metatable {t : Table} (ht : t.metatable = none) : h.weakness t = {} := by
  rw [weakness, ht]

theorem table_collected {r : Nat} (hr : (h.table r).metatable = none) :
    (h.collected roots all).table r = h.table r := by
  rw [table, getElem?_collected (weakness_of_metatable hr), table]

/-- What each removal from a weak table keeps, the collector keeps, as long as it is
not about counts. -/
theorem collected_induction {P : Heap → Prop} (hh : P h)
    (hcount : ∀ g used kept vanished, P g →
      P { g with used := used, kept := kept, vanished := vanished })
    (hstep : ∀ g r k, h.weakness (h.table r) ≠ {} → (∃ v, (k, v) ∈ (h.table r).entries) → P g →
      P (g.setKey r k .nil)) : P (h.collected roots all) := by
  refine hcount _ _ _ _ (h.without_induction _ hh fun g e he hg => ?_)
  cases all with
  | false => cases he
  | true =>
    obtain ⟨hweak, hentry⟩ := weak_of_mem_dead he
    exact hstep g e.1 e.2 hweak hentry hg

/-- The tables that lose entries are told by the record of them. -/
theorem getElem?_collected_of_not_mem {gone : List Nat}
    (hgone : (h.collected roots all).vanished = gone ++ h.vanished) {r : Nat} (hr : r ∉ gone) :
    (h.collected roots all).tables[r]? = h.tables[r]? := by
  let dead := if all then (h.marked roots).dead h else []
  have hdead : dead.map (·.1) = gone := List.append_cancel_right hgone
  refine h.getElem?_without dead fun e he heq => hr ?_
  rw [← hdead, ← heq]
  exact List.mem_map_of_mem he

/-- Without weak tables, only the counts change. -/
theorem collected_of_strong (hstrong : ∀ r, h.weakness (h.table r) = {}) :
    ∃ used, h.collected roots all = { h with used := used, kept := used } := by
  have hgone : (if all then (h.marked roots).dead h else []) = [] := by
    cases all with
    | false => rfl
    | true => exact List.eq_nil_iff_forall_not_mem.mpr fun e he =>
        (weak_of_mem_dead he).1 (hstrong e.1)
  refine ⟨h.base + (h.marked roots).bytes, ?_⟩
  unfold collected
  dsimp only
  rw [hgone]
  rfl

/-! ### What becomes of a heap -/

/-- Without limit the pace alone says when the collector runs. -/
theorem isDue_of_limit {h : Heap} (hlimit : h.limit = none) :
    h.isDue = h.pace h.tables.size h.used h.kept := by
  rw [isDue, overfull, hlimit]
  exact Bool.false_or _

/-- The collector does not run: there is no limit, and no pace at which it would. -/
structure Resting (h : Heap) : Prop where
  limit : h.limit = none
  pace : h.pace = Pace.resting

theorem Resting.isDue {h : Heap} (hrest : h.Resting) : h.isDue = false := by
  rw [isDue_of_limit hrest.limit, hrest.pace]
  rfl

theorem Resting.setKey {h : Heap} (hrest : h.Resting) (r : Nat) (k : Key) (v : Value) :
    (h.setKey r k v).Resting := ⟨hrest.limit, hrest.pace⟩

/-- On the way from one heap to another, the collector may have run: entries only vanish, and none
do where it rests. -/
structure Sheds (g h : Heap) : Prop where
  limit : h.limit = g.limit
  pace : h.pace = g.pace
  vanished : g.vanished <:+ h.vanished
  idle : g.Resting → h.vanished = g.vanished

namespace Sheds

/-- The collector has not run. -/
theorem of_eq {g h : Heap} (hlimit : h.limit = g.limit) (hpace : h.pace = g.pace)
    (hvanished : h.vanished = g.vanished) : g.Sheds h :=
  ⟨hlimit, hpace, ⟨[], hvanished.symm⟩, fun _ => hvanished⟩

theorem refl (h : Heap) : h.Sheds h := .of_eq rfl rfl rfl

theorem trans {f g h : Heap} (hfg : f.Sheds g) (hgh : g.Sheds h) : f.Sheds h where
  limit := hgh.limit.trans hfg.limit
  pace := hgh.pace.trans hfg.pace
  vanished := hfg.vanished.trans hgh.vanished
  idle hrest :=
    (hgh.idle ⟨hfg.limit.trans hrest.limit, hfg.pace.trans hrest.pace⟩).trans (hfg.idle hrest)

/-- The collector runs only when it is due. -/
theorem collected {h : Heap} (hdue : h.isDue = true) (roots : List Value) (all : Bool) :
    h.Sheds (h.collected roots all) where
  limit := h.limit_collected roots all
  pace := h.pace_collected roots all
  vanished := h.vanished_collected roots all
  idle hrest := absurd (hdue.symm.trans hrest.isDue) nofun

end Sheds

end Heap

end Script

/-! ### Between two scripts -/

namespace Host

variable {α : Type}

theorem afford_of_not_overfull (host : Host) (hfull : host.heap.overfull = false)
    (roots : List Script.Value) (a : α) : host.afford roots a = (host, .ok a) := by
  have hfull : host.interpreter.heap.overfull = false := hfull
  unfold afford Interpreter.settled
  rw [hfull]
  rfl

theorem afford_of_overfull (host : Host) (hfull : host.heap.overfull = true)
    (roots : List Script.Value) (a : α) :
    let h := host.heap.collected (roots ++ host.interpreter.held) true
    host.afford roots a =
      (host.withHeap h, if h.exhausted then .error .outOfMemory else .ok a) := by
  have hfull : host.interpreter.heap.overfull = true := hfull
  unfold afford Interpreter.settled
  rw [hfull]
  rfl

/-- What has been made of a heap is there, unless more bytes are in use than may be. Then the
collector runs, and it is there if that has been of use. -/
theorem afford_cases (host : Host) (roots : List Script.Value) (a : α) :
    host.afford roots a = (host, .ok a) ∨
      host.heap.overfull = true ∧ ∃ r, (r = .ok a ∨ r = .error .outOfMemory) ∧
        host.afford roots a =
          (host.withHeap (host.heap.collected (roots ++ host.interpreter.held) true), r) := by
  cases hfull : host.heap.overfull with
  | false => exact .inl (host.afford_of_not_overfull hfull roots a)
  | true =>
    refine .inr ⟨rfl, _, ?_, host.afford_of_overfull hfull roots a⟩
    split
    · exact .inr rfl
    · exact .inl rfl

theorem afford_ok {host : Host} {roots : List Script.Value} {a b : α}
    (h : (host.afford roots a).2 = .ok b) : a = b := by
  obtain heq | ⟨-, r, rfl | rfl, heq⟩ := host.afford_cases roots a
  · exact Except.ok.inj ((congrArg Prod.snd heq).symm.trans h)
  · exact Except.ok.inj ((congrArg Prod.snd heq).symm.trans h)
  · cases (congrArg Prod.snd heq).symm.trans h

/-- Without a limit, it is there. -/
theorem afford_of_limit (host : Host) (hlimit : host.heap.limit = none)
    (roots : List Script.Value) (a : α) : host.afford roots a = (host, .ok a) := by
  refine host.afford_of_not_overfull ?_ roots a
  rw [Script.Heap.overfull, hlimit]

/-- It is missing only for want of memory. -/
theorem afford_error (host : Host) {roots : List Script.Value} {a : α} {f : ScriptFault}
    (h : (host.afford roots a).2 = .error f) : f = .outOfMemory ∧ host.heap.limit ≠ none := by
  obtain heq | ⟨hfull, r, rfl | rfl, heq⟩ := host.afford_cases roots a
  · cases (congrArg Prod.snd heq).symm.trans h
  · cases (congrArg Prod.snd heq).symm.trans h
  · refine ⟨(Except.error.inj ((congrArg Prod.snd heq).symm.trans h)).symm, fun hlimit => ?_⟩
    rw [Script.Heap.overfull, hlimit] at hfull
    cases hfull

end Host

end StoryPack
