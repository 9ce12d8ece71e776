/-
Heaps that have come of another one.

A heap in which all that another heap holds is as it was is that heap with more
in it.  So the references of the one stay, and those that will be added to the
one next are those that will be added to the other next.

* `Renaming.past` — the references of a heap stay, and all later ones are moved;
* `Heap.Closed.renamed` — a heap that keeps what another one holds;
* `Host.Fresh.renamed` — a host that has come of a fresh one.
-/
import StoryPack.Proofs.Renaming.Host
import StoryPack.Proofs.Confinement.Start

namespace StoryPack

open Script

namespace Script

/-! ### References -/

/-- The references below `n` stay, and all others are moved by `k`. -/
def moved (n k r : Nat) : Nat := if r < n then r else r + k

theorem moved_of_lt {n r : Nat} (hr : r < n) (k : Nat) : moved n k r = r := if_pos hr

theorem moved_injective (n k : Nat) : Function.Injective (moved n k) := by
  intro r s h
  unfold moved at h
  split at h <;> split at h <;> omega

/-- What lies at a place of an array is found at the same place of a larger one. -/
theorem Arena.moved {α : Type} {R : α → α → Prop} {a b : Array α}
    (hrel : ∀ {r : Nat} {x : α}, a[r]? = some x → b[r]? = some x ∧ R x x) :
    Arena (moved a.size (b.size - a.size)) R a b where
  rel {r x} hr := by
    rw [moved_of_lt (Array.getElem?_eq_some_iff.mp hr).1]
    exact ⟨x, hrel hr⟩
  add k := by
    have hsize : a.size ≤ b.size := by
      refine Nat.le_of_not_lt fun hlt => ?_
      have hlast := (hrel (Array.getElem?_eq_getElem hlt)).1
      exact Nat.lt_irrefl _ (Array.getElem?_eq_some_iff.mp hlast).1
    unfold Script.moved
    rw [if_neg (by omega)]
    omega

/-- The references of a heap stay, and later ones come after those of another heap. -/
def Renaming.past (h g : Heap) (hcells : 0 < h.cells.size) : Renaming where
  table := moved h.tables.size (g.tables.size - h.tables.size)
  closure := moved h.closures.size (g.closures.size - h.closures.size)
  cell := moved h.cells.size (g.cells.size - h.cells.size)
  search := moved h.searches.size (g.searches.size - h.searches.size)
  fault := moved h.faults.size (g.faults.size - h.faults.size)
  table_injective := moved_injective ..
  closure_injective := moved_injective ..
  cell_injective := moved_injective ..
  search_injective := moved_injective ..
  fault_injective := moved_injective ..
  cell_zero := moved_of_lt hcells _

/-! ### What refers only to what stays -/

variable {σ : Renaming} {n : Nat}

theorem Value.Below.value (hσ : ∀ r < n, σ.table r = r) {v : Value} (hv : v.Below n) :
    σ.value v = v := by
  cases v with
  | table r => exact congrArg Value.table (hσ r hv)
  | function f =>
    cases f with
    | builtin f => rfl
    | _ => exact hv.elim
  | fault r => exact hv.elim
  | _ => rfl

theorem Value.Below.key (hσ : ∀ r < n, σ.table r = r) {k : Key} (hk : k.toValue.Below n) :
    σ.key k = k := by
  cases k with
  | table r => exact congrArg Key.table (hσ r hk)
  | function f =>
    cases f with
    | builtin f => rfl
    | _ => exact hk.elim
  | fault r => exact hk.elim
  | _ => rfl

theorem map_eq_self {α : Type} {f : α → α} {a : Array α} (hf : ∀ x ∈ a, f x = x) : a.map f = a := by
  refine Array.ext_getElem? fun i => ?_
  rw [Array.getElem?_map]
  cases hi : a[i]? with
  | none => rfl
  | some x => exact congrArg some (hf x (Array.mem_of_getElem? hi))

theorem Table.Closed.renamed (hσ : ∀ r < n, σ.table r = r) {t : Table} (ht : t.Closed n) :
    t.Renamed σ t where
  array := (map_eq_self fun v hv => (ht.holds.array v hv).value hσ).symm
  slots := by
    refine (map_eq_self fun e he => ?_).symm
    obtain ⟨hk, hv⟩ := ht.holds.slots e he
    exact Prod.ext (hk.key hσ) (hv.value hσ)
  index k := by
    -- a key that has a slot is not moved
    have hslot {k : Key} {i : Nat} (hi : t.index[k]? = some i) : σ.key k = k := by
      obtain ⟨v, hv⟩ := ht.sound.slot hi
      exact (ht.holds.slots _ (Array.mem_of_getElem? hv)).1.key hσ
    cases hk : t.index[k]? with
    | some i => rw [hslot hk, hk]
    | none =>
      cases hmoved : t.index[σ.key k]? with
      | none => rfl
      | some i =>
        have heq : σ.key k = k := σ.key_injective (hslot hmoved)
        rw [heq, hk] at hmoved
        cases hmoved
  capacity := rfl
  metatable := by
    cases hm : t.metatable with
    | none => rfl
    | some m => exact congrArg some (hσ m (ht.metatable m hm)).symm

theorem Heap.Closed.shared_renamed {h : Heap} (hh : h.Closed)
    (hσ : ∀ r < h.tables.size, σ.table r = r) : σ.shared h.shared = h.shared := by
  have hkind (k : Kind) : (h.shared.of k).map σ.table = h.shared.of k := by
    cases hm : h.shared.of k with
    | none => rfl
    | some m => exact congrArg some (hσ m (hh.shared k m hm))
  unfold Renaming.shared
  rw [show h.shared.nil.map σ.table = h.shared.nil from hkind .nil,
    show h.shared.boolean.map σ.table = h.shared.boolean from hkind .boolean,
    show h.shared.number.map σ.table = h.shared.number from hkind .number,
    show h.shared.string.map σ.table = h.shared.string from hkind .string,
    show h.shared.function.map σ.table = h.shared.function from hkind .function,
    show h.shared.thread.map σ.table = h.shared.thread from hkind .thread]

end Script

namespace Guard

variable {h g : Heap} {W : Ward}

/-- All that a heap holds is found in a heap that keeps it. -/
theorem found (hfirst : h.cells[0]? = some .nil) (hk : g.Kept W) (hW : W.Contains (ward h)) :
    (∀ {r : Nat} {t : Table}, h.tables[r]? = some t → g.tables[r]? = some t) ∧
      (∀ {r : Nat} {c : Closure}, h.closures[r]? = some c → g.closures[r]? = some c) ∧
      ∀ {r : Nat} {v : Value}, h.cells[r]? = some v → g.cells[r]? = some v := by
  refine ⟨fun hr => hk.fixed (hW.tables hr), fun {r c} hr => ?_, fun {r v} hr => ?_⟩
  · by_cases h0 : r = 0
    · subst h0
      have hmaker := hk.factory
      rw [hW.factory, hW.maker] at hmaker
      refine hmaker.trans (congrArg some ?_)
      show (h.closures[0]?).getD default = c
      rw [hr]
      rfl
    · refine hk.wrapper (f := rawOf h c) ?_
      rw [hW.wrappers]
      refine (if_neg h0).trans ?_
      rw [hr]
      rfl
  · by_cases h0 : r = 0
    · subst h0
      cases hfirst.symm.trans hr
      exact hk.first
    · refine hk.fixedCell ?_
      rw [hW.cells]
      exact (if_neg h0).trans hr

end Guard

namespace Host

variable {fresh host : Host} {W : Ward} {limit : Option Nat}

/-- What holds of a host that has come of another one by loads. -/
structure Grown (fresh : Host) (W : Ward) (host : Host) : Prop where
  contains : W.Contains (Guard.ward fresh.heap)
  confined : host.Confined W
  rest : host = { fresh with interpreter := host.interpreter }
  limit : host.heap.limit = none

/-- The references of a fresh host in one that has come of it. -/
def Fresh.renaming (hfresh : fresh.Fresh limit) (host : Host) : Renaming :=
  .past fresh.heap host.heap (Array.getElem?_eq_some_iff.mp hfresh.kept.first).1

/-- What a fresh host holds is fixed, and what has been added to one that has come of it has no
counterpart. -/
theorem Fresh.shields (hfresh : fresh.Fresh limit) (hgrown : fresh.Grown W host) :
    (hfresh.renaming host).Shields (Guard.ward fresh.heap) W fresh.heap.tables.size
      host.heap.tables.size where
  left r hr := by
    show (fresh.heap.tables[r]?).isSome
    rw [Array.getElem?_eq_getElem hr]
    rfl
  right r hr := by
    have hlt : r < fresh.heap.tables.size := by
      refine Nat.lt_of_not_le fun hge => ?_
      have hmoved : moved fresh.heap.tables.size
          (host.heap.tables.size - fresh.heap.tables.size) r < host.heap.tables.size := hr
      rw [moved, if_neg (Nat.not_lt.mpr hge)] at hmoved
      omega
    rw [show (hfresh.renaming host).table r = r from moved_of_lt hlt _]
    exact Option.isSome_iff_exists.mpr
      ⟨_, hgrown.contains.tables (Array.getElem?_eq_getElem hlt)⟩

/-- A host that has come of a fresh one is that host with its references renamed, when objects that
correspond have the same addresses and both or neither have just overrun a budget. -/
theorem Fresh.renamed (hfresh : fresh.Fresh limit) (hlimit : fresh.heap.limit = none)
    (hgrown : fresh.Grown W host) {place : Value → Nat}
    (htripped : host.heap.tripped = fresh.heap.tripped)
    (hplace : ∀ v, host.heap.place ((hfresh.renaming host).value v) = place v) :
    Renamed (hfresh.renaming host) (fresh.withHeap { fresh.heap with place := place }) host := by
  have htable : ∀ r < fresh.heap.tables.size, (hfresh.renaming host).table r = r :=
    fun r hr => moved_of_lt hr _
  have hcell : ∀ r < fresh.heap.cells.size, (hfresh.renaming host).cell r = r :=
    fun r hr => moved_of_lt hr _
  obtain ⟨htables, hclosures, hcells⟩ :=
    Guard.found hfresh.kept.first hgrown.confined.kept hgrown.contains
  have hpositive : 0 < fresh.heap.tables.size := Nat.lt_of_lt_of_le (by decide) hfresh.size
  have hlibrary {r : Nat} (hr : r ∈ [fresh.strings, fresh.tables, fresh.maths]) :
      r = (hfresh.renaming host).table r := (htable r (hfresh.libraries r hr).1.1).symm
  have hcall {f : Script.BaseFunction} {v : Value} (hv : Protects f fresh.heap v) :
      v = (hfresh.renaming host).value v := by
    rcases hv with ⟨rfl, -⟩ | ⟨c, n, rfl, -, hc, -⟩
    · rfl
    · have hlt := (Array.getElem?_eq_some_iff.mp hc).1
      exact congrArg (fun r => Value.function (.closure r)) (moved_of_lt hlt _).symm
  refine ⟨?_, ?_, ?_, ?_, ?_, ?_⟩
  · exact
    { tables := Arena.moved fun hr =>
        ⟨htables hr, (hfresh.closed.tables _ (Array.mem_of_getElem? hr)).renamed htable⟩
      closures := Arena.moved fun {r c} hr => by
        refine ⟨hclosures hr, congrArg (Closure.mk c.proto) (map_eq_self fun u hu => ?_).symm⟩
        exact hcell u (hfresh.captured c (Array.mem_of_getElem? hr) u hu)
      cells := Arena.moved fun hr =>
        ⟨hcells hr,
        ((hfresh.below _ (Array.mem_of_getElem? hr)).mono hpositive |>.value htable).symm⟩
      searches := Arena.moved fun hr => by
        rw [hfresh.closed.searches] at hr
        cases hr
      faults := Arena.moved fun hr => by
        rw [hfresh.closed.faults] at hr
        cases hr
      shared := by
        refine (hgrown.confined.kept.shared.trans hgrown.contains.shared).trans ?_
        exact (hfresh.closed.shared_renamed htable).symm
      tripped := htripped
      limit := hlimit
      limit' := hgrown.limit
      place := hplace }
  all_goals rw [hgrown.rest]
  · exact hlibrary (by simp)
  · exact hlibrary (by simp)
  · exact hlibrary (by simp)
  · exact hcall hfresh.protects.1
  · exact hcall hfresh.protects.2

end Host

end StoryPack
