/-
How loads affect each other.

When the collector runs depends on what earlier loads have left to be collected.
A script that makes its own table weak loses what it has put there if the
collector runs before it returns, and keeps it otherwise.  So the same entries
can give another tree after other loads.

* `Heap.Bounded` — all references of a heap lead to tables of it;
* `Heap.weakened` — the heap that such a script leaves;
* `Heap.mem_dead_weakened` — what vanishes when the collector runs then;
* `Heap.Leaves` — what is left of the own table in the end;
* `Loader.execute_weak` — whether its entry is there tells whether the collector
  has run;
* `Loader.loads_interfere` — it tells whether there have been other loads.
-/
import StoryPack.Proofs.Confinement.Capability
import StoryPack.Proofs.Pack.Independence
import StoryPack.Proofs.Script.Marks

namespace StoryPack

open Script

namespace Script

/-! ### References -/

/-- If it is a table, it is one of the first `n` ones. -/
def Value.Under (n : Nat) (v : Value) : Prop := ∀ r, v = .table r → r < n

namespace Value

variable {n : Nat} {v : Value}

theorem Below.under (hv : v.Below n) : v.Under n := by
  rintro r rfl
  exact hv

theorem Ok.under {W : Ward} (hv : v.Ok W n) : v.Under n := by
  rintro r rfl
  exact hv.1

theorem Under.mono {m : Nat} (hv : v.Under n) (hnm : n ≤ m) : v.Under m :=
  fun r hr => Nat.lt_of_lt_of_le (hv r hr) hnm

theorem Under.ne (hv : v.Under n) : v ≠ .table n := fun h => Nat.lt_irrefl n (hv n h)

theorem admits_under (n : Nat) : Table.Admits (Under n) := ⟨nofun, nofun⟩

end Value

/-- All references of a heap lead to tables of it. -/
structure Heap.Bounded (h : Heap) : Prop where
  holds : ∀ r, (h.table r).Holds (Value.Under h.tables.size)
  metatable : ∀ r m, (h.table r).metatable = some m → m < h.tables.size
  cell : ∀ c, (h.cell c).Under h.tables.size
  shared : ∀ v ∈ h.shared.roots, v.Under h.tables.size

theorem KindTables.mem_roots {t : KindTables} {v : Value} (hv : v ∈ t.roots) :
    ∃ k m, t.of k = some m ∧ v = .table m := by
  obtain ⟨m?, hm, hv⟩ := List.mem_filterMap.mp hv
  obtain ⟨m, rfl, rfl⟩ := Option.map_eq_some_iff.mp hv
  simp only [List.mem_cons, List.not_mem_nil, or_false] at hm
  obtain hm | hm | hm | hm | hm | hm := hm
  · exact ⟨.nil, m, hm.symm, rfl⟩
  · exact ⟨.boolean, m, hm.symm, rfl⟩
  · exact ⟨.number, m, hm.symm, rfl⟩
  · exact ⟨.string, m, hm.symm, rfl⟩
  · exact ⟨.function, m, hm.symm, rfl⟩
  · exact ⟨.thread, m, hm.symm, rfl⟩

end Script

/-- Whatever scripts do, no reference leads out of the heap. -/
theorem Host.Fresh.bounded {host : Host} {limit : Option Nat} (hfresh : host.Fresh limit)
    {h : Heap} (hk : h.Kept (Guard.ward host.heap)) : h.Bounded where
  holds r := by
    cases hr : (Guard.ward host.heap).tables r with
    | none => exact (hk.free_table hr).holds.mono fun _ hv => hv.under
    | some t =>
      rw [hk.table_of_fixed hr]
      have hclosed := hfresh.closed.tables t (Array.mem_of_getElem? hr)
      exact hclosed.holds.mono fun _ hv => hv.under.mono hk.size
  metatable r m hm := by
    cases hr : (Guard.ward host.heap).tables r with
    | none => exact ((hk.free_table hr).metatable m hm).1
    | some t =>
      rw [hk.table_of_fixed hr] at hm
      have hclosed := hfresh.closed.tables t (Array.mem_of_getElem? hr)
      exact Nat.lt_of_lt_of_le (hclosed.metatable m hm) hk.size
  cell c := by
    cases hc : (Guard.ward host.heap).cells c with
    | none => exact (hk.cell_ok hc).under
    | some v =>
      rw [hk.cell_of_fixed hc]
      have hcell : host.heap.cells[c]? = some v := hfresh.kept.fixedCell hc
      have hpos : 1 ≤ h.tables.size :=
        Nat.le_trans (Nat.le_trans (by decide) hfresh.size) hk.size
      exact (hfresh.below v (Array.mem_of_getElem? hcell)).under.mono hpos
  shared v hv := by
    rw [hk.shared] at hv
    obtain ⟨k, m, hm, rfl⟩ := KindTables.mem_roots hv
    intro r hr
    cases hr
    exact Nat.lt_of_lt_of_le (hfresh.closed.shared k m hm) hk.size

namespace Script

/-! ### A weak table -/

/-- A table that is its own metatable, by which it holds its values weakly. A new table is under
`x`. -/
def Table.weak (own new : Nat) : Table :=
  { (({} : Table).set (.str Event.mode) (.str "v".toUTF8)).set (.str "x".toUTF8) (.table new) with
    metatable := some own }

theorem Table.sound_weak (own new : Nat) : (Table.weak own new).Sound :=
  (((Table.sound_empty 0 none).set _ _).1.set _ _).1.withMetatable (some own)

theorem Table.get_weak (own new : Nat) (k : Key) : (Table.weak own new).get k =
    if k = .str "x".toUTF8 then .table new
    else if k = .str Event.mode then .str "v".toUTF8 else .nil := by
  have hsound := ((Table.sound_empty 0 none).set (.str Event.mode) (.str "v".toUTF8)).1
  show (({} : Table).set _ _ |>.set _ _).get k = _
  rw [Table.get_set hsound, Table.get_set (Table.sound_empty 0 none), Table.get_empty]

namespace Heap

variable {h : Heap} {own : Nat}

/-- The heap in which an empty table has become one that holds its values weakly, with a new table
under `x`, and to which one more table has been added. -/
@[irreducible] def weakened (h : Heap) (own : Nat) : Heap :=
  let g := h.setKey own (.str Event.mode) (.str "v".toUTF8)
  let (g, x) := g.newTable {}
  let g := (g.setKey own (.str "x".toUTF8) (.table x)).setMetatable own (some own)
  (g.newTable {}).1

theorem table_setMetatable (h : Heap) {r : Nat} (hr : r < h.tables.size) (m : Option Nat)
    (r' : Nat) : (h.setMetatable r m).table r' =
      if r' = r then { h.table r with metatable := m } else h.table r' := by
  simp only [table, setMetatable, Array.getElem?_modify]
  by_cases hrr : r' = r
  · rw [if_pos hrr.symm, if_pos hrr, hrr, Array.getElem?_eq_getElem hr]
    rfl
  · rw [if_neg (Ne.symm hrr), if_neg hrr]

/-- A table that is not there is empty. -/
theorem table_newTable_empty (h : Heap) (r : Nat) : (h.newTable {}).1.table r = h.table r := by
  rw [table_push (h := h) _ rfl]
  split
  · subst r
    simp [table]
  · rfl

theorem table_weakened (hown : own < h.tables.size) (hempty : h.table own = {}) (r : Nat) :
    (h.weakened own).table r = if r = own then Table.weak own h.tables.size else h.table r := by
  have hnew (k : Key) (v : Value) : own < ((h.setKey own k v).newTable {}).1.tables.size := by
    simp only [newTable, setKey, Array.size_push, Array.size_modify]
    exact Nat.lt_succ_of_lt hown
  have hset (k : Key) (v : Value) (k' : Key) (v' : Value) :
      own < (((h.setKey own k v).newTable {}).1.setKey own k' v').tables.size := by
    rw [size_setKey]
    exact hnew k v
  unfold weakened
  dsimp only
  rw [table_newTable_empty, table_setMetatable _ (hset ..), table_setKey _ (hnew ..), if_pos rfl,
    table_newTable_empty, table_setKey _ hown, if_pos rfl, hempty]
  split
  · rw [show ((h.setKey own _ _).newTable {}).2 = h.tables.size from size_setKey ..]
    rfl
  · rw [table_setKey _ (hnew ..), if_neg ‹_›, table_newTable_empty, table_setKey _ hown, if_neg ‹_›]

theorem size_weakened (h : Heap) (own : Nat) :
    (h.weakened own).tables.size = h.tables.size + 2 := by
  simp [weakened, setKey, setMetatable, newTable]

theorem limit_weakened (h : Heap) (own : Nat) : (h.weakened own).limit = h.limit := by
  simp only [weakened, setKey, setMetatable, newTable]

theorem tripped_weakened (h : Heap) (own : Nat) : (h.weakened own).tripped = h.tripped := by
  simp only [weakened, setKey, setMetatable, newTable]

theorem pace_weakened (h : Heap) (own : Nat) : (h.weakened own).pace = h.pace := by
  simp only [weakened, setKey, setMetatable, newTable]

theorem shared_weakened (h : Heap) (own : Nat) : (h.weakened own).shared = h.shared := by
  simp only [weakened, setKey, setMetatable, newTable]

theorem cell_weakened (h : Heap) (own c : Nat) : (h.weakened own).cell c = h.cell c := by
  simp only [cell, weakened, setKey, setMetatable, newTable]

theorem weakness_weakened (hown : own < h.tables.size) (hempty : h.table own = {}) :
    (h.weakened own).weakness ((h.weakened own).table own) = { values := true } := by
  have htable := (table_weakened hown hempty own).trans (if_pos rfl)
  have hmode : (h.weakened own).getKey own (.str Event.mode) = .str "v".toUTF8 := by
    rw [getKey_eq, htable, Table.get_weak, if_neg (by decide +kernel), if_pos rfl]
  rw [weakness, htable]
  show Weakness.ofMode ((h.weakened own).getKey own (.str Event.mode)) = _
  rw [hmode]
  decide +kernel

/-- Nothing but the weak table refers to what has been put there. -/
theorem eq_of_mem_weakened (hb : h.Bounded) (hown : own < h.tables.size)
    (hempty : h.table own = {}) {r : Nat} {e : Key × Value}
    (he : e ∈ ((h.weakened own).table r).entries) :
    e.1.toValue ≠ .table h.tables.size ∧ (e.2 = .table h.tables.size → r = own) := by
  rw [table_weakened hown hempty] at he
  split at he
  · subst r
    obtain ⟨k, v⟩ := e
    obtain ⟨hget, hsome⟩ := (Table.sound_weak own _).mem_entries_iff.mp he
    refine ⟨fun hk => ?_, fun _ => rfl⟩
    rw [Table.get_weak] at hget
    split at hget
    · subst k
      cases hk
    · split at hget
      · subst k
        cases hk
      · subst v
        cases hsome
  · obtain ⟨hk, hv⟩ := (hb.holds r).entries (Value.admits_under _) he
    exact ⟨hk.ne, fun heq => absurd heq hv.ne⟩

theorem not_reaches_weakened (hb : h.Bounded) (hown : own < h.tables.size)
    (hempty : h.table own = {}) {roots : List Value} (hroots : .table h.tables.size ∉ roots) :
    ¬(h.weakened own).Reaches ((h.weakened own).shared.roots ++ roots) (.table h.tables.size) := by
  have hweak := weakness_weakened hown hempty
  generalize hx : Value.table h.tables.size = x at hroots ⊢
  intro hreaches
  cases hreaches with
  | root hv =>
    obtain hv | hv := List.mem_append.mp hv
    · rw [shared_weakened] at hv
      exact (hb.shared x hv).ne hx.symm
    · exact hroots hv
  | hold _ hw =>
    cases hw with
    | key he _ => exact (eq_of_mem_weakened hb hown hempty he).1 hx.symm
    | value he hstrong =>
      -- the weak table does not hold it by itself
      obtain rfl := (eq_of_mem_weakened hb hown hempty he).2 hx.symm
      rw [hweak] at hstrong
      have htext := hstrong rfl
      rw [← hx] at htext
      cases htext
    | @metatable r m hm =>
      cases hx
      rw [table_weakened hown hempty] at hm
      split at hm
      · cases hm
        exact Nat.lt_irrefl _ hown
      · exact Nat.lt_irrefl _ (hb.metatable r _ hm)
    | captured _ => exact (hb.cell _).ne (hx.trans (cell_weakened ..)).symm
    | subject => cases hx
    | pattern => cases hx
  | late _ _ hkeys he _ =>
    obtain rfl := (eq_of_mem_weakened hb hown hempty he).2 hx.symm
    rw [hweak] at hkeys
    cases hkeys

/-- So it vanishes when the collector runs. -/
theorem mem_dead_weakened (hb : h.Bounded) (hown : own < h.tables.size)
    (hempty : h.table own = {}) {roots : List Value} (hroots : .table h.tables.size ∉ roots)
    (hreaches : (h.weakened own).Reaches ((h.weakened own).shared.roots ++ roots) (.table own))
    {k : Key} : (own, k) ∈ ((h.weakened own).marked roots).dead (h.weakened own) ↔
      k = .str "x".toUTF8 := by
  have hweak := weakness_weakened hown hempty
  have htable := (table_weakened hown hempty own).trans (if_pos rfl)
  have hsize := size_weakened h own
  rw [mem_dead_iff, hweak, htable]
  simp only [(Table.sound_weak own _).mem_entries_iff, Table.get_weak]
  constructor
  · rintro ⟨-, -, v, ⟨hget, -⟩, ⟨hkeys, -⟩ | ⟨-, hobject, -⟩⟩
    · cases hkeys
    · split at hget
      · assumption
      · split at hget
        · subst v
          cases hobject
        · subst v
          cases hobject
  · rintro rfl
    refine ⟨by omega, hreaches, _, ⟨if_pos rfl, rfl⟩, .inr ⟨trivial, ?_, ?_⟩⟩
    · exact decide_eq_true (by omega)
    · exact not_reaches_weakened hb hown hempty hroots

/-- What is left of the weak table in the end, with what is under `x` then. -/
structure Leaves (g : Heap) (own : Nat) (v : Value) : Prop where
  sound : (g.table own).Sound
  metatable : (g.table own).metatable = some own
  get : ∀ k, (g.table own).get k =
    if k = .str "x".toUTF8 then v else if k = .str Event.mode then .str "v".toUTF8 else .nil
  value : v = .nil ∨ ∃ r, v = .table r ∧ g.table r = {}

theorem leaves_weakened (hown : own < h.tables.size) (hempty : h.table own = {}) :
    (h.weakened own).Leaves own (.table h.tables.size) := by
  have htable := (table_weakened hown hempty own).trans (if_pos rfl)
  refine ⟨?_, ?_, fun k => ?_, .inr ⟨_, rfl, ?_⟩⟩
  · exact htable ▸ Table.sound_weak own _
  · rw [htable]
    rfl
  · rw [htable, Table.get_weak]
  · rw [table_weakened hown hempty, if_neg (Nat.ne_of_gt hown)]
    simp [table]

theorem leaves_collected (hb : h.Bounded) (hown : own < h.tables.size)
    (hempty : h.table own = {}) {roots : List Value} (hroots : .table h.tables.size ∉ roots)
    (hreaches : (h.weakened own).Reaches ((h.weakened own).shared.roots ++ roots) (.table own)) :
    ((h.weakened own).collected roots true).Leaves own .nil := by
  have hweakened := leaves_weakened hown hempty
  have hsize := size_weakened h own
  have hlt : own < (h.weakened own).tables.size := by omega
  have hloses := @loses_collected _ roots _ hlt hweakened.sound
  have hdead (k : Key) := mem_dead_weakened hb hown hempty hroots hreaches (k := k)
  refine ⟨hloses.sound, hloses.metatable.trans hweakened.metatable, fun k => ?_, .inl rfl⟩
  split
  · exact hloses.lost k ((hdead k).mpr ‹_›)
  · rw [hloses.kept k fun hk => absurd ((hdead k).mp hk) ‹_›, hweakened.get, if_neg ‹_›]

/-- The entry is still there if the collector is not due. -/
theorem leaves_tended (hb : h.Bounded) (hown : own < h.tables.size) (hempty : h.table own = {})
    {roots : List Value} (hroots : .table h.tables.size ∉ roots)
    (hreaches : (h.weakened own).Reaches ((h.weakened own).shared.roots ++ roots) (.table own)) :
    ∃ v, ((h.weakened own).tended roots).Leaves own v ∧ v.isNil = (h.weakened own).isDue := by
  cases hdue : (h.weakened own).isDue with
  | false =>
    rw [tended_of_not_due hdue]
    exact ⟨_, leaves_weakened hown hempty, rfl⟩
  | true =>
    rw [tended_of_due hdue]
    exact ⟨_, leaves_collected hb hown hempty hroots hreaches, rfl⟩

/-- It can be read. -/
theorem Leaves.readable {g : Heap} {v : Value} (hv : g.Leaves own v) :
    g.readThrough own = own ∧ g.Readable (.table own) := by
  have hreads : g.readThrough own = own := by
    unfold readThrough backing?
    rw [hv.metatable]
    dsimp only
    rw [getKey_eq, hv.get, if_neg (by decide +kernel), if_neg (by decide +kernel)]
    rfl
  refine ⟨hreads, .table (hreads.symm ▸ hv.sound) (fun k hk => ?_) fun k hk => ?_⟩
  all_goals
    rw [hreads, hv.get] at hk
    split at hk
  · exact ⟨.text "x", ‹_›⟩
  · split at hk
    · exact ⟨.text "__mode", ‹_›⟩
    · exact absurd rfl hk
  · rw [hreads, hv.get, if_pos ‹_›]
    obtain rfl | ⟨r, rfl, hr⟩ := hv.value
    · exact absurd rfl hk
    · exact Assembly.readable_empty hr
  · rw [hreads, hv.get, if_neg ‹_›]
    split
    · exact .leaf (w := .text "v") rfl
    · rw [if_neg ‹_›] at hk
      exact absurd rfl hk

/-- A scope that it shows has an entry for `x` if there is still something. -/
theorem Leaves.isSome_get? {g : Heap} {v : Value} (hv : g.Leaves own v) {scope : Scope.Table}
    (hscope : g.Displays (.table own) scope.value) :
    (scope.get? (.text "x")).isSome = !v.isNil := by
  have hx : (g.table own).get (Scope.Key.toScript (.text "x")) = v := (hv.get _).trans (if_pos rfl)
  have hget := hscope.leaf?_get (k := .text "x")
  rw [hv.readable.1, hx] at hget
  have hsome := congrArg Option.isSome hget
  rw [Option.isSome_map] at hsome
  rw [← hsome]
  cases v.isNil <;> rfl

end Heap

end Script

namespace Assembly

/-! ### A script that makes its table weak -/

variable {W : Ward}

/-- A script that makes its own table weak and puts a new table there. -/
def weakSource : ByteArray :=
  "pack.__mode = \"v\" pack.x = \x7b\x7d setmetatable(pack, pack) local t = \x7b\x7d".toUTF8

/-- The code of this script, up to its return. -/
def weakCode : List Instr :=
  [.index 1 (.upvalue 0) (.constant (.str "pack".toUTF8)),
   .setIndex (.register 1) (.constant (.str "__mode".toUTF8)) (.constant (.str "v".toUTF8)),
   .index 1 (.upvalue 0) (.constant (.str "pack".toUTF8)),
   .newTable 2 0 0,
   .setIndex (.register 1) (.constant (.str "x".toUTF8)) (.register 2),
   .index 1 (.upvalue 0) (.constant (.str "setmetatable".toUTF8)),
   .index 2 (.upvalue 0) (.constant (.str "pack".toUTF8)),
   .index 3 (.upvalue 0) (.constant (.str "pack".toUTF8)),
   .call 1 2 false .none,
   .newTable 0 0 0]

theorem exists_compile_weak :
    ∃ p, compile (chunkName ("=" ++ (Address.script .pack).path).toUTF8) weakSource = .ok p ∧
      p.code.toList = weakCode ++ [.ret 0 0 false] ∧ p.registers = 4 := by
  refine exists_of_compilesTo ?_
  decide +kernel

/-- A table without metatable gets one. -/
theorem run_setmetatable {h : Heap} {r m : Nat} (hr : (h.table r).metatable = none) :
    Builtin.run (.base .setmetatable) [.table r, .table m] h =
      .done (h.setMetatable r (some m)) [.table r] := by
  have hprotection : h.metafield (.table r) Event.metatable = .nil := by
    rw [Heap.metafield, Heap.metatable?_table, hr]
  show Library.setmetatable _ h = _
  simp [Library.setmetatable, Argument.table, Argument.get, bind, Action.bind, pure, Action.pure,
    Action.read, Action.modify, hprotection, Value.isNil]

/-- The call of its function before it returns, where there were `n` tables at the start. -/
def weakCall (p : Proto) (u own n : Nat) : Frame :=
  { Frame.initial ⟨p, #[u]⟩ with
    pc := 10
    registers := #[.table (n + 1), .builtin (.base .setmetatable), .table own, .table own] }

/-- What this code does, as long as the collector is not due on the way. -/
theorem along_weak {h : Heap} (hlimit : h.limit = none)
    (hpace : ∀ k < h.tables.size + 2, ∀ used kept, h.pace k used kept = false) {p : Proto}
    (hregisters : p.registers = 4) {u env own : Nat} (hcell : h.cell u = .table env)
    (henv : own < env ∧ env < h.tables.size)
    (hpack : (h.table env).getValue (.str "pack".toUTF8) = .table own)
    (hsetmetatable : (h.table env).getValue (.str "setmetatable".toUTF8) =
      .builtin (.base .setmetatable)) (hempty : h.table own = {}) :
    Frame.Along h (.initial ⟨p, #[u]⟩) weakCode (h.weakened own)
      (weakCall p u own h.tables.size) := by
  have hown : own < h.tables.size := Nat.lt_trans henv.1 henv.2
  let at? (pc : Nat) (registers : Array Value) : Frame :=
    { Frame.initial ⟨p, #[u]⟩ with pc := pc, registers := registers }
  let h₁ := h.setKey own (.str Event.mode) (.str "v".toUTF8)
  let h₂ := (h₁.newTable {}).1
  let h₃ := h₂.setKey own (.str "x".toUTF8) (.table h₁.tables.size)
  let h₄ := h₃.setMetatable own (some own)
  -- the sizes tell that the collector is not due
  have hsize₁ : h₁.tables.size = h.tables.size := Heap.size_setKey ..
  have hsize₂ : h₂.tables.size = h.tables.size + 1 := (Array.size_push ..).trans (by rw [hsize₁])
  have hsize₃ : h₃.tables.size = h.tables.size + 1 := (Heap.size_setKey ..).trans hsize₂
  have hsize₄ : h₄.tables.size = h.tables.size + 1 := (Array.size_modify ..).trans hsize₃
  have hdue (g : Heap) (hg : g.limit = none ∧ g.pace = h.pace)
      (hsize : g.tables.size < h.tables.size + 2) : g.isDue = false := by
    rw [Heap.isDue_of_limit hg.1, hg.2]
    exact hpace _ hsize ..
  have hdue₀ := hdue h ⟨hlimit, rfl⟩ (by omega)
  have hdue₁ := hdue h₁ ⟨hlimit, rfl⟩ (by omega)
  have hdue₂ := hdue h₂ ⟨hlimit, rfl⟩ (by omega)
  have hdue₃ := hdue h₃ ⟨hlimit, rfl⟩ (by omega)
  have hdue₄ := hdue h₄ ⟨hlimit, rfl⟩ (by omega)
  -- the global variables stay as they are
  have htable₁ (r : Nat) : h₁.table r = _ := Heap.table_setKey h hown _ _ r
  have htable₂ (r : Nat) : h₂.table r = h₁.table r := h₁.table_newTable_empty r
  have htable₃ (r : Nat) : h₃.table r = _ := Heap.table_setKey h₂ (by omega) _ _ r
  have henv₁ : h₁.table env = h.table env := (htable₁ env).trans (if_neg (Nat.ne_of_gt henv.1))
  have henv₃ : h₃.table env = h.table env := by
    rw [htable₃, if_neg (Nat.ne_of_gt henv.1), htable₂, henv₁]
  have hmeta₂ : (h₂.table own).metatable = none := by
    rw [htable₂, htable₁, if_pos rfl, Table.metatable_set, hempty]
  have hmeta₃ : (h₃.table own).metatable = none := by
    rw [htable₃, if_pos rfl, Table.metatable_set, hmeta₂]
  have hpack₁ := hpack
  have hpack₃ := hpack
  rw [← henv₁] at hpack₁
  rw [← henv₃] at hpack₃ hsetmetatable
  have hmode : Frame.Along h (at? 0 #[.nil, .nil, .nil, .nil]) (weakCode.take 2) h₁
      (at? 2 #[.nil, .table own, .nil, .nil]) :=
    .cons hdue₀ (.index _ hcell hpack rfl) <|
    .cons hdue₀ (.setIndex (k := .str Event.mode) rfl rfl (by rw [hempty])) (.nil ..)
  have hentry : Frame.Along h₁ (at? 2 #[.nil, .table own, .nil, .nil])
      ((weakCode.drop 2).take 3) h₃ (at? 5 #[.nil, .table own, .table h₁.tables.size, .nil]) :=
    .cons hdue₁ (.index _ hcell hpack₁ rfl) <| .cons hdue₁ (.newTable 2 0 0) <|
    .cons hdue₂ (.setIndex (k := .str "x".toUTF8) rfl rfl hmeta₂) (.nil ..)
  have hoperands : Frame.Along h₃ (at? 5 #[.nil, .table own, .table h₁.tables.size, .nil])
      ((weakCode.drop 5).take 3) h₃
      (at? 8 #[.nil, .builtin (.base .setmetatable), .table own, .table own]) :=
    .cons hdue₃ (.index _ hcell hsetmetatable rfl) <| .cons hdue₃ (.index _ hcell hpack₃ rfl) <|
    .cons hdue₃ (.index _ hcell hpack₃ rfl) (.nil ..)
  have hlast :
      Frame.Along h₃ (at? 8 #[.nil, .builtin (.base .setmetatable), .table own, .table own])
      ((weakCode.drop 8).take 2) (h₄.newTable {}).1
      (at? 10 #[.table h₄.tables.size, .builtin (.base .setmetatable), .table own, .table own]) :=
    .cons hdue₃ (.call (b := .base .setmetatable) rfl nofun nofun (run_setmetatable hmeta₃)) <|
    .cons hdue₄ (.newTable 0 0 0) (.nil ..)
  rw [Frame.initial_of_registers (c := ⟨p, #[u]⟩) hregisters, weakCall, ← hsize₄, Heap.weakened]
  exact hmode.trans (hentry.trans (hoperands.trans hlast))

/-- The values that the call holds then are older than what it has put there. -/
theorem not_mem_rootsAt {h : Heap} (hb : h.Bounded) {own : Nat} (hown : own < h.tables.size)
    (p : Proto) (u pc : Nat) :
    .table h.tables.size ∉ (weakCall p u own h.tables.size).rootsAt (h.weakened own) pc [] := by
  intro hv
  obtain hv | ⟨c, -, hv⟩ | ⟨c, -, hv⟩ | hv | hv | ⟨c, hc, -⟩ := (Frame.mem_roots_iff ..).mp hv
  · obtain ⟨k, hk, hv⟩ := Array.mem_extract_iff_getElem.mp hv
    have hmem : .table h.tables.size ∈ (weakCall p u own h.tables.size).registers :=
      hv ▸ Array.getElem_mem _
    simp only [weakCall, List.mem_toArray, List.mem_cons, List.not_mem_nil, or_false] at hmem
    rcases hmem with hmem | hmem | hmem | hmem
    · exact Nat.ne_of_lt (Nat.lt_succ_self _) (Value.table.inj hmem)
    · cases hmem
    · exact Nat.ne_of_gt hown (Value.table.inj hmem)
    · exact Nat.ne_of_gt hown (Value.table.inj hmem)
  · exact (hb.cell c).ne (hv.trans (h.cell_weakened ..)).symm
  · exact (hb.cell c).ne (hv.trans (h.cell_weakened ..)).symm
  · cases hv
  · cases hv
  · cases hc

/-- Such a script is taken without limits. Its entry is there afterwards, unless the collector is
due when it returns. -/
theorem Threaded.accept_weak {host : Host} (hfresh : host.Fresh none) {s : Assembly}
    (hs : s.Threaded (Guard.ward host.heap)) (hfaithful : s.Faithful)
    (hlimit : s.host.heap.limit = none) {room : Assembler.Site}
    (hroom : s.assembler.site .pack = .ok room)
    (hheld : ∀ v ∈ s.host.interpreter.held, v.Under s.host.heap.tables.size)
    (hpace : ∀ k < s.host.heap.tables.size + 4, ∀ used kept, s.host.heap.pace k used kept = false)
    (due : Bool)
    (hdue : ∀ used kept, s.host.heap.pace (s.host.heap.tables.size + 4) used kept = due) :
    ∃ host' scope view, s.assembler.accept s.host none (.script .pack weakSource) =
        (host', { s.assembler with state := .loading (room.insert scope view) }, .ok ()) ∧
      (scope.get? (.text "x")).isSome = !due := by
  obtain ⟨p, hp, hcode, hregisters⟩ := exists_compile_weak
  obtain ⟨h, env, u, hready, hkept, hrun⟩ := hs.accept_tended hfaithful hlimit hroom
    (by decide +kernel) rfl hp (by rw [hregisters]; decide) (by decide) hcode
  obtain ⟨own, hlt, hpack, hempty⟩ := hready.own
  have hown : own < h.tables.size := Nat.lt_trans hlt hready.fresh.2
  have hb := hfresh.bounded hkept
  have hsize := hready.size
  have halong := along_weak hready.limit (hready.pace ▸ hsize ▸ hpace) hregisters hready.cell
    ⟨hlt, hready.fresh.2⟩ hpack hready.setmetatable hempty
  have hlimit' := (h.limit_weakened own).trans hready.limit
  obtain ⟨ended, hheap, haccept⟩ :=
    hrun _ _ halong hlimit' ((h.tripped_weakened own).trans hready.tripped)
  -- the sandbox holds the table, and nothing holds its entry
  let roots : List Value := .table env :: s.host.interpreter.held ++
    (weakCall p u own h.tables.size).rootsAt (h.weakened own) 10 []
  replace hheap : ended.heap = (h.weakened own).tended roots := hheap
  have henv : (h.weakened own).table env = h.table env :=
    (Heap.table_weakened hown hempty env).trans (if_neg (Nat.ne_of_gt hlt))
  have hroots : .table h.tables.size ∉ roots := by
    intro hv
    rcases List.mem_append.mp hv with hv | hv
    · rcases List.mem_cons.mp hv with hv | hv
      · cases hv
        exact Nat.lt_irrefl _ hready.fresh.2
      · exact ((hheld _ hv).mono (by omega)).ne rfl
    · exact not_mem_rootsAt hb hown p u 10 hv
  have hreaches : (h.weakened own).Reaches ((h.weakened own).shared.roots ++ roots)
      (.table own) := by
    have hentry : (Key.str "pack".toUTF8, Value.table own) ∈
        ((h.weakened own).table env).entries := by
      rw [henv]
      exact hready.sound.mem_entries_iff.mpr ⟨hpack, rfl⟩
    refine .hold (.root (List.mem_append_right _ List.mem_cons_self)) (.value hentry ?_)
    rw [Heap.weakness_of_metatable (henv ▸ hready.metatable)]
    exact nofun
  have hdue' : (h.weakened own).isDue = due := by
    rw [Heap.isDue_of_limit hlimit', Heap.pace_weakened, hready.pace, Heap.size_weakened, hsize]
    exact hdue ..
  obtain ⟨v, hleaves, hv⟩ := Heap.leaves_tended hb hown hempty hroots hreaches
  replace hlimit' : ((h.weakened own).tended roots).limit = none :=
    (Heap.limit_tended ..).trans hlimit'
  have hglobals : ((h.weakened own).tended roots).table env = h.table env :=
    (Heap.table_tended (henv ▸ hready.metatable) roots).trans henv
  rw [← hheap] at hleaves hlimit' hglobals
  have hget : ended.get ⟨env⟩ Place.pack.level = .table own := by
    rw [Host.get, Heap.getName, Heap.getKey_eq, hglobals]
    exact hpack
  obtain ⟨host', scope, view, hscope, hconcluded, -⟩ := concluded_of_readable s.assembler .pack room
    hlimit' hget hleaves.readable.2 []
  exact ⟨host', scope, view, haccept.trans hconcluded,
    hdue' ▸ hv ▸ hleaves.isSome_get? hscope⟩

end Assembly

/-- The collector runs when there are so many tables. -/
def Script.Pace.at (n : Nat) : Pace := fun tables _ _ => tables == n

namespace Loader

/-- The script of a pack that makes its own table weak. -/
def weakEntry : Entry := .script .pack Assembly.weakSource

/-- A loader without limits takes it. Its entry is in the tree, unless the collector is due when it
returns. -/
theorem execute_weak {host : Host} (hfresh : host.Fresh none) {l : Loader}
    (hl : l.host.Confined (Guard.ward host.heap)) (hlimit : l.host.heap.limit = none)
    (hconfig : l.config = unlimited)
    (hheld : ∀ v ∈ l.host.interpreter.held, v.Under l.host.heap.tables.size)
    (hpace : ∀ k < l.host.heap.tables.size + 5, ∀ used kept, l.host.heap.pace k used kept = false)
    (due : Bool)
    (hdue : ∀ used kept, l.host.heap.pace (l.host.heap.tables.size + 5) used kept = due) :
    ∃ p, (l.execute [weakEntry]).2 = .ok p ∧ (p.root.scope.get? (.text "x")).isSome = !due := by
  have hnew := Assembler.new_of_limit hlimit
  let host₀ := (l.host.withHeap (l.host.heap.newTable {}).1).hold (.table l.host.heap.tables.size)
  let s := Assembly.start host₀ l.host.heap.tables.size
  have hsize : s.host.heap.tables.size = l.host.heap.tables.size + 1 := Array.size_push ..
  have hheld : ∀ v ∈ s.host.interpreter.held, v.Under s.host.heap.tables.size := by
    intro v hv
    rw [hsize]
    rcases List.mem_cons.mp hv with rfl | hv
    · intro r hr
      cases hr
      exact Nat.lt_succ_self _
    · exact (hheld v hv).mono (Nat.le_succ _)
  obtain ⟨host', scope, view, haccept, hscope⟩ := (Assembly.threaded_start hl hnew).accept_weak
    hfresh (Assembly.faithful_start ..) (s := s) hlimit rfl hheld (by rwa [hsize])
    due (by rwa [hsize])
  refine ⟨{ options := none, root := { scope := scope, view := view } }, ?_, hscope⟩
  have hall : s.assembler.acceptAll host₀ none [weakEntry] = (host', { s.assembler with
      state := .loading { scope := scope, view := view } }, .ok ()) := by
    unfold Assembler.acceptAll
    rw [show s.assembler.accept host₀ none weakEntry = _ from haccept]
    rfl
  refine execute_of_accepted hnew (Eq.trans ?_ hall)
  rw [show l.config.instructionBudget = none from congrArg (·.instructionBudget) hconfig]
  rfl

/-- A load of nothing adds a table for global variables. -/
theorem execute_nil {l : Loader} (hlimit : l.host.heap.limit = none) :
    (l.execute []).1 = { l with host := l.host.withHeap (l.host.heap.newTable {}).1 } := by
  unfold execute assemble
  rw [Assembler.new_of_limit hlimit]
  rfl

/-- What a new loader keeps from being lost is in its heap. -/
theorem held_of_new {config : Config} {fresh : Loader} (hnew : new config = .ok fresh) :
    ∀ v ∈ fresh.host.interpreter.held, v.Under fresh.host.heap.tables.size := by
  obtain ⟨-, hfresh⟩ := fresh_of_new hnew
  have hhost : Host.new config.memoryLimit = .ok fresh.host := by
    unfold new at hnew
    split at hnew
    · cases hnew
      assumption
    · cases hnew
  have hlibrary {r : Nat} (hr : r ∈ [fresh.host.strings, fresh.host.tables, fresh.host.maths]) :
      (Value.table r).Under fresh.host.heap.tables.size := (hfresh.libraries r hr).1.under
  have hcall {v : Value} (hv : v ∈ [fresh.host.pcall, fresh.host.xpcall]) :
      v.Under fresh.host.heap.tables.size := (hfresh.calls v hv).under
  rw [Host.held_of_new hhost]
  simp only [List.forall_mem_cons]
  refine ⟨hcall (by simp), hcall (by simp), hlibrary (by simp), hlibrary (by simp),
    hlibrary (by simp), fun r hr => ?_, nofun⟩
  cases hr
  exact Nat.lt_of_lt_of_le (by decide) hfresh.size

/-- A load of nothing leaves more to be collected. So when the collector runs as soon as there are
six more tables, it takes an entry out of the tree of the next load. This entry is there when there
has been no other load. -/
theorem loads_interfere : ∃ (fresh : Loader) (p q : Pack), new unlimited = .ok fresh ∧
    let l := fresh.paced (.at (fresh.host.heap.tables.size + 6))
    let used := (l.execute []).1
    fresh.Reaches used ∧ (l.execute [weakEntry]).2 = .ok p ∧ (used.execute [weakEntry]).2 = .ok q ∧
      (p.root.scope.get? (.text "x")).isSome ∧ q.root.scope.get? (.text "x") = none := by
  obtain ⟨fresh, hnew, hfresh, hconfig⟩ := exists_new
  let n := fresh.host.heap.tables.size
  let pace : Pace := .at (n + 6)
  let l := fresh.paced pace
  let used := (l.execute []).1
  have hlimit : l.host.heap.limit = none := hfresh.limit
  have hconfined : l.host.Confined (Guard.ward fresh.host.heap) :=
    ⟨hfresh.kept.congr rfl rfl rfl rfl, hfresh.libraries, hfresh.calls⟩
  have hheld : ∀ v ∈ l.host.interpreter.held, v.Under n :=
    show ∀ v ∈ fresh.host.interpreter.held, v.Under n from held_of_new hnew
  have hnil : used.host = l.host.withHeap (l.host.heap.newTable {}).1 :=
    congrArg Loader.host (execute_nil hlimit)
  have hused : used.host.Confined (Guard.ward fresh.host.heap) := by
    have hadded := (Host.newTable_kept hconfined).1
    rw [Host.newTable_of_limit hlimit] at hadded
    rwa [hnil]
  have hsize : used.host.heap.tables.size = n + 1 := hnil ▸ Array.size_push ..
  have hheld' : used.host.interpreter.held = l.host.interpreter.held := by rw [hnil]; rfl
  have hlimit' : used.host.heap.limit = none := hnil ▸ hlimit
  have hpace : used.host.heap.pace = pace := by rw [hnil]; rfl
  obtain ⟨p, hp, hkept⟩ := execute_weak hfresh hconfined hlimit hconfig hheld
    (fun k hk _ _ => beq_false_of_ne fun heq => by
      replace hk : k < n + 5 := hk
      omega)
    false fun _ _ => beq_false_of_ne fun heq => by
      replace heq : n + 5 = n + 6 := heq
      omega
  obtain ⟨q, hq, hlost⟩ := execute_weak (l := used) hfresh hused hlimit' hconfig
    (fun v hv => hsize ▸ (hheld v (hheld' ▸ hv)).mono (Nat.le_succ n))
    (fun k hk _ _ => by
      rw [hpace]
      exact beq_false_of_ne (by omega))
    true fun _ _ => by
      rw [hpace, hsize]
      exact beq_self_eq_true _
  refine ⟨fresh, p, q, hnew, .load (.pace .refl pace) [], hp, hq, hkept, ?_⟩
  exact Option.not_isSome_iff_eq_none.mp (hlost ▸ Bool.false_ne_true)

end Loader

end StoryPack
