/-
The host at the start.

Once the host is set up, all that its heap holds is fixed: the libraries and
their views, the metatables of the basic types, and the protected calls.
Scripts hold none of it yet, and will be given the views and the protected calls.

* `Guard.Guarded` — the heap after protected calls have been made;
* `Guard.ward` — the ward of all that a heap holds;
* `Host.Fresh` — what holds of a host at the start, `Host.exists_setUp` — there
  is one;
* `Host.held_of_new` — what it keeps from being lost.
-/
import StoryPack.Proofs.Confinement.Closed
import StoryPack.Proofs.Confinement.Factory
import StoryPack.Proofs.Confinement.Run

namespace StoryPack

open Script

namespace Guard

variable {g h : Heap}

/-- The heap after protected calls have been made. -/
structure Guarded (h g : Heap) : Prop where
  tables : g.tables = h.tables
  shared : g.shared = h.shared
  limit : g.limit = h.limit
  searches : g.searches = h.searches
  faults : g.faults = h.faults
  below : ∀ v ∈ g.cells, v.Below 1
  first : g.cells[0]? = some .nil
  env : g.cells[1]? = some (.table Heap.globals)
  factory : g.closures[0]? = some ⟨Guard.factory, #[1]⟩
  wrapper : ∀ {r : Nat} {c : Closure}, r ≠ 0 → g.closures[r]? = some c →
    ∃ f n, (f = .pcall ∨ f = .xpcall) ∧ 2 ≤ n ∧ c = wrapperClosure n ∧
      ∀ {i : Nat} {v : Value}, (contents (.builtin (.base f)))[i]? = some v →
        g.cells[n + i]? = some v

/-- What the protected calls capture is there. -/
theorem Guarded.upvalues (hg : Guarded h g) {c : Closure} (hc : c ∈ g.closures) :
    ∀ u ∈ c.upvalues, u < g.cells.size := by
  obtain ⟨r, hr⟩ := Array.getElem?_of_mem hc
  by_cases h0 : r = 0
  · subst h0
    cases hg.factory.symm.trans hr
    simpa using (Array.getElem?_eq_some_iff.mp hg.env).1
  · obtain ⟨f, n, -, -, rfl, hcells⟩ := hg.wrapper h0 hr
    have hlast := (Array.getElem?_eq_some_iff.mp (hcells (i := 4) rfl)).1
    simp only [wrapperClosure, List.mem_toArray, List.mem_cons, List.not_mem_nil, or_false]
    intro u hu
    omega

theorem Guarded.closed (hg : Guarded h g) (hh : h.Closed) : g.Closed where
  tables := hg.tables ▸ hh.tables
  shared := hg.tables ▸ hg.shared ▸ hh.shared
  searches := hg.searches.trans hh.searches
  faults := hg.faults.trans hh.faults

theorem below_contents {f : BaseFunction} {v : Value} (hv : v ∈ contents (.builtin (.base f))) :
    v.Below 1 := by
  simp only [contents, List.mem_toArray, List.mem_cons, List.not_mem_nil, or_false] at hv
  rcases hv with rfl | rfl | rfl | rfl | rfl <;> exact trivial

/-- A heap to which cells and closures may have been added. -/
structure Keeps (g g' : Heap) : Prop where
  limit : g'.limit = g.limit
  cells : ∀ {c : Nat} {v : Value}, g.cells[c]? = some v → g'.cells[c]? = some v
  closures : ∀ {r : Nat} {c : Closure}, g.closures[r]? = some c → g'.closures[r]? = some c

theorem keeps_stage (g : Heap) (raw : Value) (pc used kept : Nat) :
    Keeps g (stageHeap g raw pc used kept) := by
  refine ⟨rfl, fun {c v} hc => ?_, fun {r c} hr => ?_⟩
  · rw [stageHeap, Array.getElem?_append_left (Array.getElem?_eq_some_iff.mp hc).1]
    exact hc
  · dsimp only [stageHeap]
    split
    · exact hr
    · have hlt := (Array.getElem?_eq_some_iff.mp hr).1
      rw [Array.getElem?_push_lt hlt, ← Array.getElem?_eq_getElem, hr]

/-- The run that makes a protected call adds to the heap. -/
theorem Made.keeps {raw : Value} {g' : Heap} {r : Conclusion} (hmade : Made g raw g' r) :
    Keeps g g' := by
  cases hmade with
  | function used kept hg' => exact hg' ▸ keeps_stage g raw 11 used kept
  | nothing pc used kept hg' _ => exact hg' ▸ keeps_stage g raw pc used kept

/-- What a heap adds to the cells and closures of another. -/
theorem Guarded.made {f : BaseFunction} (hf : f = .pcall ∨ f = .xpcall) (hg : Guarded h g)
    {g' : Heap} {r : Conclusion} (hmade : Made g (.builtin (.base f)) g' r) : Guarded h g' := by
  have hcell {pc used kept c : Nat} {v : Value} (hc : g.cells[c]? = some v) :
      (stageHeap g (.builtin (.base f)) pc used kept).cells[c]? = some v :=
    (keeps_stage g _ pc used kept).cells hc
  have hold {pc used kept r : Nat} {c : Closure} (hr : r ≠ 0) (hc : g.closures[r]? = some c) :
      ∃ f' n, (f' = .pcall ∨ f' = .xpcall) ∧ 2 ≤ n ∧ c = wrapperClosure n ∧
        ∀ {i : Nat} {v : Value}, (contents (.builtin (.base f')))[i]? = some v →
          (stageHeap g (.builtin (.base f)) pc used kept).cells[n + i]? = some v := by
    obtain ⟨f', n, hf', hn, hc', hcells⟩ := hg.wrapper hr hc
    exact ⟨f', n, hf', hn, hc', fun hi => hcell (hcells hi)⟩
  have hstage (pc used kept : Nat) : Guarded h (stageHeap g (.builtin (.base f)) pc used kept) := by
    refine ⟨hg.tables, hg.shared, hg.limit, hg.searches, hg.faults, fun v hv => ?_, hcell hg.first,
      hcell hg.env, (keeps_stage g _ pc used kept).closures hg.factory, fun {r c} hr hc => ?_⟩
    · rcases Array.mem_append.mp hv with hv | hv
      · exact hg.below v hv
      · obtain ⟨k, hk, rfl⟩ := Array.mem_extract_iff_getElem.mp hv
        exact below_contents (Array.getElem_mem _)
    · dsimp only [stageHeap] at hc
      split at hc
      · exact hold hr hc
      · rename_i hpc
        rw [Array.getElem?_push] at hc
        split at hc
        · cases hc
          have hlt := (Array.getElem?_eq_some_iff.mp hg.env).1
          refine ⟨f, g.cells.size, hf, by omega, rfl, fun {i v} hi => ?_⟩
          have hcaptured : captured pc = 5 := by
            obtain ⟨k, rfl⟩ : ∃ k, pc = k + 11 := ⟨pc - 11, by omega⟩
            rfl
          have hall : (contents (.builtin (.base f))).extract 0 5 = contents (.builtin (.base f)) :=
            rfl
          rw [stageHeap, hcaptured, hall, Array.getElem?_append_right (Nat.le_add_right _ _),
            Nat.add_sub_cancel_left]
          exact hi
        · exact hold hr hc
  cases hmade with
  | function used kept hg' => exact hg' ▸ hstage 11 used kept
  | nothing pc used kept hg' _ => exact hg' ▸ hstage pc used kept

/-! ### The ward at the start -/

/-- The library function behind a protected call. -/
def rawOf (g : Heap) (c : Closure) : BaseFunction :=
  match g.cell (c.upvalues.getD 1 0) with
  | .function (.builtin (.base f)) => f
  | _ => .pcall

/-- The ward of all that a heap holds. -/
def ward (g : Heap) : Ward where
  tables r := g.tables[r]?
  views := g.viewAt
  cells c := if c = 0 then none else g.cells[c]?
  wrappers r := if r = 0 then none else (g.closures[r]?).map fun c => (c, rawOf g c)
  factory := 0
  maker := (g.closures[0]?).getD default
  shared := g.shared
  size := g.tables.size

theorem settled_of_frozen (hviewed : g.Viewed Interpreter.Open 0) {v : Value}
    (hv : v.Frozen Interpreter.Open 0 g) : v.Settled (ward g) := by
  cases v with
  | table r =>
    obtain ⟨m, hm⟩ := Option.isSome_iff_exists.mp hv.2.2
    obtain ⟨b, hb⟩ := hviewed.isSome_viewAt hv.1 hm
    have hview : ((ward g).views r).isSome := by
      rw [show (ward g).views r = g.viewAt r from rfl, hb]
      rfl
    refine ⟨⟨hv.2.1, .inr hview⟩, fun r' hr' => ?_⟩
    cases hr'
    exact hview
  | function f =>
    obtain ⟨b, rfl, hb⟩ := hv
    exact ⟨hb, fun r hr => by cases hr⟩
  | _ => exact ⟨trivial, fun r hr => by cases hr⟩

theorem wraps_of_guarded (hg : Guarded h g) {r : Nat} {c : Closure} {f : BaseFunction}
    (hr : (ward g).wrappers r = some (c, f)) :
    r ≠ 0 ∧ g.closures[r]? = some c ∧ (ward g).Wraps c f := by
  have hne : r ≠ 0 := by
    rintro rfl
    cases hr
  have hmap : (g.closures[r]?).map (fun c => (c, rawOf g c)) = some (c, f) :=
    (if_neg hne).symm.trans hr
  obtain ⟨c', hc, heq⟩ := Option.map_eq_some_iff.mp hmap
  cases heq
  obtain ⟨f', n, hf', hn, rfl, hcells⟩ := hg.wrapper hne hc
  have hcell {i : Nat} {v : Value} (hi : (contents (.builtin (.base f')))[i]? = some v) :
      (ward g).cells (n + i) = some v :=
    (if_neg (by omega)).trans (hcells hi)
  have hraw : rawOf g (wrapperClosure n) = f' := by
    have hget : g.cell n = .builtin (.base f') := by
      rw [Heap.cell, show g.cells[n]? = _ from hcells (i := 0) rfl]
      rfl
    show (match g.cell n with
      | .function (.builtin (.base f)) => f
      | _ => BaseFunction.pcall) = f'
    rw [hget]
    rfl
  rw [hraw]
  refine ⟨hne, hc, hf', rfl, n + 3, n, n + 1, 1, n + 2, n + 4, rfl, ?_⟩
  have henv : (ward g).cells 1 = some (.table Heap.globals) := hg.env
  exact ⟨hcell rfl, hcell (i := 0) rfl, hcell rfl, henv, hcell rfl, hcell rfl⟩

/-- All that the heap holds is sound. -/
theorem ward_kept (hg : Guarded h g) (hviewed : g.Viewed Interpreter.Open 0)
    (hshows : ∀ k m, g.shared.of k = some m → Interpreter.Shows g m)
    (hglobals : ∃ t, g.tables[Heap.globals]? = some t ∧ t.metatable = none ∧
      t.get (.str "error".toUTF8) = .builtin (.base .error)) : g.Kept (ward g) where
  sound := {
    view := fun {r m b} hr => by
      obtain ⟨hview, -, hm, hnone, hback, hb⟩ := hviewed.viewAt (Nat.zero_le _) hr
      exact ⟨hview, hm, hnone, g.table b, Heap.getElem?_tables g hback.upper, hb, hback.metatable,
        hback.sound, hback.holds.mono fun _ => settled_of_frozen hviewed⟩
    metatable := fun {r m t} hr ht => by
      have htable : g.table r = t := by
        rw [Heap.table, show g.tables[r]? = some t from hr]
        rfl
      exact hviewed.isSome_viewAt (Nat.zero_le _) (htable ▸ ht)
    shared := fun {k m} hm => by
      have hm := hshows k m hm
      exact ⟨g.table m, Heap.getElem?_tables g hm.lt, Heap.viewAt_of_isNone hm.metatable,
        fun key => settled_of_frozen hviewed (hm.frozen key), hm.shown⟩
    globals := by
      obtain ⟨t, ht, hmeta, herror⟩ := hglobals
      refine ⟨t, ht, Heap.viewAt_of_isNone ?_, hmeta, herror⟩
      rw [Heap.table, ht]
      exact hmeta
    wrapper := fun hr => ⟨(wraps_of_guarded hg hr).1, (wraps_of_guarded hg hr).2.2⟩
    cell := rfl
    bound := fun hr => (Array.getElem?_eq_some_iff.mp hr).1 }
  size := Nat.le_refl _
  fixed := id
  free hr ht := by
    rw [show g.tables[_]? = none from hr] at ht
    cases ht
  fixedCell {c v} hc := by
    by_cases h0 : c = 0
    · subst h0
      cases hc
    · exact (if_neg h0).symm.trans hc
  freeCell {c v} hc hv := by
    by_cases h0 : c = 0
    · subst h0
      rw [hg.first] at hv
      cases hv
      trivial
    · rw [show g.cells[c]? = none from (if_neg h0).symm.trans hc] at hv
      cases hv
  wrapper hr := (wraps_of_guarded hg hr).2.1
  closure {r c} hr hne hc := by
    have hmap : (g.closures[r]?).map (fun c => (c, rawOf g c)) = none :=
      (if_neg hne).symm.trans hr
    rw [hc] at hmap
    cases hmap
  factory := by
    show g.closures[0]? = some ((g.closures[0]?).getD default)
    rw [hg.factory]
    rfl
  first := hg.first
  shared := rfl

end Guard

namespace Host

variable {host : Host} {s s' : Interpreter}

/-- The first tables are found under the names of their libraries. -/
theorem global_prepared (hs : Interpreter.Prepared limit s.heap) (name : String) :
    s.global name = (Table.named Interpreter.globalEntries).get (.str name.toUTF8) := by
  rw [Interpreter.global, Heap.getName, Heap.getKey_eq, Heap.globals, hs.first 0 (by decide)]
  rfl

theorem libraryView_prepared (es : List (String × Value)) (hs : Interpreter.Prepared limit s.heap)
    {name : String} {r : Nat}
    (hglobal : (Table.named Interpreter.globalEntries).get (.str name.toUTF8) = .table r)
    (hr : r < 6) (htable : Interpreter.firstTables.getD r {} = Table.named es)
    (hes : ∀ e ∈ es, e.2.Frozen Interpreter.Open 0 s.heap ∧ e.2.IsLeaf) :
    ∃ s' v, libraryView s name = .ok (s', v) ∧ Interpreter.Prepared limit s'.heap ∧
      s.heap.Extends s'.heap ∧ Interpreter.Lists s'.heap v ∧ s'.guarded = s.guarded := by
  obtain ⟨g, v, hg, hprepared, hext, hlists⟩ := hs.freezeLibrary hr htable hes
  refine ⟨{ s with heap := g }, v, ?_, hprepared, hext, hlists, rfl⟩
  unfold libraryView
  rw [global_prepared hs, hglobal]
  dsimp only
  rw [hg]
  rfl

/-- The libraries are among the global variables. -/
theorem get_library {name : String} {r : Nat}
    (hr : (name, r) ∈ [("string", 1), ("table", 2), ("math", 3)]) :
    (Table.named Interpreter.globalEntries).get (.str name.toUTF8) = .table r := by
  rw [Table.get_named]
  simp only [List.mem_cons, Prod.mk.injEq, List.not_mem_nil, or_false] at hr
  rcases hr with ⟨rfl, rfl⟩ | ⟨rfl, rfl⟩ | ⟨rfl, rfl⟩ <;>
    simp [Interpreter.globalEntries, Interpreter.allEntries, Library.baseNames]

theorem get_error :
    (Table.named Interpreter.globalEntries).get (.str "error".toUTF8) =
    .builtin (.base .error) := by
  rw [Table.get_named]
  simp [Interpreter.globalEntries, Interpreter.allEntries, Library.baseNames]

/-- The script of protected calls becomes the first function. -/
theorem define_guard (hs : Interpreter.Prepared limit s.heap) :
    ∃ s', s.define guardName.toUTF8 guardSource.toUTF8 Heap.globals =
        .ok (s', .function (.closure 0)) ∧ Guard.Guarded s.heap s'.heap := by
  let h := ((s.heap.newCell (.table Heap.globals)).1.newClosure
    ⟨Guard.factory, #[s.heap.cells.size]⟩).1
  refine ⟨{ s with heap := h }, ?_, rfl, rfl, rfl, rfl, rfl, ?_, ?_, ?_, ?_, ?_⟩
  · unfold Interpreter.define
    rw [Guard.compile_eq]
    have hsize : s.heap.closures.size = 0 := by rw [hs.closures]; rfl
    exact congrArg (fun f => Except.ok ({ s with heap := h }, Value.function (.closure f))) hsize
  · show ∀ v ∈ s.heap.cells.push (.table Heap.globals), v.Below 1
    rw [hs.cells]
    intro v hv
    rcases Array.mem_push.mp hv with hv | rfl
    · cases List.mem_singleton.mp (Array.mem_toList_iff.mpr hv)
      trivial
    · exact Nat.zero_lt_one
  · show (s.heap.cells.push (.table Heap.globals))[0]? = _
    rw [hs.cells]
    rfl
  · show (s.heap.cells.push (.table Heap.globals))[1]? = _
    rw [hs.cells]
    rfl
  · show (s.heap.closures.push ⟨Guard.factory, #[s.heap.cells.size]⟩)[0]? = _
    rw [hs.cells, hs.closures]
    rfl
  · intro r c hr hc
    have hpush : (s.heap.closures.push ⟨Guard.factory, #[s.heap.cells.size]⟩)[r]? = some c := hc
    rw [hs.closures, Array.getElem?_push, if_neg (by simpa using hr)] at hpush
    simp at hpush

/-- A value that is given as the protected call of a library function: a function that has captured
it and what it needs besides, or nothing where there is a limit. -/
def Protects (f : BaseFunction) (h : Heap) (v : Value) : Prop :=
  v = .nil ∧ h.limit ≠ none ∨ ∃ c n, v = .function (.closure c) ∧ c ≠ 0 ∧
    h.closures[c]? = some (Guard.wrapperClosure n) ∧ ∀ {i : Nat} {v : Value},
      (Guard.contents (.builtin (.base f)))[i]? = some v → h.cells[n + i]? = some v

theorem Protects.mono {f : BaseFunction} {g h : Heap} {v : Value} (hv : Protects f g v)
    (hkeeps : Guard.Keeps g h) : Protects f h v :=
  hv.imp (fun ⟨heq, hne⟩ => ⟨heq, hkeeps.limit ▸ hne⟩)
    fun ⟨c, n, heq, hne, hc, hn⟩ =>
      ⟨c, n, heq, hne, hkeeps.closures hc, fun hi => hkeeps.cells (hn hi)⟩

/-- A protected call is made, unless there is a limit and too little memory. -/
theorem guardedCall_guarded {h : Heap} (hs : Guard.Guarded h s.heap) (hneeds : Guard.Needs s.heap)
    {f : BaseFunction} (hf : f = .pcall ∨ f = .xpcall) :
    Guard.Guarded h (guardedCall s (.function (.closure 0)) (.builtin (.base f))).1.heap ∧
      Guard.Keeps s.heap (guardedCall s (.function (.closure 0)) (.builtin (.base f))).1.heap ∧
      Protects f (guardedCall s (.function (.closure 0)) (.builtin (.base f))).1.heap
        (guardedCall s (.function (.closure 0)) (.builtin (.base f))).2 := by
  have hpatience : 14 ≤ Script.patience := by decide
  have hmade := Guard.call_factory (.builtin (.base f)) s.held hneeds hs.factory hpatience
  have hlt := (Array.getElem?_eq_some_iff.mp hs.factory).1
  unfold guardedCall Interpreter.call
  dsimp only at hmade ⊢
  generalize s.heap.perform Script.patience true none s.held (.function (.closure 0))
    [.builtin (.base f), .builtin .tripped, .ofString overrunMessage] = p at hmade ⊢
  obtain ⟨g, r⟩ := p
  have hg := hs.made hf hmade
  have hkeeps := hmade.keeps
  cases hmade with
  | function used kept hg' =>
    refine ⟨hg, hkeeps, .inr ⟨_, s.heap.cells.size, rfl, Nat.ne_of_gt hlt, ?_, fun hi => ?_⟩⟩
    · rw [show g = _ from hg']
      exact Array.getElem?_push_size
    · rw [show g = _ from hg', ← hi]
      refine (Array.getElem?_append_right (Nat.le_add_right _ _)).trans ?_
      rw [Nat.add_sub_cancel_left]
      rfl
  | nothing pc used kept hg' hr hlimit =>
    dsimp only
    split
    · rename_i hvalues
      cases hvalues
      exact absurd rfl (hr _)
    · rename_i hother
      cases hother
      exact ⟨hg, hkeeps, .inl ⟨rfl, hkeeps.limit ▸ hlimit⟩⟩

/-- What the script of protected calls needs is there after the set-up of the interpreter. -/
theorem needs_of_guarded {h g : Heap} (hprepared : Interpreter.Prepared limit h)
    (hg : Guard.Guarded h g) : Guard.Needs g := by
  have htable (r : Nat) : g.table r = h.table r := by rw [Heap.table, hg.tables, Heap.table]
  have hglobals : g.table Heap.globals = Table.named Interpreter.globalEntries :=
    (htable 0).trans (hprepared.first 0 (by decide))
  have hlibrary : g.table 2 = Table.named Interpreter.tableEntries :=
    (htable 2).trans (hprepared.first 2 (by decide))
  refine ⟨(hprepared.viewed.congr hg.tables).strong, hg.env, ?_, ?_, ?_⟩
  · rw [hglobals]
    refine (Table.get_named Interpreter.globalEntries "table").trans ?_
    simp [Interpreter.globalEntries, Interpreter.allEntries, Library.baseNames]
  · rw [hlibrary]
    refine (Table.get_named Interpreter.tableEntries "pack").trans ?_
    simp [Interpreter.tableEntries, Library.tableNames]
  · rw [hlibrary]
    refine (Table.get_named Interpreter.tableEntries "unpack").trans ?_
    simp [Interpreter.tableEntries, Library.tableNames]

/-- What holds of a host at the start: all that its heap holds is fixed, and what it gives to
sandboxes may be held by scripts. -/
structure Fresh (limit : Option Nat) (host : Host) : Prop where
  kept : host.heap.Kept (Guard.ward host.heap)
  libraries : ∀ r ∈ [host.strings, host.tables, host.maths],
    (Value.table r).Settled (Guard.ward host.heap)
  calls : ∀ v ∈ [host.pcall, host.xpcall], v.Ok (Guard.ward host.heap) host.heap.tables.size
  protects : Protects .pcall host.heap host.pcall ∧ Protects .xpcall host.heap host.xpcall
  closed : host.heap.Closed
  below : ∀ v ∈ host.heap.cells, v.Below 1
  captured : ∀ c ∈ host.heap.closures, ∀ u ∈ c.upvalues, u < host.heap.cells.size
  shared : ∀ k, k ≠ .table → k ≠ .userdata → (host.heap.shared.of k).isSome
  size : 6 ≤ host.heap.tables.size
  first : ∀ r < 6, host.heap.table r = Interpreter.firstTables.getD r {}
  closures : ∀ c ∈ host.heap.closures, c.proto = Guard.factory ∨ c.proto = Guard.wrapper
  limit : host.heap.limit = limit.filter fun n => n != 0

/-- A host can be set up. -/
theorem exists_setUp (limit : Option Nat) : ∃ host, setUp limit = .ok host ∧ host.Fresh limit := by
  unfold setUp
  have hstart := Interpreter.Prepared.start limit
  have hshared := (Interpreter.rest_new limit).2.2.1
  have hguarded : ((Interpreter.new limit).setGlobal "debug" .nil).guarded = false := rfl
  have hclosed₀ := Interpreter.closed_start limit
  generalize (Interpreter.new limit).setGlobal "debug" .nil = s₀ at *
  -- the views of the libraries
  obtain ⟨s₁, strings, hstrings, hs₁, hext₁, hview₁, hsame₁⟩ :=
    libraryView_prepared Interpreter.stringEntries hstart
      (get_library (show ("string", 1) ∈ _ by simp)) (by decide) rfl fun e he => by
        obtain ⟨f, -, rfl⟩ := List.mem_map.mp he
        exact ⟨⟨_, rfl, rfl⟩, trivial⟩
  obtain ⟨s₂, tables, htables, hs₂, hext₂, hview₂, hsame₂⟩ :=
    libraryView_prepared Interpreter.tableEntries hs₁
      (get_library (show ("table", 2) ∈ _ by simp)) (by decide) rfl fun e he => by
        obtain ⟨f, -, rfl⟩ := List.mem_map.mp he
        exact ⟨⟨_, rfl, rfl⟩, trivial⟩
  obtain ⟨s₃, maths, hmaths, hs₃, hext₃, hview₃, hsame₃⟩ :=
    libraryView_prepared Interpreter.mathEntries hs₂
      (get_library (show ("math", 3) ∈ _ by simp)) (by decide) rfl fun e he => by
        rcases List.mem_append.mp he with he | he
        · obtain ⟨f, -, rfl⟩ := List.mem_map.mp he
          exact ⟨⟨_, rfl, rfl⟩, trivial⟩
        · simp only [Interpreter.mathConstants, List.mem_cons, List.not_mem_nil, or_false] at he
          rcases he with rfl | rfl | rfl | rfl <;> exact ⟨trivial, trivial⟩
  rw [bind_of_eq_ok hstrings]
  dsimp only
  rw [bind_of_eq_ok htables]
  dsimp only
  rw [bind_of_eq_ok hmaths]
  -- the metatables of the basic types
  have hview₁' := hs₂.lists_grows hext₃.toGrows (hs₁.lists_grows hext₂.toGrows hview₁)
  have hview₂' := hs₂.lists_grows hext₃.toGrows hview₂
  obtain ⟨hclosed₁, -, hlt₁⟩ := libraryView_closed hclosed₀ hstrings
  obtain ⟨hclosed₂, hle₂, -⟩ := libraryView_closed hclosed₁ htables
  obtain ⟨hclosed₃, hle₃, -⟩ := libraryView_closed hclosed₂ hmaths
  obtain ⟨s₄, done, hprimitives, hs₄, hgrows, hshows, hsome⟩ := hs₃.guardPrimitives
    (hsame₃.trans (hsame₂.trans (hsame₁.trans hguarded)))
    (((hext₁.trans hext₂).trans hext₃).shared.trans hshared) hview₁'
  have hclosed₄ := Interpreter.guardPrimitives_closed hclosed₃
    (Nat.lt_of_lt_of_le hlt₁ (Nat.le_trans hle₂ hle₃)) hprimitives
  dsimp only
  rw [bind_of_eq_ok hprimitives]
  -- the protected calls
  obtain ⟨s₅, hdefine, hs₅⟩ := define_guard hs₄
  dsimp only
  rw [hdefine]
  have hpcall := guardedCall_guarded hs₅ (needs_of_guarded hs₄ hs₅) (f := .pcall) (.inl rfl)
  dsimp only
  generalize guardedCall s₅ (.function (.closure 0)) (.builtin (.base .pcall)) = p at hpcall
  obtain ⟨s₆, pcall⟩ := p
  have hxpcall := guardedCall_guarded hpcall.1 (needs_of_guarded hs₄ hpcall.1) (f := .xpcall)
    (.inr rfl)
  dsimp only
  generalize guardedCall s₆ (.function (.closure 0)) (.builtin (.base .xpcall)) = p at hxpcall
  obtain ⟨s₇, xpcall⟩ := p
  refine ⟨_, rfl, ?_⟩
  have hg : Guard.Guarded s₄.heap s₇.heap := hxpcall.1
  have hviewed : s₇.heap.Viewed Interpreter.Open 0 := hs₄.viewed.congr hg.tables
  have hglobals : s₇.heap.tables[Heap.globals]? = some (Table.named Interpreter.globalEntries) := by
    rw [hg.tables, Heap.getElem?_tables s₄.heap (Nat.lt_of_lt_of_le (by decide) hs₄.size)]
    exact congrArg some (hs₄.first 0 (by decide))
  have hkept : s₇.heap.Kept (Guard.ward s₇.heap) :=
    Guard.ward_kept hg hviewed (fun k m hm => (hshows k m (hg.shared ▸ hm)).congr hg.tables)
      ⟨_, hglobals, Table.metatable_named _, get_error⟩
  have hsettled {v : Nat} (hv : Interpreter.Lists s₃.heap v) :
      (Value.table v).Settled (Guard.ward s₇.heap) :=
    Guard.settled_of_frozen hviewed <|
      (hv.frozen.grows hgrows).mono (Nat.le_of_eq (by rw [hg.tables]))
        fun r _ => by rw [Heap.table, hg.tables, Heap.table]
  have hprotects : Protects .pcall s₇.heap pcall ∧ Protects .xpcall s₇.heap xpcall :=
    ⟨hpcall.2.2.mono hxpcall.2.1, hxpcall.2.2⟩
  have hok {f : BaseFunction} {v : Value} (hv : Protects f s₇.heap v) :
      v.Ok (Guard.ward s₇.heap) s₇.heap.tables.size := by
    obtain ⟨rfl, -⟩ | ⟨c, n, rfl, hc, -⟩ := hv
    · trivial
    · exact hc
  have hsize : 6 ≤ s₇.heap.tables.size := by
    rw [hg.tables]
    exact hs₄.size
  refine ⟨hkept, ?_, fun v hv => ?_, hprotects, hg.closed hclosed₄, hg.below,
    fun c hc => hg.upvalues hc, fun k ht hu => ?_, hsize, fun r hr => ?_, fun c hc => ?_,
    hg.limit.trans hs₄.limit⟩
  · simp only [List.forall_mem_cons]
    exact ⟨hsettled hview₁', hsettled hview₂', hsettled hview₃, fun _ h => by cases h⟩
  · rcases List.mem_cons.mp hv with rfl | hv
    · exact hok hprotects.1
    · rw [List.mem_singleton.mp hv]
      exact hok hprotects.2
  · show (s₇.heap.shared.of k).isSome
    rw [hg.shared]
    exact hsome k ht hu
  · show s₇.heap.table r = _
    rw [Heap.table, hg.tables]
    exact hs₄.first r hr
  · obtain ⟨r, hr⟩ := Array.getElem?_of_mem hc
    by_cases h0 : r = 0
    · subst h0
      cases hg.factory.symm.trans hr
      exact .inl rfl
    · obtain ⟨f, m, -, -, rfl, -⟩ := hg.wrapper h0 hr
      exact .inr rfl

theorem fresh_of_setUp {limit : Option Nat} (hhost : setUp limit = .ok host) :
    host.Fresh limit := by
  obtain ⟨host', hhost', hfresh⟩ := exists_setUp limit
  cases hhost.symm.trans hhost'
  exact hfresh

theorem fresh_of_new {limit : Option Nat} (hhost : new limit = .ok host) : host.Fresh limit := by
  unfold new at hhost
  split at hhost
  · cases hhost
  · split at hhost
    · cases hhost
    · cases hhost
      exact fresh_of_setUp ‹_›

/-- Without a limit there is a host. -/
theorem exists_new : ∃ host, new none = .ok host := by
  obtain ⟨host, hhost, hfresh⟩ := exists_setUp none
  have hlimit : host.interpreter.heap.limit = none := hfresh.limit
  refine ⟨host, ?_⟩
  unfold new
  rw [hhost]
  simp only [Heap.exhausted, hlimit]
  rfl

/-! ### What is held -/

theorem held_interpreter_new (limit : Option Nat) :
    (Interpreter.new limit).held = [.table Heap.globals] := by
  unfold Interpreter.new
  dsimp only
  simp only [Interpreter.addLibrary]
  rfl

theorem held_setGlobal (s : Interpreter) (name : String) (v : Value) :
    (s.setGlobal name v).held = s.held := rfl

theorem held_libraryView {name : String} {v : Nat} (hv : libraryView s name = .ok (s', v)) :
    s'.held = s.held := by
  unfold libraryView at hv
  split at hv
  · obtain ⟨⟨h, view⟩, -, hv⟩ := exists_of_bind_eq_ok hv
    cases hv
    rfl
  · cases hv

theorem held_guardPrimitives {strings : Nat} {done : Bool}
    (hs : s.guardPrimitives strings = .ok (s', done)) : s'.held = s.held := by
  unfold Interpreter.guardPrimitives at hs
  split at hs
  · cases hs
    rfl
  · obtain ⟨h₁, -, hs⟩ := exists_of_bind_eq_ok hs
    obtain ⟨h₂, -, hs⟩ := exists_of_bind_eq_ok hs
    cases hs
    rfl

theorem held_guardedCall (s : Interpreter) (factory raw : Value) :
    (guardedCall s factory raw).1.held = s.held := by
  unfold guardedCall
  dsimp only
  rcases hcall : s.call factory [raw, .builtin .tripped, .ofString overrunMessage] with ⟨s', r⟩
  have hheld : s'.held = s.held := congrArg (fun p => p.1.held) hcall.symm
  rcases r with (_ | ⟨f, vs⟩) | e | _ <;> exact hheld

/-- A new host holds the views of the libraries, the protected calls, and the global variables of
the interpreter. -/
theorem held_of_setUp {limit : Option Nat} (hhost : setUp limit = .ok host) :
    host.interpreter.held = [host.xpcall, host.pcall, .table host.maths, .table host.tables,
      .table host.strings, .table Heap.globals] := by
  unfold setUp at hhost
  obtain ⟨⟨s₁, strings⟩, hstrings, hhost⟩ := exists_of_bind_eq_ok hhost
  obtain ⟨⟨s₂, tables⟩, htables, hhost⟩ := exists_of_bind_eq_ok hhost
  obtain ⟨⟨s₃, maths⟩, hmaths, hhost⟩ := exists_of_bind_eq_ok hhost
  obtain ⟨⟨s₄, done⟩, hguard, hhost⟩ := exists_of_bind_eq_ok hhost
  dsimp only at hstrings htables hmaths hguard hhost
  have hheld : s₄.held = [.table Heap.globals] := by
    rw [held_guardPrimitives hguard, held_libraryView hmaths, held_libraryView htables,
      held_libraryView hstrings, held_setGlobal, held_interpreter_new]
  obtain ⟨s₅, factory, hdefine, hsame⟩ : ∃ s₅ factory,
      s₄.define guardName.toUTF8 guardSource.toUTF8 Heap.globals = .ok (s₅, factory) ∧
        s₅.held = s₄.held := by
    unfold Interpreter.define
    rw [Guard.compile_eq]
    exact ⟨_, _, rfl, rfl⟩
  rw [hdefine] at hhost
  dsimp only at hhost
  have hpcall := held_guardedCall s₅ factory (.builtin (.base .pcall))
  generalize guardedCall s₅ factory (.builtin (.base .pcall)) = p at hpcall hhost
  obtain ⟨s₆, pcall⟩ := p
  dsimp only at hhost
  have hxpcall := held_guardedCall s₆ factory (.builtin (.base .xpcall))
  generalize guardedCall s₆ factory (.builtin (.base .xpcall)) = p at hxpcall hhost
  obtain ⟨s₇, xpcall⟩ := p
  obtain rfl := Except.ok.inj hhost
  have hlast : s₇.held = s₄.held := hxpcall.trans (hpcall.trans hsame)
  exact congrArg
    (fun vs => xpcall :: pcall :: .table maths :: .table tables :: .table strings :: vs)
    (hlast.trans hheld)

theorem held_of_new {limit : Option Nat} (hhost : new limit = .ok host) :
    host.interpreter.held = [host.xpcall, host.pcall, .table host.maths, .table host.tables,
      .table host.strings, .table Heap.globals] := by
  unfold new at hhost
  split at hhost
  · cases hhost
  · split at hhost
    · cases hhost
    · cases hhost
      exact held_of_setUp ‹_›

end Host

end StoryPack
