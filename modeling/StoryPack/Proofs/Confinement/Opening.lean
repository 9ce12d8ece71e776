/-
A sandbox beside a view.

What becomes of a view shows when a script is at work that holds one.  So the
owner of a new host has a view made of a scope, and opens a sandbox that holds the
view, and an empty table of its own besides.

* `Session.Opens` — a session with such a sandbox, in which the collector rests;
* `Session.exists_opens` — there is one for every scope of plain data;
* `Session.along_copying` — a script takes a value of the view over into its own table.
-/
import StoryPack.Proofs.Confinement.Bindings
import StoryPack.Proofs.Confinement.Session
import StoryPack.Proofs.Confinement.Showing
import StoryPack.Proofs.Script.Straight

namespace StoryPack

open Script

/-- A view outlasts a write to an empty table. -/
theorem Script.Heap.Views.setKey_empty {h : Heap} {v m b r : Nat} {t : Table}
    (hv : h.Views v m b t) (hr : h.table r = {}) (hlt : r < h.tables.size) (ht : t ≠ {}) (k : Key)
    (w : Value) : (h.setKey r k w).Views v m b t := by
  refine hv.congr fun q hq => (Heap.table_setKey h hlt k w q).trans (if_neg ?_)
  rintro rfl
  rw [hr] at hq
  obtain hq | hq | hq := hq
  · cases congrArg (·.metatable) hq
  · -- the metatable of a view has an entry for writes
    have hdeny := congrArg (·.get (.str Event.newindex)) hq
    rw [Table.get_empty, Heap.viewMetatable_newindex] at hdeny
    cases hdeny
  · exact ht hq.symm

namespace Session

variable {host : Host} {scope : Scope.Table} {view own : Nat}

/-- What a sandbox beside a view is given. -/
def openings (host : Host) (env view own : Nat) : List (String × Value) :=
  host.defaults env ++ [("pack", .table view), ("phase", .table own)]

/-- A session with a sandbox that holds the view of a scope, and an empty table, while the collector
rests. -/
structure Opens (host : Host) (scope : Scope.Table) (s : Session) (sandbox : Sandbox)
    (view own : Nat) : Prop where
  reaches : (start host).Reaches s
  mem : sandbox ∈ s.sandboxes
  cells : s.host.heap.cells = host.heap.cells
  closures : s.host.heap.closures = host.heap.closures
  resting : s.host.heap.Resting
  lt : own < sandbox.env ∧ sandbox.env < s.host.heap.tables.size
  env : s.host.heap.table sandbox.env = Table.named (openings host sandbox.env view own)
  own : s.host.heap.table own = {}
  shown : view ∈ s.views
  views : ∃ m b t, s.host.heap.Views view m b t ∧
    ∀ k w v, scope.get? k = some w → w.leaf? = some v → t.get k.toScript = v

/-- The names that it is given are different ones. -/
theorem nodup_openings (host : Host) (env view own : Nat) :
    ((openings host env view own).map (·.1)).Nodup := by
  rw [openings, List.map_append, Host.map_defaults]
  show (Host.defaultNames ++ ["pack", "phase"]).Nodup
  decide

/-- It holds what it is given. -/
theorem Opens.getValue {s : Session} {sandbox : Sandbox} {view own : Nat}
    (hs : Opens host scope s sandbox view own) {name : String} {v : Value}
    (hmem : (name, v) ∈ openings host sandbox.env view own) :
    (s.host.heap.table sandbox.env).getValue (.str name.toUTF8) = v := by
  rw [Table.getValue_str, hs.env]
  exact Table.get_named_of_mem (nodup_openings host sandbox.env view own) hmem

/-- The view of a scope is made for the owner of a new host, and the collector rests. -/
theorem exists_viewed (hfresh : host.Fresh none) (hkeyed : scope.Keyed)
    (hplain : scope.Within fun _ => False) :
    ∃ (s : Session) (view : Nat) (W : Ward), (start host).Reaches s ∧ s.Confined W ∧
      view ∈ s.views ∧ s.host.heap.Shows W view scope ∧
      s.host = host.withHeap s.host.heap ∧ s.host.heap.cells = host.heap.cells ∧
      s.host.heap.closures = host.heap.closures ∧ s.host.heap.Resting := by
  let s : Session := { start host with host := host.paced Pace.resting }
  have hs : (start host).Reaches s := .step .refl (.pace Pace.resting)
  obtain ⟨W, -, hconfined⟩ := (start_confined hfresh).reaches hs
  have hlimit : s.host.heap.limit = none := hfresh.limit
  have hfreeze := Host.freeze_of_limit hlimit hkeyed []
  obtain ⟨hextends, -⟩ := s.host.heap.freeze_spells hkeyed
  have hwithin {F : Function → Prop} : scope.Within F :=
    Scope.Value.entriesWithin.mono (fun _ h => h.elim) scope.entries hplain
  have hstep := Step.freeze (s := s) hwithin []
  obtain ⟨hviewed, -⟩ := hconfined.freeze hwithin []
  rw [hfreeze] at hstep hviewed
  exact ⟨_, _, _, hs.step hstep, hviewed, List.mem_cons_self,
    Host.freeze_shows hconfined.host hkeyed hwithin hfreeze, rfl, hextends.cells,
    hextends.closures, hextends.limit.trans hfresh.limit, hextends.pace⟩

theorem Opens.getValue_pack {s : Session} {sandbox : Sandbox}
    (hs : Opens host scope s sandbox view own) :
    (s.host.heap.table sandbox.env).getValue (.str "pack".toUTF8) = .table view :=
  hs.getValue (by simp [openings])

theorem Opens.getValue_phase {s : Session} {sandbox : Sandbox}
    (hs : Opens host scope s sandbox view own) :
    (s.host.heap.table sandbox.env).getValue (.str "phase".toUTF8) = .table own :=
  hs.getValue (by simp [openings])

/-- There is such a session for every scope of plain data. -/
theorem exists_opens (hfresh : host.Fresh none) (hkeyed : scope.Keyed)
    (hplain : scope.Within fun _ => False) :
    ∃ s sandbox view own, Opens host scope s sandbox view own := by
  obtain ⟨s, view, W, hs, hconfined, hmem, hshows, hhost, hcells, hclosures, hrest⟩ :=
    exists_viewed hfresh hkeyed hplain
  let own := s.host.heap.tables.size
  let bindings : List (String × Value) := [("pack", .table view), ("phase", .table own)]
  let s₁ : Session := { s with
    host := s.host.withHeap (s.host.heap.newTable {}).1, tables := own :: s.tables }
  have hadded : s.Step s₁ := by
    have hstep := Step.newTable (s := s)
    rwa [Host.newTable_of_limit hrest.limit] at hstep
  obtain ⟨host₂, used, hsandbox, hheap, -⟩ := Host.newSandbox_newTable hrest.limit bindings
  let s₂ : Session := { s₁ with host := host₂, sandboxes := ⟨own + 1⟩ :: s.sandboxes }
  have hopened : s₁.Step s₂ := by
    have hstep := @Step.newSandbox s₁ bindings fun e he => by
      obtain rfl | rfl := List.mem_pair.mp he
      · exact .view hmem
      · exact .table (List.mem_append_right _ List.mem_cons_self)
    rwa [show s₁.host.newSandbox bindings = _ from hsandbox] at hstep
  have htable {g : Heap} {t : Table}
      (hg : g.tables = (s.host.heap.tables.push {}).push t) (r : Nat) :
      g.table r = if r = own + 1 then t else if r = own then {} else s.host.heap.table r := by
    rw [Heap.table_push (h := (s.host.heap.newTable {}).1) g hg, Heap.table_push _ rfl]
    exact if_congr (by rw [Heap.newTable, Array.size_push]) rfl rfl
  have htable := htable (congrArg (·.tables) hheap)
  -- the view has been fixed before, so that it still shows its scope
  obtain ⟨W', hle, hconfined'⟩ := hconfined.reaches (.step (.step .refl hadded) hopened)
  have hshows := hshows.lasts hconfined.host.kept hconfined'.host.kept hle
  obtain ⟨m, b, t, hviews⟩ := hshows.views hconfined'.host.kept
  refine ⟨s₂, ⟨own + 1⟩, view, own, (hs.step hadded).step hopened, List.mem_cons_self,
    (congrArg (·.cells) hheap).trans hcells, (congrArg (·.closures) hheap).trans hclosures,
    ⟨(congrArg (·.limit) hheap).trans hrest.limit, (congrArg (·.pace) hheap).trans hrest.pace⟩,
    ⟨Nat.lt_succ_self _, ?_⟩, ?_, ?_, hmem, m, b, t, hviews, fun k w v hw hleaf => ?_⟩
  · have hsize : s₂.host.heap.tables.size = own + 2 := by
      rw [show s₂.host.heap.tables = _ from congrArg (·.tables) hheap, Array.size_push,
        Array.size_push]
    exact Nat.lt_of_lt_of_eq (Nat.lt_succ_self _) hsize.symm
  · rw [htable, if_pos rfl, hhost]
    rfl
  · rw [htable, if_neg (Nat.ne_of_lt (Nat.lt_succ_self _)), if_pos rfl]
  · rw [← hviews.backing, ← hviews.readThrough]
    exact hshows.spells.displays.get hw hleaf

/-! ### A script that reads the view -/

/-- A script that takes the title of its pack over. -/
def copying : ByteArray := "phase.title = pack.title".toUTF8

/-- The code of this script, up to its return. -/
def copyingCode : List Instr :=
  [.index 0 (.upvalue 0) (.constant (.str "phase".toUTF8)),
   .index 2 (.upvalue 0) (.constant (.str "pack".toUTF8)),
   .index 1 (.register 2) (.constant (.str "title".toUTF8)),
   .setIndex (.register 0) (.constant (.str "title".toUTF8)) (.register 1)]

/-- What this code does: the value that the backing table of the view has gets into the own table of
the script. -/
theorem along_copying {h : Heap} (hrest : h.Resting) {p : Proto} (hregisters : p.registers = 3)
    {u env : Nat} (hcell : h.cell u = .table env)
    (hphase : (h.table env).getValue (.str "phase".toUTF8) = .table own)
    (hpack : (h.table env).getValue (.str "pack".toUTF8) = .table view) {m b : Nat} {t : Table}
    (hviews : h.Views view m b t) {v : Value} (hv : t.getValue (.str "title".toUTF8) = v)
    (hown : (h.table own).metatable = none) :
    ∃ f, Frame.Along h (.initial ⟨p, #[u]⟩) copyingCode (h.setKey own (.str "title".toUTF8) v) f ∧
      f.registers = #[.table own, v, .table view] := by
  have hdue := hrest.isDue
  have hread := hviews.index (.str "title".toUTF8)
  rw [hv] at hread
  rw [Frame.initial_of_registers (c := ⟨p, #[u]⟩) hregisters]
  exact ⟨_, .cons hdue (.index _ hcell hphase rfl) <| .cons hdue (.index _ hcell hpack rfl) <|
    .cons hdue (.indexThrough rfl (hviews.getValue_isNil _) hread) <|
    .cons hdue (.setIndex rfl rfl hown) (.nil ..), rfl⟩

/-- The scope of a pack with a title. -/
def tale : Scope.Table := ⟨[(.text "title", .text "Tale")]⟩

theorem keyed_tale : tale.Keyed := by
  simp [tale, Scope.Table.Keyed, Scope.Table.value, Scope.Value.Keyed, Scope.Value.entriesKeyed]

theorem within_tale (F : Function → Prop) : tale.Within F := by
  simp [tale, Scope.Table.Within, Scope.Value.Within, Scope.Value.entriesWithin]

/-- The script takes this title over, beside a view of the scope. -/
theorem Opens.along_copying {s : Session} {sandbox : Sandbox}
    (hs : Opens host tale s sandbox view own) {p : Proto} (hregisters : p.registers = 3) :
    let h := s.host.loaded sandbox p
    ∃ f, Frame.Along h (.initial ⟨p, #[s.host.heap.cells.size]⟩) copyingCode
        (h.setKey own (.str "title".toUTF8) (.str "Tale".toUTF8)) f ∧
      f.registers = #[.table own, .str "Tale".toUTF8, .table view] := by
  intro h
  obtain ⟨m, b, t, hviews, hvalues⟩ := hs.views
  have hrest : h.Resting := ⟨hs.resting.limit, hs.resting.pace⟩
  have hviews : h.Views view m b t := ⟨hviews.proxy, hviews.metatable, hviews.backing, hviews.plain⟩
  have hempty : h.table own = {} := hs.own
  exact Session.along_copying hrest hregisters (s.host.cell_loaded sandbox p) hs.getValue_phase
    hs.getValue_pack hviews (hvalues (.text "title") _ _ rfl rfl) (by rw [hempty])

end Session

end StoryPack
