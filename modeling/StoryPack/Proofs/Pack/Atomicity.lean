/-
Offers that fail.

An entry can fail at many points: at its structure, for want of memory before its
script is run or after it, and in the script.  At each of them the assembler is left
as it is, with all that the views in the tree show, and everything that scripts can
not change.  So every next entry
meets the structure that it would have met.  What the script of a refused entry has
done to the globals is not undone, though.  It can bring later scripts to another
end, and by that the entries after them; when no later script comes to another end,
no verdict is another one.

* `Assembly.verdict`, `Assembly.verdicts` — the structural faults of an entry, and
  of many up to the end;
* `Assembly.Alike` — assemblies that have taken entries of the same keys;
* `Assembly.Alike.offer`, `Assembly.Alike.run` — what keeps them alike;
* `Assembly.failures_atomic` — what a refused entry leaves.
-/
import StoryPack.Proofs.Confinement.Immutability
import StoryPack.Proofs.Pack.Orderly
import StoryPack.Proofs.Pack.Threading

namespace StoryPack

open Script

variable {W W' : Ward}

/-- Places with the same key are kept out by the same. -/
theorem Place.obstacle?_of_key {place place' : Place} (h : place.key = place'.key)
    (keys : List (List String)) : place.obstacle? keys = place'.obstacle? keys := by
  cases place <;> cases place' <;> simp_all [key, Address.names, obstacle?]

namespace Assembly

variable {s t : Assembly} {budget : Option Nat} {e : Entry}

/-- The structural fault that an entry is refused with. -/
def verdict (budget : Option Nat) (s : Assembly) (e : Entry) : Option StructuralFault :=
  match (s.assembler.accept s.host budget e).2.2 with
  | .error (.structural _ f) => some f
  | _ => none

/-- The structural fault when there are no more entries. -/
def finalVerdict (s : Assembly) : Option StructuralFault :=
  match s.assembler.finish with
  | .error (.incomplete f) => some f
  | _ => none

/-- The structural faults of entries that are offered in turn, and that of the end. -/
def verdicts (budget : Option Nat) : Assembly → List Entry → List (Option StructuralFault)
  | s, [] => [s.finalVerdict]
  | s, e :: rest => s.verdict budget e :: verdicts budget (s.offer budget e) rest

/-- The script of an entry fails. -/
def ScriptFails (budget : Option Nat) (s : Assembly) (e : Entry) : Prop :=
  ∃ path f, (s.assembler.accept s.host budget e).2.2 = .error (.script path f)

/-- The scripts of entries that are offered in turn fail in both assemblies or in neither. -/
def FailAlike (budget : Option Nat) (s t : Assembly) (entries : List Entry) : Prop :=
  ∀ before e rest, entries = before ++ e :: rest →
    ((s.run budget before).ScriptFails budget e ↔ (t.run budget before).ScriptFails budget e)

/-- The assemblies wait for the same, and have taken entries of the same keys. -/
structure Alike (s t : Assembly) : Prop where
  keys : ∀ key, key ∈ s.assembler.keys ↔ key ∈ t.assembler.keys
  awaiting : s.assembler.state = .awaitingOptions ↔ t.assembler.state = .awaitingOptions

/-- Nothing but its structure or its script keeps an entry from being taken. A structural fault
leaves the host. -/
theorem accept_error_cases {host : Host} {a : Assembler} {f : LoadFault}
    (hf : s.assembler.accept s.host budget e = (host, a, .error f)) :
    (∃ path g, f = .structural path g ∧ host = s.host) ∨ ∃ path g, f = .script path g := by
  obtain ⟨hfails, -⟩ := Assembler.accept_eq_error_iff.mp hf
  cases hfails with
  | duplicateOptions h => exact .inl ⟨_, _, rfl, rfl⟩
  | optionsAfterPack h => exact .inl ⟨_, _, rfl, rfl⟩
  | site h => exact .inl ⟨_, _, rfl, rfl⟩
  | script hroom h => exact .inr ⟨_, _, rfl⟩

/-- An entry is taken. -/
def Takes (budget : Option Nat) (s : Assembly) (e : Entry) : Prop :=
  (s.assembler.accept s.host budget e).2.2 = .ok ()

/-- An entry is taken when neither its structure nor its script fails. -/
theorem takes_iff : s.Takes budget e ↔ s.verdict budget e = none ∧ ¬s.ScriptFails budget e := by
  unfold Takes verdict ScriptFails
  obtain ⟨host, a, h⟩ | ⟨host, f, h⟩ := s.assembler.accept_cases s.host budget e
  · simp [h]
  · rcases accept_error_cases h with ⟨path, g, rfl, -⟩ | ⟨path, g, rfl⟩ <;> simp [h]

/-- An entry that is refused leaves all but the host as it is. -/
theorem offer_of_refused {host : Host} {a : Assembler} {f : LoadFault}
    (hf : s.assembler.accept s.host budget e = (host, a, .error f)) :
    s.offer budget e = { s with host := host } := by
  obtain ⟨-, rfl⟩ := Assembler.accept_eq_error_iff.mp hf
  unfold offer
  rw [hf]

theorem exists_refused (hrefused : ¬s.Takes budget e) :
    ∃ host f, s.assembler.accept s.host budget e = (host, s.assembler, .error f) := by
  obtain ⟨host, a, h⟩ | h := s.assembler.accept_cases s.host budget e
  · exact absurd (by rw [Takes, h]) hrefused
  · exact h

/-- An entry that is taken brings its key, and is the end of waiting for options. -/
theorem keys_offer (htaken : s.Takes budget e) :
    (∀ key, key ∈ (s.offer budget e).assembler.keys ↔
      e.key? = some key ∨ key ∈ s.assembler.keys) ∧
      (s.offer budget e).assembler.state ≠ .awaitingOptions := by
  obtain ⟨host, a, haccept⟩ :
      ∃ host a, s.assembler.accept s.host budget e = (host, a, .ok ()) :=
    ⟨_, _, Prod.ext rfl (Prod.ext rfl htaken)⟩
  rw [(offer_of_accept haccept).2]
  cases e with
  | options members =>
    obtain ⟨hstate, -, rfl⟩ := Assembler.accept_options_eq_ok_iff.mp haccept
    simp [Assembler.keys, Assembler.nodes, hstate, Entry.key?]
  | script place source =>
    obtain ⟨room, scope, view, hroom, -, rfl⟩ := Assembler.accept_script_eq_ok_iff.mp haccept
    refine ⟨fun key => ?_, fun h => by cases h⟩
    have hperm := (Assembler.nodes_insert hroom scope view).map (·.1.key)
    refine hperm.mem_iff.trans ?_
    rw [List.map_cons, List.mem_cons, Entry.key?, Option.some_inj, eq_comm]
    rfl

theorem verdict_script (budget : Option Nat) (s : Assembly) (place : Place) (source : ByteArray) :
    s.verdict budget (.script place source) = place.obstacle? s.assembler.keys := by
  unfold verdict Assembler.accept
  cases hroom : s.assembler.site place with
  | error f =>
    simp only [hroom]
    exact (Assembler.site_eq_error_iff.mp hroom).symm
  | ok room =>
    have hnone : place.obstacle? s.assembler.keys = none := by
      refine Option.eq_none_iff_forall_ne_some.mpr fun f hf => ?_
      cases hroom.symm.trans (Assembler.site_eq_error_iff.mpr hf)
    simp only [hroom, hnone]
    generalize s.assembler.runScript s.host budget room.parents place source = r
    rcases r with ⟨host, f | ⟨scope, view⟩⟩ <;> rfl

namespace Alike

/-- Assemblies that are alike have the same place for an entry. -/
theorem verdict (h : s.Alike t) (e : Entry) : s.verdict budget e = t.verdict budget e := by
  cases e with
  | options members =>
    have hawaiting := h.awaiting
    have hroot := h.keys []
    unfold Assembly.verdict Assembler.accept
    unfold Assembler.keys Assembler.nodes at hroot
    cases hs : s.assembler.state <;> cases ht : t.assembler.state <;>
      simp_all [PackNode.nodes, Place.key, Address.names]
  | script place source => rw [verdict_script, verdict_script, Place.obstacle?_congr h.keys]

theorem finalVerdict (h : s.Alike t) : s.finalVerdict = t.finalVerdict := by
  have hroot := h.keys []
  unfold Assembly.finalVerdict Assembler.finish
  unfold Assembler.keys Assembler.nodes at hroot
  cases hs : s.assembler.state <;> cases ht : t.assembler.state <;>
    simp_all [PackNode.nodes, Place.key, Address.names]

/-- They stay alike when the script of the entry fails in both or in neither. -/
theorem offer (h : s.Alike t) (hfails : s.ScriptFails budget e ↔ t.ScriptFails budget e) :
    (s.offer budget e).Alike (t.offer budget e) := by
  have htaken : s.Takes budget e ↔ t.Takes budget e := by
    rw [takes_iff, takes_iff, h.verdict, hfails]
  by_cases hs : s.Takes budget e
  · obtain ⟨hskeys, hsstate⟩ := keys_offer hs
    obtain ⟨htkeys, htstate⟩ := keys_offer (htaken.mp hs)
    exact ⟨fun key => by rw [hskeys, htkeys, h.keys], iff_of_false hsstate htstate⟩
  · obtain ⟨host, f, hf⟩ := exists_refused hs
    obtain ⟨host', f', hf'⟩ := exists_refused (mt htaken.mpr hs)
    rw [offer_of_refused hf, offer_of_refused hf']
    exact ⟨h.keys, h.awaiting⟩

/-- As long as scripts fail in both or in neither, the verdicts are the same. -/
theorem verdicts (h : s.Alike t) {entries : List Entry} (hfails : FailAlike budget s t entries) :
    s.verdicts budget entries = t.verdicts budget entries := by
  induction entries generalizing s t with
  | nil => exact congrArg (fun v => [v]) h.finalVerdict
  | cons e rest ih =>
    have hnext := h.offer (hfails [] e rest rfl)
    have hrest := ih hnext fun before e' rest' heq =>
      hfails (e :: before) e' rest' (congrArg (e :: ·) heq)
    rw [Assembly.verdicts, Assembly.verdicts, h.verdict, hrest]

end Alike

/-- Nothing that the scripts below can see of the tree is another one, and nothing that scripts can
not change. -/
structure Unchanged (s t : Assembly) : Prop where
  assembler : t.assembler = s.assembler
  options : t.options = s.options
  scripts : t.scripts = s.scripts
  /-- The views of the nodes show their scopes, before and after. -/
  views : ∀ root, s.assembler.state = .loading root → root.Shows fun view scope =>
    (∃ m b t, s.host.heap.Views view m b t) ∧ s.host.heap.Displays (.table view) scope.value ∧
      t.host.heap.Displays (.table view) scope.value
  /-- So do all other views, and the metatables of the basic types. -/
  fixed : s.host.heap.Preserves t.host.heap
  /-- Only the interpreter is another one. -/
  host : t.host = { s.host with interpreter := t.host.interpreter }

theorem Threaded.unchanged (hs : s.Threaded W) {host : Host} {a : Assembler} {f : LoadFault}
    (hf : s.assembler.accept s.host budget e = (host, a, .error f)) :
    s.Unchanged (s.offer budget e) := by
  obtain ⟨W', hleads, -⟩ := hs.offer budget e
  have hk := hs.host.kept
  have hk' := hleads.confined.kept
  have hoffer := offer_of_refused hf
  refine ⟨by rw [hoffer], by rw [hoffer], by rw [hoffer], fun root hroot => ?_,
    hk.preserves hk' hleads.contains, hleads.rest⟩
  refine (hs.held.views root hroot).mono fun view scope hshows => ?_
  have hlasts := hshows.lasts hk hk' hleads.contains
  exact ⟨hshows.views hk, hshows.spells.displays, hlasts.spells.displays⟩

/-! ### A script that spoils the globals -/

/-- A table that holds itself has no snapshot. -/
theorem snapshot_of_self {h : Heap} {r : Nat} (hsound : (h.table r).Sound)
    (hmeta : (h.table r).metatable = none) {k : Key} (hk : (h.table r).get k = .table r)
    (t : Scope.Table) : h.snapshot r ≠ .ok t := by
  have hreads : h.readThrough r = r := by
    unfold Heap.readThrough Heap.backing?
    rw [hmeta]
    rfl
  have hmem : (k, Value.table r) ∈ Heap.snapshotOrder (h.table r) :=
    hsound.mem_snapshotOrder_iff.mpr ⟨hk, rfl⟩
  intro ht
  unfold Heap.snapshot at ht
  cases hentries : h.snapshotEntries (h.tables.size + 2) [] "" r with
  | error f =>
    rw [hentries] at ht
    cases ht
  | ok entries =>
    rw [Heap.snapshotEntries_succ, hreads, if_neg (by simp)] at hentries
    obtain ⟨⟨k', w⟩, -, he⟩ := Heap.exists_of_forall₂ (Heap.forall₂_of_mapM hentries).flip hmem
    obtain ⟨-, hleaf | ⟨c, entries', hc, -, hnested⟩⟩ := Heap.snapshotEntry_eq_ok he
    · exact Heap.leaf?_ne_table hleaf
    · -- the table is come to again
      cases hc
      rw [Heap.snapshotEntries_succ, hreads, if_pos (by simp)] at hnested
      cases hnested

/-- A script that leaves the globals as its scope. -/
def globalsSource : ByteArray := "pack = globals".toUTF8

/-- A script that puts the globals into themselves, and leaves no scope. -/
def tangledSource : ByteArray := "globals.g = globals pack = nil".toUTF8

/-- The code of the first one, up to its return. -/
def globalsCode : List Instr :=
  [.index 0 (.upvalue 0) (.constant (.str "globals".toUTF8)),
   .setIndex (.upvalue 0) (.constant (.str "pack".toUTF8)) (.register 0)]

/-- The code of the second one, up to its return. -/
def tangledCode : List Instr :=
  [.index 0 (.upvalue 0) (.constant (.str "globals".toUTF8)),
   .index 1 (.upvalue 0) (.constant (.str "globals".toUTF8)),
   .setIndex (.register 0) (.constant (.str "g".toUTF8)) (.register 1),
   .setIndex (.upvalue 0) (.constant (.str "pack".toUTF8)) (.constant .nil)]

theorem exists_compile_globals :
    ∃ p, compile (chunkName ("=" ++ (Address.script .pack).path).toUTF8) globalsSource = .ok p ∧
      p.code.toList = globalsCode ++ [.ret 0 0 false] ∧ p.registers = 1 :=
  exists_of_compilesTo (by decide +kernel)

theorem exists_compile_tangled :
    ∃ p, compile (chunkName ("=" ++ (Address.script .pack).path).toUTF8) tangledSource = .ok p ∧
      p.code.toList = tangledCode ++ [.ret 0 0 false] ∧ p.registers = 2 :=
  exists_of_compilesTo (by decide +kernel)

/-- The first one is run to its end, and nothing but its own global variables is changed. -/
theorem Threaded.accept_globals (hs : s.Threaded W) (hfaithful : s.Faithful)
    (hrest : s.host.heap.Resting) {room : Assembler.Site}
    (hroom : s.assembler.site .pack = .ok room) :
    ∃ sandbox ended, s.assembler.accept s.host none (.script .pack globalsSource) =
        s.assembler.concluded .pack room sandbox (ended, .ok []) ∧
      ended.heap.Resting ∧ ended.get sandbox "pack" = .table s.assembler.globals ∧
      ∀ r < s.host.heap.tables.size, ended.heap.table r = s.host.heap.table r := by
  obtain ⟨p, hp, hcode, hregisters⟩ := exists_compile_globals
  obtain ⟨h, env, u, hready, hrun⟩ := hs.accept_straight hfaithful hrest hroom
    (by decide +kernel) rfl hp (by rw [hregisters]; decide) (by decide) hcode
  have hdue := (hready.resting hrest).isDue
  have hglobals : (h.table env).getValue (.str "globals".toUTF8) = .table s.assembler.globals :=
    hready.globals
  obtain ⟨f, halong⟩ : ∃ f, Frame.Along h (.initial ⟨p, #[u]⟩) globalsCode
      (h.setKey env (.str "pack".toUTF8) (.table s.assembler.globals)) f := by
    rw [Frame.initial_of_registers (c := ⟨p, #[u]⟩) hregisters]
    exact ⟨_, .cons hdue (.index _ hready.cell hglobals rfl) <|
      .cons hdue (.setIndex hready.cell rfl hready.metatable) (.nil ..)⟩
  obtain ⟨ended, hheap, haccept⟩ :=
    hrun _ f halong ((hready.resting hrest).setKey ..) hready.tripped
  refine ⟨⟨env⟩, ended, haccept, hheap ▸ (hready.resting hrest).setKey .., ?_, fun r hr => ?_⟩
  · rw [Host.get, Heap.getName, Heap.getKey_eq, hheap, Heap.table_setKey _ hready.fresh.2,
      if_pos rfl, Table.get_set hready.sound, if_pos rfl]
  · have := hready.fresh
    rw [hheap, Heap.table_setKey _ hready.fresh.2, if_neg (by omega)]
    exact hready.old r hr

/-- It is refused when the globals hold themselves. -/
theorem Threaded.refuses_globals (hs : s.Threaded W) (hfaithful : s.Faithful)
    (hrest : s.host.heap.Resting) {room : Assembler.Site}
    (hroom : s.assembler.site .pack = .ok room)
    (hsound : (s.host.heap.table s.assembler.globals).Sound)
    (hmeta : (s.host.heap.table s.assembler.globals).metatable = none) {k : Key}
    (hk : (s.host.heap.table s.assembler.globals).get k = .table s.assembler.globals) :
    ¬s.Takes none (.script .pack globalsSource) := by
  obtain ⟨sandbox, ended, haccept, -, hget, hold⟩ := hs.accept_globals hfaithful hrest hroom
  rw [← hold _ hs.held.globals.1] at hsound hmeta hk
  intro htakes
  rw [Takes, haccept] at htakes
  obtain ⟨-, ⟨r, scope, hr, hscope, -⟩, -⟩ :=
    stores_of_concluded hroom (Prod.ext rfl (Prod.ext rfl htakes))
  cases hr.symm.trans hget
  exact snapshot_of_self hsound hmeta hk scope hscope

/-- The heap that the second one leaves: the globals hold themselves, and there is no scope. -/
def tangled (h : Heap) (env g : Nat) : Heap :=
  (h.setKey g (.str "g".toUTF8) (.table g)).setKey env (.str "pack".toUTF8) .nil

theorem table_tangled {h : Heap} {env g : Nat} (henv : env < h.tables.size)
    (hg : g < h.tables.size) (hne : env ≠ g) (r : Nat) :
    (tangled h env g).table r =
      if r = env then (h.table env).set (.str "pack".toUTF8) .nil
      else if r = g then (h.table g).set (.str "g".toUTF8) (.table g)
      else h.table r := by
  have hsize : (h.setKey g (.str "g".toUTF8) (.table g)).tables.size = h.tables.size :=
    Array.size_modify ..
  rw [tangled, Heap.table_setKey _ (hsize ▸ henv), Heap.table_setKey h hg, Heap.table_setKey h hg,
    if_neg hne]

theorem Ready.along_tangled {h : Heap} {env u : Nat} (hready : s.Ready .pack h env u)
    (hrest : s.host.heap.Resting) {p : Proto} (hregisters : p.registers = 2)
    (hne : env ≠ s.assembler.globals)
    (hlt : s.assembler.globals < h.tables.size)
    (hmeta : (h.table s.assembler.globals).metatable = none) :
    ∃ f, Frame.Along h (.initial ⟨p, #[u]⟩) tangledCode (tangled h env s.assembler.globals) f := by
  have hresting := hready.resting hrest
  have hglobals : (h.table env).getValue (.str "globals".toUTF8) = .table s.assembler.globals :=
    hready.globals
  have hresting' := hresting.setKey s.assembler.globals (.str "g".toUTF8)
    (.table s.assembler.globals)
  have henv : ((h.setKey s.assembler.globals (.str "g".toUTF8)
      (.table s.assembler.globals)).table env).metatable = none := by
    rw [Heap.table_setKey h hlt, if_neg hne]
    exact hready.metatable
  have hdue := hresting.isDue
  rw [Frame.initial_of_registers (c := ⟨p, #[u]⟩) hregisters]
  exact ⟨_, .cons hdue (.index _ hready.cell hglobals rfl) <|
    .cons hdue (.index _ hready.cell hglobals rfl) <|
    .cons hdue (.setIndex rfl rfl hmeta) <|
    .cons hresting'.isDue (.setIndex hready.cell rfl henv) (.nil ..)⟩

/-- The second one is refused, and has changed the globals. -/
theorem Threaded.accept_tangled (hs : s.Threaded W) (hfaithful : s.Faithful)
    (hrest : s.host.heap.Resting) {room : Assembler.Site}
    (hroom : s.assembler.site .pack = .ok room)
    (hmeta : (s.host.heap.table s.assembler.globals).metatable = none) :
    ∃ ended, s.assembler.accept s.host none (.script .pack tangledSource) = (ended, s.assembler,
        .error (.script "pack.lua" (.scopeNotTable "pack.lua" "pack" "nil"))) ∧
      ended.heap.Resting ∧ ended.heap.table s.assembler.globals =
        (s.host.heap.table s.assembler.globals).set (.str "g".toUTF8)
          (.table s.assembler.globals) := by
  obtain ⟨p, hp, hcode, hregisters⟩ := exists_compile_tangled
  obtain ⟨h, env, u, hready, hrun⟩ := hs.accept_straight hfaithful hrest hroom
    (by decide +kernel) rfl hp (by rw [hregisters]; decide) (by decide) hcode
  have hold := hready.old _ hs.held.globals.1
  have hfresh := hready.fresh
  have hg := hs.held.globals.1
  have hlt : s.assembler.globals < h.tables.size := by omega
  have hne : env ≠ s.assembler.globals := by omega
  obtain ⟨f, halong⟩ := hready.along_tangled hrest hregisters hne hlt (hold ▸ hmeta)
  have hresting : (tangled h env s.assembler.globals).Resting :=
    ((hready.resting hrest).setKey ..).setKey ..
  obtain ⟨ended, hheap, haccept⟩ := hrun _ f halong hresting hready.tripped
  have htable := table_tangled hfresh.2 hlt hne
  refine ⟨ended, ?_, hheap ▸ hresting, ?_⟩
  · have hget : ended.get ⟨env⟩ Place.pack.level = .nil := by
      show ended.get ⟨env⟩ "pack" = .nil
      rw [Host.get, Heap.getName, Heap.getKey_eq, hheap, htable, if_pos rfl,
        Table.get_set hready.sound, if_pos rfl]
    have htake : ended.takeScope ⟨env⟩ Place.pack.level (Address.script .pack).path =
        .error (.scopeNotTable "pack.lua" "pack" "nil") := by
      unfold Host.takeScope
      rw [hget]
      rfl
    rw [haccept]
    simp only [Assembler.concluded, Assembler.left, htake]
    rfl
  · rw [hheap, htable, if_neg hne.symm, if_pos rfl, hold]

/-- An entry that is refused, at whatever point it fails and whatever has been offered before,
leaves the assembler that there has been, with the tree, the options, what the views show, and all
that scripts can not change; when it is refused for its structure, it leaves the host as well. The
entries that had a place in the tree have one afterwards, those with the key of a script that has
failed among them. The structural faults of later entries are what they would have been, as long as
what the failed script has left in the globals does not make later scripts fail or keep them from
it. -/
theorem failures_atomic {limit : Option Nat} {host : Host} (hhost : Host.new limit = .ok host)
    {σ : Session} (hσ : (Session.start host).Reaches σ) {host₀ : Host} {a₀ : Assembler}
    (hnew : Assembler.new σ.host = (host₀, .ok a₀)) (budget : Option Nat) (before : List Entry)
    (e : Entry) {host' : Host} {a : Assembler} {f : LoadFault} :
    let s := (start host₀ a₀.globals).run budget before
    s.assembler.accept s.host budget e = (host', a, .error f) →
    let t := s.offer budget e
    s.assembler.FailsAt s.host budget e host' f ∧ a = s.assembler ∧ s.Unchanged t ∧
    ((∃ path g, f = .structural path g) → t.host = s.host) ∧
    (∀ e', t.verdict budget e' = s.verdict budget e') ∧ t.finalVerdict = s.finalVerdict ∧
    (∀ path g, f = .script path g → ∀ place source, e.key? = some place.key →
      t.verdict budget (.script place source) = none) ∧
    ∀ later, FailAlike budget t s later → t.verdicts budget later = s.verdicts budget later := by
  intro s hf t
  obtain ⟨W, -, hconfined⟩ := (Session.start_confined (Host.fresh_of_new hhost)).reaches hσ
  obtain ⟨W', -, hs⟩ := (threaded_start hconfined.host hnew).run budget before
  obtain ⟨hfails, hsame⟩ := Assembler.accept_eq_error_iff.mp hf
  -- the tree is the same one, and verdicts depend on nothing else
  have hunchanged : s.Unchanged t := Threaded.unchanged hs hf
  have halike : t.Alike s :=
    ⟨fun key => by rw [hunchanged.assembler], by rw [hunchanged.assembler]⟩
  refine ⟨hfails, hsame.symm, hunchanged, ?_, halike.verdict, halike.finalVerdict, ?_,
    fun later => halike.verdicts⟩
  · rintro ⟨path, g, rfl⟩
    have hoffer : t = { s with host := host' } := offer_of_refused hf
    rw [hoffer]
    obtain ⟨-, -, -, hhost'⟩ | ⟨_, _, hscript⟩ := accept_error_cases hf
    · exact hhost'
    · cases hscript
  · rintro path g rfl place source hkey
    have hnone : s.verdict budget e = none := by rw [verdict, hf]
    cases e with
    | options members => cases hkey
    | script place' source' =>
      rw [halike.verdict, verdict_script, ← Place.obstacle?_of_key (Option.some_inj.mp hkey),
        ← verdict_script budget s place' source', hnone]

/-- A script that is no text fails after that of the pack has been taken. The pack is still there,
and still has its title. -/
theorem failures_atomic_phase : ∃ host σ host₀ a₀ root host' a f, Host.new none = .ok host ∧
    (Session.start host).Reaches σ ∧ Assembler.new σ.host = (host₀, .ok a₀) ∧
    let s := (start host₀ a₀.globals).run none [.script .pack titleSource]
    let e := Entry.script (.phase "p") ⟨#[Library.binaryMark]⟩
    s.assembler.accept s.host none e = (host', a, .error f) ∧
      a.state = .loading root ∧ titled root.scope ∧ s.Unchanged (s.offer none e) ∧
      (s.offer none e).verdict none (.script (.phase "p") ByteArray.empty) = none := by
  obtain ⟨host, σ, host₀, a₀, W, scope, view, hhost, hσ, hnew, hs, hfaithful, hrest, hstate, -,
    htitle⟩ := exists_titled
  have hroom := site_phase hstate (p := "p") rfl
  obtain ⟨opened, used, hopened, -⟩ :=
    Assembler.opened_of_limit _ hrest.limit [("pack", view)] (.phase "p")
  have haccept := Assembler.accept_eq_concluded hroom hopened none ⟨#[Library.binaryMark]⟩
  have hlabel : Bytes.indexOf? (Address.script (.phase "p")).path.toUTF8 (· == 0) 0 = none := by
    decide +kernel
  have hexecute (sandbox : Sandbox) : ∃ f, opened.execute sandbox ⟨#[Library.binaryMark]⟩
      (Address.script (.phase "p")).path none = (opened, .error f) := by
    unfold Host.execute Host.executeWithin Host.compile
    simp only [hlabel]
    exact ⟨_, rfl⟩
  obtain ⟨f, hf⟩ := hexecute _
  rw [hf] at haccept
  obtain ⟨-, -, hunchanged, -, -, -, hkey, -⟩ :=
    failures_atomic hhost hσ hnew none [.script .pack titleSource] _ haccept
  exact ⟨host, σ, host₀, a₀, { scope := scope, view := view }, opened, _, _, hhost, hσ, hnew,
    haccept, hstate, htitle, hunchanged, hkey _ _ rfl _ _ rfl⟩

/-- What is not undone can make a difference. The globals are left as the scope of the pack, and
hold themselves when a script that has failed has put them there: then there is no pack in the
end. -/
theorem failure_spreads : ∃ host σ host₀ a₀, Host.new none = .ok host ∧
    (Session.start host).Reaches σ ∧ Assembler.new σ.host = (host₀, .ok a₀) ∧
    let s := start host₀ a₀.globals
    (∃ f, (s.assembler.accept s.host none (.script .pack tangledSource)).2.2 = .error f) ∧
      s.verdicts none [.script .pack globalsSource] = [none, none] ∧
      (s.offer none (.script .pack tangledSource)).verdicts none [.script .pack globalsSource] =
        [none, some .noPackData] := by
  obtain ⟨host, hhost⟩ := Host.exists_new
  obtain ⟨σ, host₀, a₀, W, hσ, hnew, hstart, hrest, hempty⟩ :=
    exists_start (Host.fresh_of_new hhost)
  have hfaithful := faithful_start host₀ a₀.globals
  have hempty :
      (start host₀ a₀.globals).host.heap.table (start host₀ a₀.globals).assembler.globals =
      {} := hempty
  obtain ⟨spoiled, hspoiled, hresting, htable⟩ :=
    hstart.accept_tangled hfaithful hrest rfl (by rw [hempty])
  refine ⟨host, σ, host₀, a₀, hhost, hσ, hnew, ⟨_, by rw [hspoiled]⟩, ?_, ?_⟩
  · -- the globals are empty, and an empty scope is stored
    obtain ⟨sandbox, ended, haccept, hrest, hget, hold⟩ :=
      hstart.accept_globals hfaithful hrest rfl
    obtain ⟨host', scope, view, -, hconcluded, -⟩ :=
      concluded_of_readable (start host₀ a₀.globals).assembler .pack _ hrest.limit hget
        (readable_empty ((hold _ hstart.held.globals.1).trans hempty)) []
    obtain ⟨-, hassembler⟩ := offer_of_accept (haccept.trans hconcluded)
    have hverdict : (start host₀ a₀.globals).verdict none (.script .pack globalsSource) = none :=
      verdict_script ..
    have hfinal :
        ((start host₀ a₀.globals).offer none (.script .pack globalsSource)).finalVerdict =
          none := by
      unfold finalVerdict
      rw [hassembler]
      rfl
    rw [verdicts, verdicts, hverdict, hfinal]
  · -- the globals hold themselves, and have no snapshot
    have hoffer := offer_of_refused hspoiled
    obtain ⟨W', -, ht⟩ := hstart.offer none (.script .pack tangledSource)
    have htfaithful := hfaithful.offer none (.script .pack tangledSource)
    rw [hoffer] at ht htfaithful ⊢
    obtain ⟨host', f, hf⟩ := exists_refused <| ht.refuses_globals htfaithful hresting rfl
      (k := .str "g".toUTF8)
      (by rw [htable, hempty]; exact ((Table.sound_empty 0 none).set _ _).1)
      (by rw [htable, hempty]; exact Table.metatable_set ..)
      (by rw [htable, hempty, Table.get_set (Table.sound_empty 0 none), if_pos rfl])
    rw [verdicts, verdicts, verdict_script, offer_of_refused hf]
    rfl

end Assembly

end StoryPack
