/-
How scopes are threaded through a load.

Each node is kept twice: its scope is in the tree, and its view is what the
scripts below it get to see.  Both show the same, and so they do when a later
script starts.  Each script runs once, in a new sandbox that holds the views of
its own ancestors, and its scope is what the name of its own level holds in the
end.

* `Assembly.Threaded` — the views of all nodes show their scopes;
* `Assembly.Threaded.offer`, `Assembly.Threaded.run` — they still do after offers;
* `Assembly.Sees` — what a script sees when it starts;
* `Assembly.Threaded.accept_straight` — scripts without branches and calls run to their end;
* `Assembly.scopes_threaded` — what a script sees after any offers, and what is
  stored of it.
-/
import StoryPack.Proofs.Confinement.Loading
import StoryPack.Proofs.Confinement.Opening
import StoryPack.Proofs.Pack.Assembly
import StoryPack.Proofs.Script.Straight

namespace StoryPack

open Script

variable {W W' : Ward}

namespace Assembler

/-- What becomes of an entry with a script that has ended: the host, and the assembler with the new
node, or as it was and the fault. -/
def concluded (a : Assembler) (place : Place) (room : Site) (sandbox : Sandbox)
    (ended : Host × Except ScriptFault (List Value)) : Host × Assembler × Except LoadFault Unit :=
  match left place sandbox ended with
  | (host, .error f) => (host, a, .error (.script (Address.script place).path f))
  | (host, .ok (scope, view)) =>
    (host, { a with state := .loading (room.insert scope view) }, .ok ())

variable {a : Assembler} {host host' : Host} {place : Place} {room : Site}
  {parents : List (String × Nat)}

theorem accept_eq_concluded (hroom : a.site place = .ok room) {sandbox : Sandbox} {own : Nat}
    (hopened : a.opened host room.parents place = (host', .ok (sandbox, own)))
    (budget : Option Nat) (source : ByteArray) :
    a.accept host budget (.script place source) = a.concluded place room sandbox
      (host'.execute sandbox source (Address.script place).path budget) := by
  unfold accept concluded
  simp only [hroom, runScript_eq, hopened]
  rfl

/-- A script for which there is no sandbox is not run. -/
theorem accept_of_not_opened (hroom : a.site place = .ok room) {f : ScriptFault}
    (hopened : a.opened host room.parents place = (host', .error f)) (budget : Option Nat)
    (source : ByteArray) :
    a.accept host budget (.script place source) =
      (host', a, .error (.script (Address.script place).path f)) := by
  unfold accept
  simp only [hroom, runScript_eq, hopened]
  rfl

/-- A sandbox is missing only for want of memory. -/
theorem opened_error {f : ScriptFault} (h : (a.opened host parents place).2 = .error f) :
    f = .outOfMemory ∧ host.heap.limit ≠ none := by
  have hlimit := host.limit_newTable
  unfold opened at h
  rcases htable : host.newTable with ⟨host₁, g | fresh⟩
  · rw [htable] at h
    cases h
    exact (host.withHeap (host.heap.newTable {}).1).afford_error
      (congrArg Prod.snd htable)
  · rw [htable] at h hlimit
    dsimp only at h hlimit
    rcases hsandbox : host₁.newSandbox (a.bindings parents place.level fresh) with
      ⟨host₂, g | sandbox⟩
    · rw [hsandbox] at h
      cases h
      rw [Host.newSandbox_eq] at hsandbox
      obtain ⟨hf, hne⟩ := Host.afford_error _ (congrArg Prod.snd hsandbox)
      exact ⟨hf, fun hnone => hne ((host₁.limit_furnish _).trans (hlimit.trans hnone))⟩
    · rw [hsandbox] at h
      cases h

/-- Without a limit there is a sandbox, and only two tables have been added. -/
theorem opened_of_limit (a : Assembler) (hlimit : host.heap.limit = none)
    (parents : List (String × Nat)) (place : Place) :
    ∃ host' used, a.opened host parents place =
        (host', .ok (⟨host.heap.tables.size + 1⟩, host.heap.tables.size)) ∧
      host'.heap = { host.heap with
        tables := (host.heap.tables.push {}).push (Table.named
          (host.defaults (host.heap.tables.size + 1) ++
            a.bindings parents place.level host.heap.tables.size))
        used := used } ∧
      host'.interpreter.held = host.interpreter.held := by
  obtain ⟨host', used, hsandbox, hrest⟩ := Host.newSandbox_newTable hlimit
    (a.bindings parents place.level host.heap.tables.size)
  exact ⟨host', used, opened_eq_ok_iff.mpr ⟨_, Host.newTable_of_limit hlimit, hsandbox⟩, hrest⟩

/-- The views of the parents of a site have the names of the levels above. -/
theorem map_parents {P : Place → String × Nat → Prop} {above : List Place}
    {parents : List (String × Nat)}
    (h : List.Forall₂ (fun p parent => parent.1 = p.level ∧ P p parent) above parents) :
    parents.map (·.1) = above.map Place.level := by
  induction h with
  | nil => rfl
  | cons h _ ih => rw [List.map_cons, List.map_cons, h.1, ih]

/-- The names that a script sees are different ones. -/
theorem nodup_names (place : Place) :
    (Host.defaultNames ++ ("globals" :: place.above.map Place.level ++ [place.level])).Nodup := by
  cases place <;> simp only [Place.above, Place.level, List.map] <;> decide

/-- No level has the name of something else that a script sees. -/
theorem not_default :
    ∀ name ∈ ["pack", "phase", "stage", "action"], name ∉ Host.defaultNames ∧ name ≠ "globals" := by
  decide

theorem map_openings (a : Assembler) (host : Host)
    (hparents : parents.map (·.1) = place.above.map Place.level) (fresh : Nat) :
    (host.openings (a.bindings parents place.level fresh)).map (·.1) =
      Host.defaultNames ++ ("globals" :: place.above.map Place.level ++ [place.level]) := by
  rw [Host.openings, List.map_append, Host.map_defaults, ← hparents]
  simp [bindings]

end Assembler

namespace Assembly

/-- Scripts have not got beyond what is fixed, and the views of all nodes show their scopes. -/
structure Threaded (W : Ward) (s : Assembly) : Prop where
  host : s.host.Confined W
  held : s.assembler.Held W s.host.heap

theorem threaded_start {host host' : Host} (hh : host.Confined W) {a : Assembler}
    (hnew : Assembler.new host = (host', .ok a)) : (start host' a.globals).Threaded W := by
  obtain ⟨hleads, hheld⟩ := Assembler.new_leads hh
  rw [hnew] at hleads hheld
  obtain ⟨_, globals, -, -, rfl⟩ := Assembler.new_eq_ok_iff.mp hnew
  exact ⟨hleads.confined, hheld _ rfl⟩

theorem Threaded.offer {s : Assembly} (hs : s.Threaded W) (budget : Option Nat) (e : Entry) :
    ∃ W', s.host.Leads W W' (s.offer budget e).host ∧ (s.offer budget e).Threaded W' := by
  obtain ⟨W', hleads, hheld⟩ := Assembler.accept_leads hs.host hs.held budget e
  refine ⟨W', ?_⟩
  unfold Assembly.offer
  generalize s.assembler.accept s.host budget e = r at hleads hheld ⊢
  obtain ⟨host, a, f | _⟩ := r
  · exact ⟨hleads, hleads.confined, hheld⟩
  · cases e with
    | options members => exact ⟨hleads, hleads.confined, hheld⟩
    | script place source => exact ⟨hleads, hleads.confined, hheld⟩

theorem Threaded.run {s : Assembly} (hs : s.Threaded W) (budget : Option Nat)
    (entries : List Entry) :
    ∃ W', s.host.Leads W W' (s.run budget entries).host ∧ (s.run budget entries).Threaded W' := by
  induction entries generalizing W s with
  | nil => exact ⟨W, .refl hs.host, hs⟩
  | cons e rest ih =>
    obtain ⟨W', hleads, hs'⟩ := hs.offer budget e
    obtain ⟨W'', hleads', hs''⟩ := ih hs'
    exact ⟨W'', hleads.trans hleads', hs''⟩

/-- What the script of a place sees when it starts in a sandbox of a host. Its sandbox and the table
`own` under the name of its own level are new, and all else is as it was, but for what the collector
has taken out of weak tables where memory is short. -/
structure Sees (s : Assembly) (place : Place) (host : Host) (sandbox : Sandbox) (own : Nat) :
    Prop where
  fresh : own = s.host.heap.tables.size ∧ sandbox.env = s.host.heap.tables.size + 1
  old : ∀ r < s.host.heap.tables.size,
    (s.host.heap.table r).metatable = none ∨ s.host.heap.limit = none →
      host.heap.table r = s.host.heap.table r
  globals : host.get sandbox "globals" = .table s.assembler.globals
  /-- Under the name of a level above, there is a view of what is stored for the node above. -/
  above : ∀ p ∈ place.above, ∃ view scope,
    host.get sandbox p.level = .table view ∧ (∃ m b t, host.heap.Views view m b t) ∧
      s.assembler.scopeAt? p = some scope ∧ (p, some scope) ∈ s.scripts ∧
      host.heap.Displays (.table view) scope.value
  own : host.get sandbox place.level = .table own ∧ host.heap.table own = {}
  rest : ∀ name ∈ ["pack", "phase", "stage", "action"],
    name ∉ place.above.map Place.level → name ≠ place.level → host.get sandbox name = .nil

/-- A script is opened with what it sees. -/
theorem Threaded.sees {s : Assembly} (hs : s.Threaded W) (hfaithful : s.Faithful) {place : Place}
    {room : Assembler.Site} (hroom : s.assembler.site place = .ok room) {host : Host}
    {sandbox : Sandbox} {own : Nat}
    (hopened : s.assembler.opened s.host room.parents place = (host, .ok (sandbox, own))) :
    s.Sees place host sandbox own := by
  obtain ⟨hparents, -⟩ := Assembler.site_shows hs.held.views hroom
  obtain ⟨hleads, -⟩ := Assembler.opened_leads hs.host hs.held
    (hs.held.parents_ok hs.host.kept hroom) place
  rw [hopened] at hleads
  -- the sandbox is opened after the table for the scope has been added
  obtain ⟨host₁, htable, hsandbox⟩ := Assembler.opened_eq_ok_iff.mp hopened
  obtain ⟨-, -, hsize, hown⟩ := Host.newTable_kept hs.host
  have htables := fun r => Host.table_newTable s.host (r := r)
  have hlimit := s.host.limit_newTable
  rw [htable] at hsize hown htables hlimit
  obtain ⟨rfl, -⟩ := hown own rfl
  have hbound := Host.get_newSandbox_of_mem hsandbox
  have hnames := Assembler.map_parents hparents
  have hnodup := Assembler.nodup_names place
  have hopenings := Assembler.map_openings s.assembler host₁ hnames s.host.heap.tables.size
  rw [← hopenings] at hnodup
  have hold {r : Nat} (hr : r < host₁.heap.tables.size)
      (hstrong : (s.host.heap.table r).metatable = none ∨ s.host.heap.limit = none) :
      host.heap.table r = if r = s.host.heap.tables.size then {} else s.host.heap.table r := by
    rw [Host.table_newSandbox_of_ne hsandbox (Nat.ne_of_lt hr), htables r hstrong]
    rw [htables r hstrong, hlimit]
    split
    · exact .inl rfl
    · exact hstrong
  refine ⟨⟨rfl, ?_⟩, fun r hr hstrong => ?_, ?_, fun p hp => ?_, ⟨?_, ?_⟩,
    fun name hname habove hown => ?_⟩
  · rw [(Host.eq_of_newSandbox hsandbox).2]
    exact hsize
  · have hr' : r < host₁.heap.tables.size := by
      dsimp only at hsize
      omega
    exact (hold hr' hstrong).trans (if_neg (Nat.ne_of_lt hr))
  · exact hbound hnodup List.mem_cons_self
  · -- the parent of the site for this level is the view of the node, and shows its scope still
    obtain ⟨parent, hparent, hname, scope, hnode, hshows⟩ :=
      Heap.exists_of_forall₂ hparents.flip hp
    have hlasts := hshows.lasts hs.host.kept hleads.confined.kept hleads.contains
    have hscope := Assembler.scopeAt?_eq_some_iff.mpr hnode
    refine ⟨parent.2, scope, hbound hnodup ?_, hlasts.views hleads.confined.kept, hscope,
      hfaithful.scopeAt?_eq_some_iff.mp hscope, hlasts.spells.displays⟩
    simp only [Assembler.bindings, ← hname, List.cons_append, List.mem_cons, List.mem_append,
      List.mem_map]
    exact .inr (.inl ⟨parent, hparent, rfl⟩)
  · exact hbound hnodup (List.mem_append_right _ (List.mem_singleton.mpr rfl))
  · have hnone : (s.host.heap.table s.host.heap.tables.size).metatable = none := by
      simp [Heap.table]
    have hlt : s.host.heap.tables.size < host₁.heap.tables.size := by
      dsimp only at hsize
      omega
    exact (hold hlt (.inl hnone)).trans (if_pos rfl)
  · have hdefault := Assembler.not_default name hname
    have hnot : name ∉ (host₁.openings (s.assembler.bindings room.parents place.level
        s.host.heap.tables.size)).map (·.1) := by
      rw [hopenings]
      simp only [List.mem_append, List.mem_cons, List.not_mem_nil, or_false]
      tauto
    exact Host.get_newSandbox_of_not_mem hsandbox hnot

/-- What an entry that is taken leaves. -/
theorem offer_of_accept {s : Assembly} {budget : Option Nat} {e : Entry} {host : Host}
    {a : Assembler} (ha : s.assembler.accept s.host budget e = (host, a, .ok ())) :
    (s.offer budget e).host = host ∧ (s.offer budget e).assembler = a := by
  unfold Assembly.offer
  rw [ha]
  cases e <;> exact ⟨rfl, rfl⟩

/-- The table of globals is the same one in all offers. -/
theorem globals_offer (budget : Option Nat) (s : Assembly) (e : Entry) :
    (s.offer budget e).assembler.globals = s.assembler.globals := by
  rcases offer_cases budget s e with
    ⟨host, h⟩ | ⟨host, members, -, h⟩ | ⟨host, place, room, scope, view, -, h⟩ <;> rw [h]

theorem globals_run (budget : Option Nat) (s : Assembly) (entries : List Entry) :
    (s.run budget entries).assembler.globals = s.assembler.globals := by
  induction entries generalizing s with
  | nil => rfl
  | cons e rest ih => exact (ih _).trans (globals_offer budget s e)

/-- What is stored of a script that has been taken, `ended` being its end: the snapshot of what the
name of its own level holds then. Nothing else in the tree is changed. -/
structure Stores (s : Assembly) (place : Place) (sandbox : Sandbox)
    (ended : Host × Except ScriptFault (List Value)) (a : Assembler) : Prop where
  ok : ∃ vs, ended.2 = .ok vs
  scope : ∃ r scope, ended.1.get sandbox place.level = .table r ∧
    ended.1.heap.snapshot r = .ok scope ∧ a.scopeAt? place = some scope
  others : ∀ other, other ≠ place → a.scopeAt? other = s.assembler.scopeAt? other

theorem stores_of_concluded {s : Assembly} {place : Place} {room : Assembler.Site}
    (hroom : s.assembler.site place = .ok room) {sandbox : Sandbox}
    {ended : Host × Except ScriptFault (List Value)} {host : Host} {a : Assembler}
    (ha : s.assembler.concluded place room sandbox ended = (host, a, .ok ())) :
    s.Stores place sandbox ended a := by
  obtain ⟨host', f | vs⟩ := ended
  · simp [Assembler.concluded, Assembler.left] at ha
  cases hscope : host'.takeScope sandbox place.level (Address.script place).path with
  | error f => simp [Assembler.concluded, Assembler.left, hscope] at ha
  | ok scope =>
    rcases hfreeze : host'.freeze scope [.table sandbox.env] with ⟨host'', f | view⟩
    · simp [Assembler.concluded, Assembler.left, hscope, hfreeze] at ha
    · simp only [Assembler.concluded, Assembler.left, hscope, hfreeze, Prod.mk.injEq,
        and_true] at ha
      obtain ⟨-, rfl⟩ := ha
      have hnode (x : Place × Scope.Table) :
          x ∈ (room.insert scope view).nodes ↔ x = (place, scope) ∨ x ∈ s.assembler.nodes := by
        rw [(Assembler.nodes_insert hroom scope view).mem_iff, List.mem_cons]
      refine ⟨⟨vs, rfl⟩, ?_, fun other hother => Option.ext fun scope' => ?_⟩
      · obtain ⟨r, hr, hsnapshot⟩ := Host.takeScope_eq_ok hscope
        exact ⟨r, scope, hr, hsnapshot,
          Assembler.scopeAt?_eq_some_iff.mpr ((hnode _).mpr (.inl rfl))⟩
      · rw [Assembler.scopeAt?_eq_some_iff, Assembler.scopeAt?_eq_some_iff]
        refine (hnode _).trans (or_iff_right fun heq => hother ?_)
        exact congrArg Prod.fst heq

/-! ### Scripts without branches -/

/-- The heap in which the script of a place starts. The function has the table of its global
variables at hand, which is a new one. -/
structure Ready (s : Assembly) (place : Place) (h : Heap) (env u : Nat) : Prop where
  cell : h.cell u = .table env
  size : h.tables.size = s.host.heap.tables.size + 2
  fresh : s.host.heap.tables.size ≤ env ∧ env < h.tables.size
  sound : (h.table env).Sound
  metatable : (h.table env).metatable = none
  globals : (h.table env).get (.str "globals".toUTF8) = .table s.assembler.globals
  setmetatable : (h.table env).get (.str "setmetatable".toUTF8) = .builtin (.base .setmetatable)
  own : ∃ own < env, (h.table env).get (.str place.level.toUTF8) = .table own ∧ h.table own = {}
  /-- Under the name of a level above, there is a view of the scope of the node above. -/
  above : ∀ p ∈ place.above, ∃ view m b t scope,
    (h.table env).get (.str p.level.toUTF8) = .table view ∧ h.Views view m b t ∧
      s.assembler.scopeAt? p = some scope ∧
      ∀ k w v, scope.get? k = some w → w.leaf? = some v → t.get k.toScript = v
  old : ∀ r < s.host.heap.tables.size, h.table r = s.host.heap.table r
  limit : h.limit = none
  pace : h.pace = s.host.heap.pace
  tripped : h.tripped = false

theorem Ready.resting {s : Assembly} {place : Place} {h : Heap} {env u : Nat}
    (hready : s.Ready place h env u) (hrest : s.host.heap.Resting) : h.Resting :=
  ⟨hready.limit, hready.pace.trans hrest.pace⟩

/-- Without a limit, such a script is run to its end. Before it returns the collector runs, if it is
due. -/
theorem Threaded.accept_tended {s : Assembly} (hs : s.Threaded W) (hfaithful : s.Faithful)
    (hlimit : s.host.heap.limit = none) {place : Place} {room : Assembler.Site}
    (hroom : s.assembler.site place = .ok room)
    (hlabel : Bytes.indexOf? (Address.script place).path.toUTF8 (· == 0) 0 = none)
    {source : ByteArray}
    (hbinary : (0 < source.size && Bytes.byte source 0 == Library.binaryMark) = false) {p : Proto}
    (hp : compile (chunkName ("=" ++ (Address.script place).path).toUTF8) source = .ok p)
    (hregisters : p.registers < 10) {code : List Instr} (hshort : code.length < 1000)
    (hcode : p.code.toList = code ++ [.ret 0 0 false]) :
    ∃ h env u, s.Ready place h env u ∧ h.Kept W ∧
      ∀ h' f, Frame.Along h (.initial ⟨p, #[u]⟩) code h' f → h'.limit = none →
        h'.tripped = false →
          ∃ ended : Host, ended.heap = h'.tended
              (.table env :: s.host.interpreter.held ++ f.rootsAt h' f.pc []) ∧
            s.assembler.accept s.host none (.script place source) =
              s.assembler.concluded place room ⟨env⟩ (ended, .ok []) := by
  obtain ⟨opened, used, hopened, hheap, hheld⟩ :=
    s.assembler.opened_of_limit hlimit room.parents place
  let es := s.host.defaults (s.host.heap.tables.size + 1) ++
    s.assembler.bindings room.parents place.level s.host.heap.tables.size
  obtain ⟨-, hold, hglobals, habove, ⟨hown, hempty⟩, -⟩ := hs.sees hfaithful hroom hopened
  obtain ⟨hleads, hok⟩ := Assembler.opened_leads hs.host hs.held
    (hs.held.parents_ok hs.host.kept hroom) place
  rw [hopened] at hleads hok
  have hconcluded := Assembler.accept_eq_concluded hroom hopened none source
  obtain ⟨hparents, -⟩ := Assembler.site_shows hs.held.views hroom
  have hnames : es.map (·.1) =
      Host.defaultNames ++ ("globals" :: place.above.map Place.level ++ [place.level]) := by
    rw [List.map_append, Host.map_defaults, ← Assembler.map_parents hparents]
    simp [Assembler.bindings]
  have hsetmetatable : ("setmetatable", .builtin (.base .setmetatable)) ∈ es :=
    List.mem_append_left _ (by simp [Host.defaults, Host.baseAllowed])
  have hsize : opened.heap.tables.size = s.host.heap.tables.size + 2 := by
    rw [hheap, Array.size_push, Array.size_push]
  have hnamed : opened.heap.table (s.host.heap.tables.size + 1) = Table.named es := by
    have htable := Heap.table_push (h := (s.host.heap.newTable {}).1) opened.heap
      (r := s.host.heap.tables.size + 1) (t := Table.named es) (by rw [hheap]; rfl)
    exact htable.trans (if_pos (Array.size_push ..).symm)
  rw [Host.get, Heap.getName, Heap.getKey_eq] at hglobals hown
  refine ⟨opened.loaded ⟨s.host.heap.tables.size + 1⟩ p, s.host.heap.tables.size + 1,
    opened.heap.cells.size, ?_, ?_, fun h' f hrun hlimit htripped => ?_⟩
  · refine ⟨opened.cell_loaded _ p, hsize, ?_, ?_, ?_, hglobals, ?_,
      ⟨_, Nat.lt_succ_self _, hown, hempty⟩, fun q hq => ?_, fun r hr => hold r hr (.inr hlimit),
      (congrArg (·.limit) hheap).trans hlimit, congrArg (·.pace) hheap, rfl⟩
    · exact ⟨Nat.le_succ _, Nat.lt_of_lt_of_eq (Nat.lt_succ_self _) hsize.symm⟩
    · exact hnamed ▸ Table.sound_named es
    · exact hnamed ▸ Table.metatable_named es
    · show (opened.heap.table (s.host.heap.tables.size + 1)).get _ = _
      rw [hnamed]
      exact Table.get_named_of_mem (hnames ▸ Assembler.nodup_names place) hsetmetatable
    · obtain ⟨view, scope, hview, ⟨m, b, t, hviews⟩, hscope, -, hdisplays⟩ := habove q hq
      rw [Host.get, Heap.getName, Heap.getKey_eq] at hview
      refine ⟨view, m, b, t, scope, hview, ?_, hscope, fun k w v hk hleaf => ?_⟩
      · exact ⟨hviews.proxy, hviews.metatable, hviews.backing, hviews.plain⟩
      · rw [← hviews.backing, ← hviews.readThrough]
        exact hdisplays.get hk hleaf
  · have hcompile := @Host.compile_of_eq_ok opened ⟨s.host.heap.tables.size + 1⟩ _ _ p hlabel
      hbinary hp
    exact (Host.compile_kept hleads.confined (hok _ _ rfl) hcompile).1.kept.congr rfl rfl rfl rfl
  · have hpatience : 3 * code.length + 3 ≤ Script.patience := by
      unfold Script.patience
      omega
    obtain ⟨ended, hended, hended'⟩ := Host.executeWithin_straight hlabel hbinary hp hregisters _
      hpatience hcode hrun hlimit htripped
    rw [hheld] at hended'
    replace hended : opened.execute _ source _ none = (ended, .ok []) := hended
    exact ⟨ended, hended', by rw [hconcluded, hended]⟩

/-- When the collector rests, it is not due. -/
theorem Threaded.accept_straight {s : Assembly} (hs : s.Threaded W) (hfaithful : s.Faithful)
    (hrest : s.host.heap.Resting) {place : Place} {room : Assembler.Site}
    (hroom : s.assembler.site place = .ok room)
    (hlabel : Bytes.indexOf? (Address.script place).path.toUTF8 (· == 0) 0 = none)
    {source : ByteArray}
    (hbinary : (0 < source.size && Bytes.byte source 0 == Library.binaryMark) = false) {p : Proto}
    (hp : compile (chunkName ("=" ++ (Address.script place).path).toUTF8) source = .ok p)
    (hregisters : p.registers < 10) {code : List Instr} (hshort : code.length < 1000)
    (hcode : p.code.toList = code ++ [.ret 0 0 false]) :
    ∃ h env u, s.Ready place h env u ∧
      ∀ h' f, Frame.Along h (.initial ⟨p, #[u]⟩) code h' f → h'.Resting → h'.tripped = false →
        ∃ ended : Host, ended.heap = h' ∧
          s.assembler.accept s.host none (.script place source) =
            s.assembler.concluded place room ⟨env⟩ (ended, .ok []) := by
  obtain ⟨h, env, u, hready, -, hrun⟩ := hs.accept_tended hfaithful hrest.limit hroom hlabel hbinary
    hp hregisters hshort hcode
  refine ⟨h, env, u, hready, fun h' f halong hrest' htripped => ?_⟩
  obtain ⟨ended, hheap, haccept⟩ := hrun h' f halong hrest'.limit htripped
  exact ⟨ended, hheap.trans (Heap.tended_of_not_due hrest'.isDue _), haccept⟩

/-- Then its entry is taken, if the name of its level holds a table that can be read. -/
theorem concluded_of_readable (a : Assembler) (place : Place) (room : Assembler.Site)
    {ended : Host} (hlimit : ended.heap.limit = none) {sandbox : Sandbox} {r : Nat}
    (hr : ended.get sandbox place.level = .table r) (hreadable : ended.heap.Readable (.table r))
    (vs : List Value) :
    ∃ host scope view, ended.heap.Displays (.table r) scope.value ∧
      a.concluded place room sandbox (ended, .ok vs) =
        (host, { a with state := .loading (room.insert scope view) }, .ok ()) ∧
      ended.heap.Extends host.heap := by
  obtain ⟨scope, hscope, hspells, -⟩ := hreadable.spells
  have hkeyed := hspells.keyed
  have hfreeze := Host.freeze_of_limit hlimit hkeyed [.table sandbox.env]
  obtain ⟨hextends, -⟩ := ended.heap.freeze_spells hkeyed
  have htake : ended.takeScope sandbox place.level (Address.script place).path = .ok scope := by
    simp [Host.takeScope, hr, hscope]
  let host := ended.withHeap (ended.heap.freeze scope).1
  refine ⟨host.hold (.table (ended.heap.freeze scope).2), scope, (ended.heap.freeze scope).2,
    hspells.displays, ?_, hextends⟩
  simp only [Assembler.concluded, Assembler.left, htake, hfreeze]
  rfl

/-- An empty table can be read. -/
theorem readable_empty {h : Heap} {r : Nat} (hr : h.table r = {}) : h.Readable (.table r) := by
  have hreads : h.readThrough r = r := by
    unfold Heap.readThrough Heap.backing?
    rw [hr]
    rfl
  have hget (k : Key) : (h.table (h.readThrough r)).get k = .nil := by
    rw [hreads, hr, Table.get_empty]
  refine .table ?_ (fun k hk => absurd (hget k) hk) fun k hk => absurd (hget k) hk
  rw [hreads, hr]
  exact Table.sound_empty 0 none

/-- A table of one text can be read. -/
theorem readable_named {h : Heap} {r : Nat} {name s : String}
    (hr : h.table r = ({} : Table).set (.str name.toUTF8) (.str s.toUTF8)) :
    h.readThrough r = r ∧ h.Readable (.table r) ∧
      (h.table r).get (.str name.toUTF8) = .str s.toUTF8 := by
  have hsound : (h.table r).Sound := hr ▸ ((Table.sound_empty 0 none).set _ _).1
  have hreads : h.readThrough r = r := by
    unfold Heap.readThrough Heap.backing?
    rw [hr, Table.metatable_set]
    rfl
  have hget (k : Key) : (h.table r).get k =
      if k = .str name.toUTF8 then .str s.toUTF8 else .nil := by
    rw [hr, Table.get_set (Table.sound_empty 0 none), Table.get_empty]
  refine ⟨hreads, .table (hreads.symm ▸ hsound) (fun k hk => ?_) fun k hk => ?_,
    (hget _).trans (if_pos rfl)⟩
  all_goals
    rw [hreads, hget] at hk
    split at hk
  · exact ⟨.text name, ‹_›⟩
  · exact absurd rfl hk
  · rw [hreads, hget, if_pos ‹_›]
    exact .leaf (w := .text s) rfl
  · exact absurd rfl hk

/-- The text that a scope has as its title. -/
def titled (scope : Scope.Table) : Prop := scope.get? (.text "title") = some (.text "Tale")

/-- A script that has put the title into its own table is taken, and its scope has the title. -/
theorem Ready.concluded_titled {s : Assembly} {place : Place} {h : Heap} {env u : Nat}
    (hready : s.Ready place h env u) (hrest : s.host.heap.Resting) (room : Assembler.Site)
    {own : Nat} (hown : own < env) (hget : (h.table env).get (.str place.level.toUTF8) = .table own)
    (hempty : h.table own = {}) {ended : Host}
    (hheap : ended.heap = h.setKey own (.str "title".toUTF8) (.str "Tale".toUTF8)) :
    ∃ host scope view, titled scope ∧
      s.assembler.concluded place room ⟨env⟩ (ended, .ok []) =
        (host, { s.assembler with state := .loading (room.insert scope view) }, .ok ()) ∧
      host.heap.Resting := by
  have hlt : own < h.tables.size := Nat.lt_trans hown hready.fresh.2
  have htable (r : Nat) : ended.heap.table r = _ := hheap ▸ Heap.table_setKey h hlt _ _ r
  have hnamed := (htable own).trans (if_pos rfl)
  rw [hempty] at hnamed
  have hpath : ended.get ⟨env⟩ place.level = .table own := by
    rw [Host.get, Heap.getName, Heap.getKey_eq, htable, if_neg (Nat.ne_of_gt hown)]
    exact hget
  have hrest : ended.heap.Resting := hheap ▸ (hready.resting hrest).setKey ..
  obtain ⟨hreads, hreadable, htitle⟩ := readable_named hnamed
  obtain ⟨host, scope, view, hdisplays, hconcluded, hextends⟩ :=
    concluded_of_readable s.assembler place room hrest.limit hpath hreadable []
  exact ⟨host, scope, view, hdisplays.get?_text (hreads.symm ▸ htitle), hconcluded,
    hextends.limit.trans hrest.limit, hextends.pace.trans hrest.pace⟩

/-- A script that gives the pack a title. -/
def titleSource : ByteArray := "pack.title = \"Tale\"".toUTF8

/-- The code of this script, up to its return. -/
def titleCode : List Instr :=
  [.index 0 (.upvalue 0) (.constant (.str "pack".toUTF8)),
   .setIndex (.register 0) (.constant (.str "title".toUTF8)) (.constant (.str "Tale".toUTF8))]

theorem exists_compile_title :
    ∃ p, compile (chunkName ("=" ++ (Address.script .pack).path).toUTF8) titleSource = .ok p ∧
      p.code.toList = titleCode ++ [.ret 0 0 false] ∧ p.registers = 1 := by
  refine exists_of_compilesTo ?_
  decide +kernel

theorem exists_compile_copying :
    ∃ p, compile (chunkName ("=" ++ (Address.script (.phase "p")).path).toUTF8) Session.copying =
        .ok p ∧
      p.code.toList = Session.copyingCode ++ [.ret 0 0 false] ∧ p.registers = 3 := by
  refine exists_of_compilesTo ?_
  decide +kernel

/-- The first one is taken, and gives the pack its title. -/
theorem Threaded.accept_title {s : Assembly} (hs : s.Threaded W) (hfaithful : s.Faithful)
    (hrest : s.host.heap.Resting) {room : Assembler.Site}
    (hroom : s.assembler.site .pack = .ok room) :
    ∃ host scope view, titled scope ∧ s.assembler.accept s.host none (.script .pack titleSource) =
        (host, { s.assembler with state := .loading (room.insert scope view) }, .ok ()) ∧
      host.heap.Resting := by
  obtain ⟨p, hp, hcode, hregisters⟩ := exists_compile_title
  obtain ⟨h, env, u, hready, hrun⟩ := hs.accept_straight hfaithful hrest hroom (by decide +kernel)
    rfl hp (by rw [hregisters]; decide) (by decide) hcode
  obtain ⟨own, hlt, hown, hempty⟩ := hready.own
  have hdue := (hready.resting hrest).isDue
  have hinitial := Frame.initial_of_registers (c := ⟨p, #[u]⟩) hregisters
  have hpack : (h.table env).getValue (.str "pack".toUTF8) = .table own := hown
  obtain ⟨f, halong⟩ : ∃ f, Frame.Along h (.initial ⟨p, #[u]⟩) titleCode
      (h.setKey own (.str "title".toUTF8) (.str "Tale".toUTF8)) f := by
    rw [hinitial]
    exact ⟨_, .cons hdue (.index _ hready.cell hpack rfl) <|
      .cons hdue (.setIndex rfl rfl (by rw [hempty])) (.nil ..)⟩
  obtain ⟨ended, hheap, haccept⟩ :=
    hrun _ f halong ((hready.resting hrest).setKey ..) hready.tripped
  obtain ⟨host, scope, view, htitle, hconcluded, hresting⟩ :=
    hready.concluded_titled hrest room hlt hown hempty hheap
  exact ⟨host, scope, view, htitle, haccept.trans hconcluded, hresting⟩

/-- There is room for a phase that is not there yet. -/
theorem site_phase {a : Assembler} {root : PackNode} (hstate : a.state = .loading root) {p : String}
    (hfree : root.phases.find? p = none) : a.site (.phase p) = .ok
      { parents := [("pack", root.view)]
        insert := fun scope view =>
          { root with phases := root.phases.insert p { scope := scope, view := view } } } := by
  have hroot := Assembler.root?_eq_ok_iff.mpr hstate
  simp [Assembler.site, hroot, bind, Except.bind, Directory.contains, hfree]

/-- The second one is taken after it, and its phase has the title as well. -/
theorem Threaded.accept_copying {s : Assembly} (hs : s.Threaded W) (hfaithful : s.Faithful)
    (hrest : s.host.heap.Resting) {room : Assembler.Site}
    (hroom : s.assembler.site (.phase "p") = .ok room) {above : Scope.Table}
    (habove : s.assembler.scopeAt? .pack = some above) (htitle : titled above) :
    ∃ host scope view, titled scope ∧
      s.assembler.accept s.host none (.script (.phase "p") Session.copying) =
        (host, { s.assembler with state := .loading (room.insert scope view) }, .ok ()) ∧
      host.heap.Resting := by
  obtain ⟨p, hp, hcode, hregisters⟩ := exists_compile_copying
  obtain ⟨h, env, u, hready, hrun⟩ := hs.accept_straight hfaithful hrest hroom (by decide +kernel)
    rfl hp (by rw [hregisters]; decide) (by decide) hcode
  obtain ⟨own, hlt, hown, hempty⟩ := hready.own
  obtain ⟨view, m, b, t, scope, hview, hviews, hscope, hvalues⟩ :=
    hready.above .pack List.mem_cons_self
  cases hscope.symm.trans habove
  obtain ⟨f, halong, -⟩ :=
    Session.along_copying (hready.resting hrest) hregisters hready.cell hown hview
    hviews (hvalues (.text "title") _ _ htitle rfl) (by rw [hempty])
  obtain ⟨ended, hheap, haccept⟩ :=
    hrun _ f halong ((hready.resting hrest).setKey ..) hready.tripped
  obtain ⟨host, scope, view, htitle, hconcluded, hresting⟩ :=
    hready.concluded_titled hrest room hlt hown hempty hheap
  exact ⟨host, scope, view, htitle, haccept.trans hconcluded, hresting⟩

/-- A host whose collector rests has an assembler. -/
theorem new_resting {host : Host} (hh : host.Confined W) (hrest : host.heap.Resting) :
    ∃ (host₀ : Host) (a₀ : Assembler), Assembler.new host = (host₀, .ok a₀) ∧
      (start host₀ a₀.globals).Threaded W ∧ (start host₀ a₀.globals).assembler = a₀ ∧
        host₀.heap.Resting ∧ host₀.heap.table a₀.globals = {} := by
  have hnew := Assembler.new_of_limit hrest.limit
  exact ⟨_, _, hnew, threaded_start hh hnew, rfl, ⟨hrest.limit, hrest.pace⟩,
    (Heap.table_push _ rfl).trans (if_pos rfl)⟩

/-- A new host has one. -/
theorem exists_start {host : Host} (hfresh : host.Fresh none) :
    ∃ (σ : Session) (host₀ : Host) (a₀ : Assembler) (W : Ward),
      (Session.start host).Reaches σ ∧ Assembler.new σ.host = (host₀, .ok a₀) ∧
        (start host₀ a₀.globals).Threaded W ∧ host₀.heap.Resting ∧
        host₀.heap.table a₀.globals = {} := by
  let σ : Session := { Session.start host with host := host.paced Pace.resting }
  have hσ : (Session.start host).Reaches σ := .step .refl (.pace Pace.resting)
  obtain ⟨W, -, hconfined⟩ := (Session.start_confined hfresh).reaches hσ
  obtain ⟨host₀, a₀, hnew, hstart, -, hrest, hempty⟩ :=
    new_resting hconfined.host ⟨hfresh.limit, rfl⟩
  exact ⟨σ, host₀, a₀, W, hσ, hnew, hstart, hrest, hempty⟩

/-- The first script is taken by such an assembler. -/
theorem new_titled {host : Host} (hh : host.Confined W) (hrest : host.heap.Resting) :
    ∃ (host₀ : Host) (a₀ : Assembler) (W' : Ward) (scope : Scope.Table) (view : Nat),
      Assembler.new host = (host₀, .ok a₀) ∧
      let s := (start host₀ a₀.globals).run none [.script .pack titleSource]
      a₀.accept host₀ none (.script .pack titleSource) = (s.host, s.assembler, .ok ()) ∧
        s.Threaded W' ∧ s.Faithful ∧ s.host.heap.Resting ∧
        s.assembler.state = .loading { scope := scope, view := view } ∧
        s.assembler.scopeAt? .pack = some scope ∧ titled scope := by
  obtain ⟨host₀, a₀, hnew, hstart, hsame, hrest₀, -⟩ := new_resting hh hrest
  have hfaithful := faithful_start host₀ a₀.globals
  obtain ⟨host₁, scope, view, htitle, haccept, hrest₁⟩ := hstart.accept_title hfaithful hrest₀ rfl
  obtain ⟨hhost₁, hassembler⟩ := offer_of_accept haccept
  obtain ⟨W', -, hthreaded⟩ := hstart.offer none (.script .pack titleSource)
  rw [hsame] at haccept
  refine ⟨host₀, a₀, W', scope, view, hnew,
    haccept.trans (Prod.ext hhost₁.symm (Prod.ext (hassembler.trans (hsame ▸ rfl)).symm rfl)),
    hthreaded, hfaithful.offer none _, ?_, ?_, ?_, htitle⟩
  · exact hhost₁ ▸ hrest₁
  · exact congrArg Assembler.state hassembler
  · exact congrArg (fun a : Assembler => a.scopeAt? .pack) hassembler

/-- There is a pack with a title, after its script has been taken. -/
theorem exists_titled : ∃ (host : Host) (σ : Session) (host₀ : Host) (a₀ : Assembler) (W : Ward)
    (scope : Scope.Table) (view : Nat), Host.new none = .ok host ∧ (Session.start host).Reaches σ ∧
      Assembler.new σ.host = (host₀, .ok a₀) ∧
      let s := (start host₀ a₀.globals).run none [.script .pack titleSource]
      s.Threaded W ∧ s.Faithful ∧ s.host.heap.Resting ∧
        s.assembler.state = .loading { scope := scope, view := view } ∧
        s.assembler.scopeAt? .pack = some scope ∧ titled scope := by
  obtain ⟨host, hhost⟩ := Host.exists_new
  have hfresh := Host.fresh_of_new hhost
  let σ : Session := { Session.start host with host := host.paced Pace.resting }
  have hσ : (Session.start host).Reaches σ := .step .refl (.pace Pace.resting)
  obtain ⟨W, -, hconfined⟩ := (Session.start_confined hfresh).reaches hσ
  obtain ⟨host₀, a₀, W', scope, view, hnew, -, htitled⟩ :=
    new_titled hconfined.host ⟨hfresh.limit, rfl⟩
  exact ⟨host, σ, host₀, a₀, W', scope, view, hhost, hσ, hnew, htitled⟩

/-- Whatever entries an assembler has been offered before, the script of an entry that has room in
the tree is run once, in a new sandbox in which it sees the globals of the assembler, its own
ancestors as they are stored, an empty table under the name of its own level, and nothing under the
names of the levels below; it is not run only when a limit leaves no memory for this sandbox. What
becomes of the entry depends on nothing but the end of this run, and when it is taken, what is
stored is the snapshot of what the name of its own level holds then. -/
theorem scopes_threaded {limit : Option Nat} {host : Host} (hhost : Host.new limit = .ok host)
    {σ : Session} (hσ : (Session.start host).Reaches σ) {host₀ : Host} {a₀ : Assembler}
    (hnew : Assembler.new σ.host = (host₀, .ok a₀)) (budget : Option Nat) (entries : List Entry)
    {place : Place} {room : Assembler.Site}
    (hroom : ((start host₀ a₀.globals).run budget entries).assembler.site place = .ok room)
    (source : ByteArray) :
    let s := (start host₀ a₀.globals).run budget entries
    s.assembler.globals = a₀.globals ∧
    ((∃ full, s.host.heap.limit ≠ none ∧
        s.assembler.opened s.host room.parents place = (full, .error .outOfMemory) ∧
        s.assembler.accept s.host budget (.script place source) = (full, s.assembler,
          .error (.script (Address.script place).path .outOfMemory))) ∨
      ∃ opened sandbox own, s.Sees place opened sandbox own ∧
        let ended := opened.execute sandbox source (Address.script place).path budget
        s.assembler.accept s.host budget (.script place source) =
          s.assembler.concluded place room sandbox ended ∧
        ∀ host' a, s.assembler.accept s.host budget (.script place source) = (host', a, .ok ()) →
          s.Stores place sandbox ended a) := by
  intro s
  obtain ⟨W, -, hconfined⟩ := (Session.start_confined (Host.fresh_of_new hhost)).reaches hσ
  obtain ⟨W', -, hs⟩ := (threaded_start hconfined.host hnew).run budget entries
  have hfaithful : s.Faithful := (faithful_start host₀ a₀.globals).run budget entries
  refine ⟨globals_run budget _ entries, ?_⟩
  rcases hopened : s.assembler.opened s.host room.parents place with ⟨full, f | ⟨sandbox, own⟩⟩
  · obtain ⟨rfl, hlimit⟩ := Assembler.opened_error (congrArg Prod.snd hopened)
    exact .inl ⟨full, hlimit, rfl, Assembler.accept_of_not_opened hroom hopened budget source⟩
  · have haccept := Assembler.accept_eq_concluded hroom hopened budget source
    exact .inr ⟨full, sandbox, own, hs.sees hfaithful hroom hopened, haccept,
      fun host' a ha => stores_of_concluded hroom (haccept.symm.trans ha)⟩

/-- After a pack with a title, a script that takes it over is run as the theorem says: its phase
has the title as well. -/
theorem scopes_threaded_title : ∃ host σ host₀ a₀ room, Host.new none = .ok host ∧
    (Session.start host).Reaches σ ∧ Assembler.new σ.host = (host₀, .ok a₀) ∧
    let s := (start host₀ a₀.globals).run none [.script .pack titleSource]
    s.assembler.site (.phase "p") = .ok room ∧
    ∃ opened sandbox own, s.Sees (.phase "p") opened sandbox own ∧
      ∃ host' a, s.assembler.accept s.host none (.script (.phase "p") Session.copying) =
          (host', a, .ok ()) ∧
        s.Stores (.phase "p") sandbox
          (opened.execute sandbox Session.copying (Address.script (.phase "p")).path none) a ∧
        ∃ scope, a.scopeAt? (.phase "p") = some scope ∧ titled scope := by
  obtain ⟨host, σ, host₀, a₀, W, above, view, hhost, hσ, hnew, hs, hfaithful, hrest, hstate,
    habove, htitle⟩ := exists_titled
  have hroom := site_phase hstate (p := "p") rfl
  obtain ⟨host', scope, view, htitle, haccept, -⟩ :=
    hs.accept_copying hfaithful hrest hroom habove htitle
  obtain ⟨-, ⟨-, hlimit, -⟩ | ⟨opened, sandbox, own, hsees, -, hstores⟩⟩ :=
    scopes_threaded hhost hσ hnew none _ hroom Session.copying
  · exact absurd hrest.limit hlimit
  · exact ⟨host, σ, host₀, a₀, _, hhost, hσ, hnew, hroom, opened, sandbox, own, hsees, host', _,
      haccept, hstores _ _ haccept, scope, Assembler.scopeAt?_insert hroom scope view, htitle⟩

end Assembly

end StoryPack
