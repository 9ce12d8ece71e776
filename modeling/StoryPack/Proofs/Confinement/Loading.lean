/-
Loads keep what is fixed.

A load adds a table of globals, and for each script a sandbox, an empty table
and a view of what the script leaves.  Scripts may hold all of these, and what
was fixed before stays so.  So what holds of a host before a load holds of it
after the load as well, however the load ends.

* `Host.Leads` — a host that comes of another one;
* `Assembler.Held` — an assembler all of whose views show the scopes of their nodes;
* `Assembler.opened`, `Assembler.left` — what is done before and after a script is run;
* `Assembler.accept_leads`, `Assembler.acceptAll_leads` — one entry, and many;
* `Loader.execute_leads` — a load.
-/
import StoryPack.Pack.Loader
import StoryPack.Proofs.Confinement.Bindings
import StoryPack.Proofs.Confinement.Showing
import StoryPack.Proofs.Pack.Ancestry

namespace StoryPack

open Script

variable {W W' W'' : Ward} {host host' host'' : Host}

/-- A host that comes of another one: what was fixed is fixed, and scripts may hold what they could
hold before. Only the interpreter is another one, with the same limit, and entries only vanish. -/
structure Host.Leads (W W' : Ward) (host host' : Host) : Prop
    extends host.heap.Sheds host'.heap where
  contains : W'.Contains W
  confined : host'.Confined W'
  ok : ∀ v : Value, v.Ok W host.heap.tables.size → v.Ok W' host'.heap.tables.size
  rest : host' = { host with interpreter := host'.interpreter }

namespace Host

theorem Leads.refl (hh : host.Confined W) : host.Leads W W host :=
  ⟨.refl _, .refl W, hh, fun _ hv => hv, rfl⟩

theorem Leads.trans (h : host.Leads W W' host') (h' : host'.Leads W' W'' host'') :
    host.Leads W W'' host'' where
  toSheds := h.toSheds.trans h'.toSheds
  contains := h'.contains.trans h.contains
  confined := h'.confined
  ok v hv := h'.ok v (h.ok v hv)
  rest := by rw [h'.rest, h.rest]

/-- Nothing more is fixed. -/
theorem Leads.of_follows (hh : host'.Confined W) (hfollows : host.heap.Follows W host'.heap)
    (hrest : host' = { host with interpreter := host'.interpreter }) : host.Leads W W host' :=
  ⟨hfollows.toSheds, .refl W, hh, fun _ hv => hv.mono hfollows.size, hrest⟩

theorem Leads.hold (h : host.Leads W W' host') (v : Value) : host.Leads W W' (host'.hold v) where
  toSheds := h.toSheds
  contains := h.contains
  confined := h.confined.of_kept (host'.interpreter.hold v) (Nat.le_refl _) h.confined.kept
  ok := h.ok
  rest := congrArg (Host.hold · v) h.rest

theorem rest_afford {α : Type} (host : Host) (roots : List Value) (a : α) :
    (host.afford roots a).1 =
      { host with interpreter := (host.afford roots a).1.interpreter } := by
  obtain h | ⟨-, r, -, h⟩ := host.afford_cases roots a
  · rw [h]
  · rw [h]
    rfl

/-- Scripts may hold a table that is added. -/
theorem newTable_leads (hh : host.Confined W) :
    host.Leads W W host.newTable.1 ∧ ∀ r, host.newTable.2 = .ok r →
      (Value.table r).Ok W host.newTable.1.heap.tables.size := by
  obtain ⟨hconfined, hfollows, hsize, hmade⟩ := newTable_kept hh
  refine ⟨.of_follows hconfined hfollows (rest_afford ..), fun r hr => ?_⟩
  obtain ⟨hr, hfree⟩ := hmade r hr
  exact ⟨by omega, .inl hfree⟩

theorem newSandbox_leads (hh : host.Confined W) {bindings : List (String × Value)}
    (hbindings : ∀ e ∈ bindings, e.2.Ok W host.heap.tables.size) :
    host.Leads W W (host.newSandbox bindings).1 ∧
      ∀ sandbox, (host.newSandbox bindings).2 = .ok sandbox →
        (Value.table sandbox.env).Ok W (host.newSandbox bindings).1.heap.tables.size := by
  obtain ⟨hconfined, hfollows, hsize, hmade⟩ := newSandbox_kept hh hbindings
  refine ⟨.of_follows hconfined hfollows (rest_afford ..), fun sandbox hsandbox => ?_⟩
  obtain ⟨henv, hfree⟩ := hmade sandbox hsandbox
  exact ⟨by omega, .inl hfree⟩

theorem rest_compile {sandbox : Sandbox} {source : ByteArray} {label : String} {f : Value}
    (hf : host.compile sandbox source label = .ok (host', f)) :
    host' = { host with interpreter := host'.interpreter } := by
  unfold compile at hf
  dsimp only at hf
  split at hf
  · cases hf
  · split at hf
    · cases hf
    · split at hf
      · cases hf
        rfl
      · cases hf
      · cases hf

theorem rest_executeWithin (patience : Nat) (host : Host) (sandbox : Sandbox) (source : ByteArray)
    (label : String) (budget : Option Nat) :
    (executeWithin patience host sandbox source label budget).1 =
      { host with
        interpreter :=
          (executeWithin patience host sandbox source label budget).1.interpreter } := by
  unfold executeWithin
  split
  · rfl
  · rename_i host' f hf
    have hrest := rest_compile hf
    obtain ⟨interpreter, strings, tables, maths, pcall, xpcall⟩ := host'
    cases hrest
    dsimp only
    split
    · rfl
    · split <;> rfl
    · split <;> rfl

theorem executeWithin_leads (hh : host.Confined W) {sandbox : Sandbox}
    (henv : (Value.table sandbox.env).Ok W host.heap.tables.size) (patience : Nat)
    (source : ByteArray) (label : String) (budget : Option Nat) :
    host.Leads W W (executeWithin patience host sandbox source label budget).1 := by
  obtain ⟨hconfined, hfollows, -⟩ := executeWithin_kept hh henv patience source label budget
  exact .of_follows hconfined hfollows (rest_executeWithin ..)

/-- A view that is added is fixed. -/
theorem freeze_leads (hh : host.Confined W) {t : Scope.Table} (hkeyed : t.Keyed)
    (ht : t.Within fun f => (Value.function f).Ok W host.heap.tables.size) (roots : List Value) :
    host.Leads W (frozenWard W host t) (host.freeze t roots).1 := by
  obtain ⟨hconfined, hle, hfollows, hsize, -, hok⟩ := freeze_kept hh ht roots
  obtain ⟨hextends, -⟩ := host.heap.freeze_spells hkeyed
  refine ⟨hextends.sheds.trans hfollows.toSheds, hle, hconfined, fun w => hok w, ?_⟩
  · exact rest_afford (host.withHeap (host.heap.freeze t).1) _ _

end Host

namespace Assembler

variable {h : Heap} {a : Assembler}

/-- An assembler whose globals and views scripts may hold, and each of whose views shows the scope
of its node. -/
structure Held (W : Ward) (h : Heap) (a : Assembler) : Prop where
  globals : (Value.table a.globals).Ok W h.tables.size
  views : ∀ root, a.state = .loading root → root.Shows (h.Shows W)

theorem Held.leads (ha : a.Held W host.heap) (hh : host.Confined W)
    (hleads : host.Leads W W' host') : a.Held W' host'.heap where
  globals := hleads.ok _ ha.globals
  views root hroot := (ha.views root hroot).mono fun _ _ hv =>
    hv.lasts hh.kept hleads.confined.kept hleads.contains

/-- Scripts may hold the views of the parents of a site. -/
theorem Held.parents_ok (ha : a.Held W h) (hk : h.Kept W) {place : Place} {site : Site}
    (hsite : a.site place = .ok site) :
    ∀ parent ∈ site.parents, (Value.table parent.2).Ok W h.tables.size := by
  intro parent hparent
  obtain ⟨above, -, -, scope, -, hshows⟩ :=
    Heap.exists_of_forall₂ (site_shows ha.views hsite).1 hparent
  exact hshows.ok hk

/-- What a script sees is what scripts may hold. -/
theorem bindings_ok (ha : a.Held W h) {parents : List (String × Nat)}
    (hparents : ∀ parent ∈ parents, (Value.table parent.2).Ok W h.tables.size) (level : String)
    {fresh : Nat} (hfresh : (Value.table fresh).Ok W h.tables.size) :
    ∀ e ∈ a.bindings parents level fresh, e.2.Ok W h.tables.size := by
  intro e he
  simp only [bindings, List.mem_append, List.mem_cons, List.mem_map, List.not_mem_nil,
    or_false] at he
  rcases he with (rfl | ⟨parent, hparent, rfl⟩) | rfl
  · exact ha.globals
  · exact hparents parent hparent
  · exact hfresh

/-- A host with a fresh sandbox for the script of a place, and the table that the sandbox holds
under the name of its own level. -/
def opened (a : Assembler) (host : Host) (parents : List (String × Nat)) (place : Place) :
    Host × Except ScriptFault (Sandbox × Nat) :=
  match host.newTable with
  | (host, .error f) => (host, .error f)
  | (host, .ok fresh) =>
    match host.newSandbox (a.bindings parents place.level fresh) with
    | (host, .error f) => (host, .error f)
    | (host, .ok sandbox) => (host, .ok (sandbox, fresh))

theorem opened_eq_ok_iff {parents : List (String × Nat)} {place : Place} {sandbox : Sandbox}
    {fresh : Nat} :
    a.opened host parents place = (host', .ok (sandbox, fresh)) ↔ ∃ host₁,
      host.newTable = (host₁, .ok fresh) ∧
        host₁.newSandbox (a.bindings parents place.level fresh) = (host', .ok sandbox) := by
  unfold opened
  rcases host.newTable with ⟨host₁, f | fresh'⟩
  · simp
  · dsimp only
    constructor
    · intro h
      split at h
      · cases h
      · rename_i hsandbox
        cases h
        exact ⟨_, rfl, hsandbox⟩
    · rintro ⟨_, ⟨⟩, hsandbox⟩
      rw [hsandbox]

/-- What a script leaves when it has ended: its scope, and a view of that. -/
def left (place : Place) (sandbox : Sandbox) :
    Host × Except ScriptFault (List Value) → Host × Except ScriptFault (Scope.Table × Nat)
  | (host, .error f) => (host, .error f)
  | (host, .ok _) =>
    match host.takeScope sandbox place.level (Address.script place).path with
    | .error f => (host, .error f)
    | .ok scope =>
      match host.freeze scope [.table sandbox.env] with
      | (host, .error f) => (host, .error f)
      | (host, .ok view) => (host.hold (.table view), .ok (scope, view))

/-- A script is run once, between the two, if there is memory for its sandbox. -/
theorem runScript_eq (a : Assembler) (host : Host) (budget : Option Nat)
    (parents : List (String × Nat)) (place : Place) (source : ByteArray) :
    a.runScript host budget parents place source =
      match a.opened host parents place with
      | (host, .error f) => (host, .error f)
      | (host, .ok (sandbox, _)) =>
        left place sandbox (host.execute sandbox source (Address.script place).path budget) := by
  unfold runScript opened
  rcases host.newTable with ⟨host₁, f | fresh⟩
  · rfl
  · dsimp only
    rcases host₁.newSandbox (a.bindings parents place.level fresh) with ⟨host₂, f | sandbox⟩
    · rfl
    · dsimp only
      unfold left
      rcases host₂.execute sandbox source (Address.script place).path budget with
        ⟨host₃, f | vs⟩ <;> rfl

theorem opened_leads (hh : host.Confined W) (ha : a.Held W host.heap)
    {parents : List (String × Nat)}
    (hparents : ∀ parent ∈ parents, (Value.table parent.2).Ok W host.heap.tables.size)
    (place : Place) :
    host.Leads W W (a.opened host parents place).1 ∧
      ∀ sandbox fresh, (a.opened host parents place).2 = .ok (sandbox, fresh) →
        (Value.table sandbox.env).Ok W (a.opened host parents place).1.heap.tables.size := by
  obtain ⟨hleads, hfresh⟩ := Host.newTable_leads hh
  unfold opened
  rcases htable : host.newTable with ⟨host₁, f | fresh⟩
  · rw [htable] at hleads
    exact ⟨hleads, fun sandbox fresh h => by cases h⟩
  · rw [htable] at hleads hfresh
    obtain ⟨hleads', hmade⟩ := Host.newSandbox_leads hleads.confined
      (bindings_ok (ha.leads hh hleads)
        (fun parent hparent => hleads.ok _ (hparents parent hparent))
        place.level (hfresh fresh rfl))
    dsimp only at hleads' hmade ⊢
    rcases hsandbox : host₁.newSandbox (a.bindings parents place.level fresh) with
      ⟨host₂, f | sandbox⟩
    · rw [hsandbox] at hleads'
      exact ⟨hleads.trans hleads', fun sandbox fresh h => by cases h⟩
    · rw [hsandbox] at hleads' hmade
      refine ⟨hleads.trans hleads', fun sandbox' fresh' h => ?_⟩
      cases h
      exact hmade sandbox rfl

/-- A view of what a script leaves is added, or nothing is. -/
theorem left_leads (hh : host.Confined W) {sandbox : Sandbox}
    (henv : (Value.table sandbox.env).Ok W host.heap.tables.size) (place : Place)
    (r : Except ScriptFault (List Value)) :
    ∃ W', host.Leads W W' (left place sandbox (host, r)).1 ∧
      ∀ scope view, (left place sandbox (host, r)).2 = .ok (scope, view) →
        (left place sandbox (host, r)).1.heap.Shows W' view scope := by
  unfold left
  cases r with
  | error f => exact ⟨W, .refl hh, fun scope view h => by cases h⟩
  | ok vs =>
    dsimp only
    cases hscope : host.takeScope sandbox place.level (Address.script place).path with
    | error f => exact ⟨W, .refl hh, fun scope view h => by cases h⟩
    | ok scope =>
      have hwithin := Host.takeScope_within hh henv hscope
      have hkeyed := Host.takeScope_keyed hh henv hscope
      have hleads := Host.freeze_leads hh hkeyed hwithin [.table sandbox.env]
      dsimp only
      rcases hfreeze : host.freeze scope [.table sandbox.env] with ⟨host', f | view⟩
      · rw [hfreeze] at hleads
        exact ⟨_, hleads, fun scope view h => by cases h⟩
      · have hshows := Host.freeze_shows hh hkeyed hwithin hfreeze
        rw [hfreeze] at hleads
        refine ⟨_, hleads.hold _, fun scope' view' h => ?_⟩
        cases h
        exact hshows

/-- The script of a place is run, and a view is made of what it leaves. -/
theorem runScript_leads (hh : host.Confined W) (ha : a.Held W host.heap)
    {parents : List (String × Nat)}
    (hparents : ∀ parent ∈ parents, (Value.table parent.2).Ok W host.heap.tables.size)
    (budget : Option Nat) (place : Place) (source : ByteArray) :
    let r := a.runScript host budget parents place source
    ∃ W', host.Leads W W' r.1 ∧
      ∀ scope view, r.2 = .ok (scope, view) → r.1.heap.Shows W' view scope := by
  dsimp only
  rw [runScript_eq]
  obtain ⟨hopened, hmade⟩ := opened_leads hh ha hparents place
  generalize a.opened host parents place = p at hopened hmade ⊢
  obtain ⟨host₁, f | ⟨sandbox, fresh⟩⟩ := p
  · exact ⟨W, hopened, fun scope view h => by cases h⟩
  · have henv := hmade sandbox fresh rfl
    have hexecute := Host.executeWithin_leads hopened.confined henv Script.patience source
      (Address.script place).path budget
    obtain ⟨W', hleft, hshows⟩ := left_leads hexecute.confined (hexecute.ok _ henv) place
      (host₁.execute sandbox source (Address.script place).path budget).2
    exact ⟨W', (hopened.trans hexecute).trans hleft, hshows⟩

/-- One entry. -/
theorem accept_leads (hh : host.Confined W) (ha : a.Held W host.heap) (budget : Option Nat)
    (e : Entry) :
    let r := a.accept host budget e
    ∃ W', host.Leads W W' r.1 ∧ r.2.1.Held W' r.1.heap := by
  have hstay := Host.Leads.refl hh
  dsimp only
  unfold accept
  cases e with
  | options members =>
    dsimp only
    cases a.state with
    | awaitingOptions => exact ⟨W, hstay, ha.globals, fun root hroot => by cases hroot⟩
    | awaitingPack => exact ⟨W, hstay, ha⟩
    | loading root => exact ⟨W, hstay, ha⟩
  | script place source =>
    dsimp only
    cases hsite : a.site place with
    | error f => exact ⟨W, hstay, ha⟩
    | ok site =>
      obtain ⟨W', hleads, hshows⟩ :=
        runScript_leads hh ha (ha.parents_ok hh.kept hsite) budget place source
      have ha' := ha.leads hh hleads
      dsimp only
      generalize a.runScript host budget site.parents place source = p at hleads hshows ha' ⊢
      obtain ⟨host', r⟩ := p
      cases r with
      | error f => exact ⟨W', hleads, ha'⟩
      | ok p =>
        obtain ⟨scope, view⟩ := p
        -- the views in the tree still show their scopes, and the new one shows its own
        refine ⟨W', hleads, ha'.globals, fun root hroot => ?_⟩
        cases hroot
        exact (site_shows ha'.views hsite).2 scope view (hshows scope view rfl)

/-- Entries, up to the first that is refused. -/
theorem acceptAll_leads (hh : host.Confined W) (ha : a.Held W host.heap) (budget : Option Nat)
    (es : List Entry) :
    ∃ W', host.Leads W W' (a.acceptAll host budget es).1 := by
  induction es generalizing W host a with
  | nil => exact ⟨W, .refl hh⟩
  | cons e rest ih =>
    obtain ⟨W', hleads, hheld⟩ := accept_leads hh ha budget e
    unfold acceptAll
    generalize a.accept host budget e = p at hleads hheld ⊢
    obtain ⟨host', a', r⟩ := p
    cases r with
    | error f => exact ⟨W', hleads⟩
    | ok _ =>
      obtain ⟨W'', hrest⟩ := ih hleads.confined hheld
      exact ⟨W'', hleads.trans hrest⟩

theorem new_eq_ok_iff :
    Assembler.new host = (host', .ok a) ↔ ∃ host₁ globals,
      host.newTable = (host₁, .ok globals) ∧ host₁.hold (.table globals) = host' ∧
        { globals := globals } = a := by
  unfold Assembler.new
  rcases host.newTable with ⟨host₁, f | globals⟩ <;> simp

/-- Without a limit, there is memory for it. -/
theorem new_of_limit (hlimit : host.heap.limit = none) : Assembler.new host =
    ((host.withHeap (host.heap.newTable {}).1).hold (.table host.heap.tables.size),
      .ok { globals := host.heap.tables.size }) :=
  new_eq_ok_iff.mpr ⟨_, _, Host.newTable_of_limit hlimit, rfl, rfl⟩

/-- A fresh assembler. -/
theorem new_leads (hh : host.Confined W) :
    host.Leads W W (Assembler.new host).1 ∧ ∀ a, (Assembler.new host).2 = .ok a →
      a.Held W (Assembler.new host).1.heap := by
  obtain ⟨hleads, hok⟩ := Host.newTable_leads hh
  unfold Assembler.new
  generalize host.newTable = p at hleads hok ⊢
  obtain ⟨host₁, f | globals⟩ := p
  · exact ⟨hleads, fun a h => by cases h⟩
  · refine ⟨hleads.hold _, fun a h => ?_⟩
    cases h
    exact ⟨hok globals rfl, fun root hroot => by cases hroot⟩

end Assembler

namespace Loader

theorem assemble_leads {l : Loader} (hh : l.host.Confined W) (es : List Entry) :
    ∃ W', l.host.Leads W W' (l.assemble es).1 := by
  obtain ⟨hnew, hheld⟩ := Assembler.new_leads hh
  unfold assemble
  generalize Assembler.new l.host = p at hnew hheld ⊢
  obtain ⟨host₁, f | a⟩ := p
  · exact ⟨W, hnew⟩
  · obtain ⟨W', hleads⟩ :=
      Assembler.acceptAll_leads hnew.confined (hheld a rfl) l.config.instructionBudget es
    dsimp only
    generalize a.acceptAll host₁ l.config.instructionBudget es = p at hleads ⊢
    obtain ⟨host₂, a', f | _⟩ := p
    · exact ⟨W', hnew.trans hleads⟩
    · exact ⟨W', hnew.trans hleads⟩

/-- A load. -/
theorem execute_leads {l : Loader} (hh : l.host.Confined W) (es : List Entry) :
    ∃ W', l.host.Leads W W' (l.execute es).1.host := by
  obtain ⟨W', hall⟩ := assemble_leads hh es
  refine ⟨W', ?_⟩
  unfold execute
  dsimp only
  generalize l.assemble es = p at hall ⊢
  obtain ⟨host, r⟩ := p
  dsimp only at hall ⊢
  -- what the load has held is given up, which changes no table
  refine ⟨hall.toSheds, hall.contains, ?_, hall.ok, ?_⟩
  · exact hall.confined.of_kept { host.interpreter with held := l.host.interpreter.held }
      (Nat.le_refl _) hall.confined.kept
  · rw [hall.rest]

end Loader

end StoryPack
