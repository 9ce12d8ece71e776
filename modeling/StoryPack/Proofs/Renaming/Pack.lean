/-
Packs whose references are renamed.

The tree of a pack has references in it: those of the views of its nodes, and of
the functions in their scopes.  A load does the same with renamed references, up
to the references in the tree that it makes, and these are no part of the data.

* `Renaming.pack` — a pack with its references renamed;
* `Renaming.toJson_pack`, `Renaming.path?_scope` — what stays as it is;
* `Host.Renamed.acceptAll` — entries are taken in turn;
* `Loader.execute_renamed` — a load.
-/
import StoryPack.Proofs.Renaming.Host
import StoryPack.Proofs.Confinement.Loading

namespace StoryPack

open Script

variable {σ : Renaming} {W W' : Ward} {n n' : Nat}

namespace Script.Renaming

variable (σ : Renaming)

/-! ### Trees -/

/-- An action with its references renamed. -/
def actionNode (a : ActionNode) : ActionNode := { a with scope := σ.scope a.scope }

/-- A stage with its references renamed. -/
def stageNode (s : StageNode) : StageNode :=
  { scope := σ.scope s.scope, view := σ.table s.view, actions := s.actions.map σ.actionNode }

/-- A phase with its references renamed. -/
def phaseNode (p : PhaseNode) : PhaseNode :=
  { scope := σ.scope p.scope, view := σ.table p.view, stages := p.stages.map σ.stageNode }

/-- A tree with its references renamed. -/
def packNode (p : PackNode) : PackNode :=
  { scope := σ.scope p.scope, view := σ.table p.view, phases := p.phases.map σ.phaseNode }

/-- An action is put into a stage. -/
theorem insert_stageNode (s : StageNode) (n : String) (a : ActionNode) :
    { σ.stageNode s with actions := (σ.stageNode s).actions.insert n (σ.actionNode a) } =
      σ.stageNode { s with actions := s.actions.insert n a } :=
  congrArg (StageNode.mk _ _) (Directory.insert_map ..)

/-- A stage is put into a phase. -/
theorem insert_phaseNode (p : PhaseNode) (name : String) (s : StageNode) :
    { σ.phaseNode p with stages := (σ.phaseNode p).stages.insert name (σ.stageNode s) } =
      σ.phaseNode { p with stages := p.stages.insert name s } :=
  congrArg (PhaseNode.mk _ _) (Directory.insert_map ..)

/-- A phase is put into a tree. -/
theorem insert_packNode (root : PackNode) (name : String) (p : PhaseNode) :
    { σ.packNode root with phases := (σ.packNode root).phases.insert name (σ.phaseNode p) } =
      σ.packNode { root with phases := root.phases.insert name p } :=
  congrArg (PackNode.mk _ _) (Directory.insert_map ..)

/-- A pack with its references renamed. -/
def pack (p : Pack) : Pack := { options := p.options, root := σ.packNode p.root }

/-! ### What stays as it is -/

theorem lookup_scopeEntries (entries : List (Scope.Key × Scope.Value)) (k : Scope.Key) :
    (σ.scopeEntries entries).lookup k = (entries.lookup k).map σ.scopeValue := by
  rw [scopeEntries_eq_map]
  exact Association.lookup_map σ.scopeValue entries k

/-- What is found at the end of a path is the same but for references. -/
theorem path?_scope (t : Scope.Table) (path : List String) :
    (σ.scope t).path? path = (t.path? path).map σ.scopeValue := by
  induction path generalizing t with
  | nil => rfl
  | cons name rest ih =>
    have hget : (σ.scope t).get? (.text name) = (t.get? (.text name)).map σ.scopeValue :=
      σ.lookup_scopeEntries t.entries (.text name)
    cases rest with
    | nil => exact hget
    | cons next rest =>
      unfold Scope.Table.path?
      rw [hget]
      cases t.get? (.text name) with
      | none => rfl
      | some v =>
        cases v with
        | table entries => exact ih ⟨entries⟩
        | _ => rfl

theorem length_scopeEntries (entries : List (Scope.Key × Scope.Value)) :
    (σ.scopeEntries entries).length = entries.length := by
  rw [scopeEntries_eq_map, List.length_map]

theorem sequenceLength_scope (t : Scope.Table) :
    (σ.scope t).sequenceLength = t.sequenceLength := by
  refine Scope.Table.sequenceLength_congr (σ.length_scopeEntries t.entries) fun k => ?_
  have hget : (σ.scope t).get? k = (t.get? k).map σ.scopeValue := σ.lookup_scopeEntries t.entries k
  rw [hget, Option.isSome_map]

theorem tableJson_scope (t : Scope.Table) (members : List (Scope.Key × Json)) :
    Scope.tableJson (σ.scope t) members = Scope.tableJson t members := by
  have hsize : (σ.scope t).size = t.size := σ.length_scopeEntries t.entries
  have hsequence : (σ.scope t).isSequence = t.isSequence := by
    rw [Scope.Table.isSequence, sequenceLength_scope, hsize, Scope.Table.isSequence]
  rw [Scope.tableJson, hsequence, sequenceLength_scope, Scope.tableJson]

mutual

theorem toJson_scopeValue (v : Scope.Value) : (σ.scopeValue v).toJson = v.toJson := by
  cases v with
  | table entries =>
    simp only [scopeValue, Scope.Value.toJson, entriesJson_scopeEntries entries]
    exact σ.tableJson_scope ⟨entries⟩ _
  | _ => rfl

theorem entriesJson_scopeEntries (entries : List (Scope.Key × Scope.Value)) :
    Scope.entriesJson (σ.scopeEntries entries) = Scope.entriesJson entries := by
  cases entries with
  | nil => rfl
  | cons e rest =>
    obtain ⟨k, v⟩ := e
    simp only [scopeEntries, Scope.entriesJson, toJson_scopeValue v, entriesJson_scopeEntries rest]

end

theorem toJson_scope (t : Scope.Table) : (σ.scope t).toJson = t.toJson := by
  have hentries : Scope.entriesJson (σ.scope t).entries = Scope.entriesJson t.entries :=
    σ.entriesJson_scopeEntries t.entries
  rw [Scope.Table.toJson, hentries, tableJson_scope, Scope.Table.toJson]

/-- The JSON of a directory depends on that of what it holds only. -/
theorem toJson_map {α : Type} (d : Directory α) {f : α → α} {json : α → Json}
    (hf : ∀ a, json (f a) = json a) : (d.map f).toJson json = d.toJson json := by
  simp only [Directory.toJson, Directory.map, List.map_map]
  congr 2
  funext e
  exact congrArg (Prod.mk e.1) (hf e.2)

theorem toJson_actionNode (a : ActionNode) : (σ.actionNode a).toJson = a.toJson := by
  simp only [ActionNode.toJson, actionNode, toJson_scope]

theorem toJson_stageNode (s : StageNode) : (σ.stageNode s).toJson = s.toJson := by
  simp only [StageNode.toJson, stageNode, toJson_scope, toJson_map _ σ.toJson_actionNode]

theorem toJson_phaseNode (p : PhaseNode) : (σ.phaseNode p).toJson = p.toJson := by
  simp only [PhaseNode.toJson, phaseNode, toJson_scope, toJson_map _ σ.toJson_stageNode]

theorem toJson_packNode (p : PackNode) : (σ.packNode p).toJson = p.toJson := by
  simp only [PackNode.toJson, packNode, toJson_scope, toJson_map _ σ.toJson_phaseNode]

/-- The data of a pack have no references in them. -/
theorem toJson_pack (p : Pack) : (σ.pack p).toJson = p.toJson := by
  simp only [Pack.toJson, pack, toJson_packNode]

/-! ### Assemblers -/

/-- How far a load has come, with references renamed. -/
def loadState : LoadState → LoadState
  | .awaitingOptions => .awaitingOptions
  | .awaitingPack => .awaitingPack
  | .loading root => .loading (σ.packNode root)

/-- An assembler with its references renamed. -/
def assembler (a : Assembler) : Assembler :=
  { globals := σ.table a.globals, options := a.options, state := σ.loadState a.state }

/-- The parents of a node with their references renamed. -/
def parents (ps : List (String × Nat)) : List (String × Nat) := ps.map fun p => (p.1, σ.table p.2)

end Script.Renaming

namespace Assembler

/-- The site of a node with its references renamed. -/
structure Site.Renamed (σ : Renaming) (site site' : Site) : Prop where
  parents : site'.parents = σ.parents site.parents
  insert : ∀ scope view,
    site'.insert (σ.scope scope) (σ.table view) = σ.packNode (site.insert scope view)

variable (σ) (a : Assembler)

theorem root?_renamed : (σ.assembler a).root? = a.root?.map σ.packNode := by
  unfold root? Renaming.assembler
  cases a.state <;> rfl

theorem phaseOf_renamed (root : PackNode) (p : String) :
    phaseOf (σ.packNode root) p = (phaseOf root p).map σ.phaseNode := by
  have hfind : (σ.packNode root).phases.find? p = (root.phases.find? p).map σ.phaseNode :=
    Directory.find?_map ..
  unfold phaseOf
  rw [hfind]
  cases root.phases.find? p <;> rfl

theorem stageOf_renamed (phase : PhaseNode) (p s : String) :
    stageOf (σ.phaseNode phase) p s = (stageOf phase p s).map σ.stageNode := by
  have hfind : (σ.phaseNode phase).stages.find? s = (phase.stages.find? s).map σ.stageNode :=
    Directory.find?_map ..
  unfold stageOf
  rw [hfind]
  cases phase.stages.find? s <;> rfl

/-- The same script fits, and there is room for its node in the same place. -/
theorem site_renamed (place : Place) :
    (∃ f, a.site place = .error f ∧ (σ.assembler a).site place = .error f) ∨
      ∃ site site', a.site place = .ok site ∧ (σ.assembler a).site place = .ok site' ∧
        site.Renamed σ site' := by
  cases place with
  | pack =>
    unfold site Renaming.assembler
    cases a.state with
    | loading root => exact .inl ⟨_, rfl, rfl⟩
    | _ => exact .inr ⟨_, _, rfl, rfl, rfl, fun _ _ => rfl⟩
  | phase p =>
    simp only [site, root?_renamed]
    cases a.root? with
    | error f => exact .inl ⟨_, rfl, rfl⟩
    | ok root =>
      have hcontains : (σ.packNode root).phases.contains p = root.phases.contains p :=
        Directory.contains_map ..
      simp only [Except.map, bind, Except.bind, hcontains]
      split
      · exact .inl ⟨_, rfl, rfl⟩
      · refine .inr ⟨_, _, rfl, rfl, rfl, fun scope view => ?_⟩
        dsimp only
        rw [← σ.insert_packNode]
        rfl
  | stage p s =>
    simp only [site, root?_renamed]
    cases a.root? with
    | error f => exact .inl ⟨_, rfl, rfl⟩
    | ok root =>
      simp only [Except.map, bind, Except.bind, phaseOf_renamed]
      cases phaseOf root p with
      | error f => exact .inl ⟨_, rfl, rfl⟩
      | ok phase =>
        have hcontains : (σ.phaseNode phase).stages.contains s = phase.stages.contains s :=
          Directory.contains_map ..
        simp only [hcontains]
        split
        · exact .inl ⟨_, rfl, rfl⟩
        · refine .inr ⟨_, _, rfl, rfl, rfl, fun scope view => ?_⟩
          dsimp only
          rw [← σ.insert_packNode, ← σ.insert_phaseNode]
          rfl
  | action author p s n =>
    simp only [site, root?_renamed]
    cases a.root? with
    | error f => exact .inl ⟨_, rfl, rfl⟩
    | ok root =>
      simp only [Except.map, bind, Except.bind, phaseOf_renamed]
      cases phaseOf root p with
      | error f => exact .inl ⟨_, rfl, rfl⟩
      | ok phase =>
        simp only [Except.map, stageOf_renamed]
        cases stageOf phase p s with
        | error f => exact .inl ⟨_, rfl, rfl⟩
        | ok stage =>
          have hcontains : (σ.stageNode stage).actions.contains n = stage.actions.contains n :=
            Directory.contains_map ..
          simp only [hcontains]
          split
          · exact .inl ⟨_, rfl, rfl⟩
          · refine .inr ⟨_, _, rfl, rfl, rfl, fun scope view => ?_⟩
            dsimp only
            rw [← σ.insert_packNode, ← σ.insert_phaseNode, ← σ.insert_stageNode]
            rfl

theorem bindings_renamed (parents : List (String × Nat)) (level : String) (fresh : Nat) :
    (σ.assembler a).bindings (σ.parents parents) level (σ.table fresh) =
      σ.bindings (a.bindings parents level fresh) := by
  simp only [bindings, Renaming.bindings, Renaming.parents, Renaming.assembler, List.map_append,
    List.map_cons, List.map_map, List.map_nil, Renaming.value_table]
  rfl

/-- A script that has room is run, and nothing else is done with the host. -/
theorem fst_accept {a : Assembler} {place : Place} {site : Site} (hsite : a.site place = .ok site)
    {host : Host} {budget : Option Nat} {source : ByteArray} :
    (a.accept host budget (.script place source)).1 =
      (a.runScript host budget site.parents place source).1 := by
  unfold accept
  dsimp only
  rw [hsite]
  dsimp only
  rcases a.runScript host budget site.parents place source with ⟨host', f | r⟩ <;> rfl

/-- Entries only vanish. -/
theorem vanished_acceptAll {a : Assembler} {host : Host} (hh : host.Confined W)
    (ha : a.Held W host.heap) (budget : Option Nat) (e : Entry) (rest : List Entry) :
    (a.accept host budget e).1.heap.vanished <:+
      (a.acceptAll host budget (e :: rest)).1.heap.vanished := by
  obtain ⟨W', hleads, hheld⟩ := accept_leads hh ha budget e
  unfold acceptAll
  generalize a.accept host budget e = p at hleads hheld ⊢
  obtain ⟨host', a', f | ⟨⟩⟩ := p
  · exact List.suffix_rfl
  · obtain ⟨W'', hrest⟩ := acceptAll_leads hleads.confined hheld budget rest
    exact hrest.vanished

theorem finish_renamed : (σ.assembler a).finish = a.finish.map σ.pack := by
  unfold finish Renaming.assembler
  cases a.state <;> rfl

end Assembler

namespace Host.Renamed

variable {host host' : Host} {a : Assembler} (hh : host.Renamed σ host')

include hh

/-- There is memory for the sandbox of a script in both. -/
theorem opened (a : Assembler) (parents : List (String × Nat)) (place : Place) :
    ∃ host₁ host₁' env fresh, a.opened host parents place = (host₁, .ok (⟨env⟩, fresh)) ∧
      (σ.assembler a).opened host' (σ.parents parents) place =
        (host₁', .ok (⟨σ.table env⟩, σ.table fresh)) ∧ host₁.Renamed σ host₁' := by
  obtain ⟨host₁, host₁', fresh, hfresh, hfresh', hh₁, -⟩ := hh.newTable
  obtain ⟨host₂, host₂', env, henv, henv', hh₂, -⟩ :=
    hh₁.newSandbox (a.bindings parents place.level fresh)
  rw [← Assembler.bindings_renamed] at henv'
  exact ⟨host₂, host₂', env, fresh, Assembler.opened_eq_ok_iff.mpr ⟨_, hfresh, henv⟩,
    Assembler.opened_eq_ok_iff.mpr ⟨_, hfresh', henv'⟩, hh₂⟩

/-- What a script has left is taken, and there is memory for the view of it in both. -/
theorem left (place : Place) (env : Nat) (r : Except ScriptFault (List Value)) :
    (Assembler.left place ⟨env⟩ (host, r)).1.Renamed σ
        (Assembler.left place ⟨σ.table env⟩ (host', r.map σ.values)).1 ∧
      (Assembler.left place ⟨σ.table env⟩ (host', r.map σ.values)).2 =
        (Assembler.left place ⟨env⟩ (host, r)).2.map fun r => (σ.scope r.1, σ.table r.2) := by
  cases r with
  | error f => exact ⟨hh, rfl⟩
  | ok vs =>
    have htake := hh.takeScope ⟨env⟩ place.level (Address.script place).path
    unfold Assembler.left
    dsimp only [Except.map] at htake ⊢
    rw [htake]
    cases host.takeScope ⟨env⟩ place.level (Address.script place).path with
    | error f => exact ⟨hh, rfl⟩
    | ok scope =>
      obtain ⟨host₁, host₁', view, hfreeze, hfreeze', hh₁⟩ := hh.freeze scope
        [.table env] [.table (σ.table env)]
      dsimp only [Except.map]
      rw [hfreeze, hfreeze']
      exact ⟨hh₁.hold _ _, rfl⟩

/-- The script of a place is run, and a view is made of what it leaves. -/
theorem runScript (hσ : σ.Shields W W' n n') (hconfined : host.Confined W)
    (hconfined' : host'.Confined W') (ha : a.Held W host.heap)
    (ha' : (σ.assembler a).Held W' host'.heap) {parents : List (String × Nat)}
    (hparents : ∀ parent ∈ parents, (Value.table parent.2).Ok W host.heap.tables.size)
    (hparents' : ∀ parent ∈ σ.parents parents,
      (Value.table parent.2).Ok W' host'.heap.tables.size)
    (budget : Option Nat) (place : Place) (source : ByteArray)
    (hv : host.heap.Spares n (a.runScript host budget parents place source).1.heap)
    (hv' : host'.heap.Spares n'
      ((σ.assembler a).runScript host' budget (σ.parents parents) place source).1.heap) :
    (a.runScript host budget parents place source).1.Renamed σ
        ((σ.assembler a).runScript host' budget (σ.parents parents) place source).1 ∧
      ((σ.assembler a).runScript host' budget (σ.parents parents) place source).2 =
        (a.runScript host budget parents place source).2.map fun r =>
        (σ.scope r.1, σ.table r.2) := by
  rw [Assembler.runScript_eq] at hv hv' ⊢
  rw [Assembler.runScript_eq]
  obtain ⟨hopened, hmade⟩ := Assembler.opened_leads hconfined ha hparents place
  obtain ⟨hopened', hmade'⟩ := Assembler.opened_leads hconfined' ha' hparents' place
  obtain ⟨host₁, host₁', env, fresh, heq, heq', hh₁⟩ := hh.opened a parents place
  rw [heq] at hv hopened hmade ⊢
  rw [heq'] at hv' hopened' hmade' ⊢
  dsimp only at hv hv' hopened hopened' ⊢
  have henv := hmade ⟨env⟩ fresh rfl
  have henv' := hmade' ⟨σ.table env⟩ (σ.table fresh) rfl
  -- entries vanish neither while the script is run nor before or after it
  obtain ⟨hrun, hrun'⟩ := And.intro
    (Host.executeWithin_leads hopened.confined henv Script.patience source
      (Address.script place).path budget)
    (Host.executeWithin_leads hopened'.confined henv' Script.patience source
      (Address.script place).path budget)
  obtain ⟨V, hleft, -⟩ := Assembler.left_leads hrun.confined (hrun.ok _ henv) place
    (host₁.execute ⟨env⟩ source (Address.script place).path budget).2
  obtain ⟨V', hleft', -⟩ := Assembler.left_leads hrun'.confined (hrun'.ok _ henv') place
    (host₁'.execute ⟨σ.table env⟩ source (Address.script place).path budget).2
  obtain ⟨hnow, -⟩ := hv.parts (hopened.vanished.trans hrun.vanished) hleft.vanished
  obtain ⟨hnow', -⟩ := hv'.parts (hopened'.vanished.trans hrun'.vanished) hleft'.vanished
  obtain ⟨hh₂, hr⟩ := hh₁.executeWithin hσ hopened.confined hopened'.confined henv henv'
    Script.patience source (Address.script place).path budget
    (hnow.parts hopened.vanished hrun.vanished).2 (hnow'.parts hopened'.vanished hrun'.vanished).2
  have hlast := hh₂.left place env
    (host₁.execute ⟨env⟩ source (Address.script place).path budget).2
  rw [show (host₁.execute ⟨env⟩ source (Address.script place).path budget).2.map σ.values =
    (host₁'.execute ⟨σ.table env⟩ source (Address.script place).path budget).2 from hr.symm]
    at hlast
  exact hlast

/-- One entry. -/
theorem accept (hσ : σ.Shields W W' n n') (hconfined : host.Confined W)
    (hconfined' : host'.Confined W') (ha : a.Held W host.heap)
    (ha' : (σ.assembler a).Held W' host'.heap) (budget : Option Nat) (e : Entry)
    (hv : host.heap.Spares n (a.accept host budget e).1.heap)
    (hv' : host'.heap.Spares n' ((σ.assembler a).accept host' budget e).1.heap) :
    (a.accept host budget e).1.Renamed σ ((σ.assembler a).accept host' budget e).1 ∧
      ((σ.assembler a).accept host' budget e).2 =
        (σ.assembler (a.accept host budget e).2.1, (a.accept host budget e).2.2) := by
  cases e with
  | options members =>
    unfold Assembler.accept
    dsimp only
    rw [show (σ.assembler a).state = σ.loadState a.state from rfl]
    cases a.state <;> exact ⟨hh, rfl⟩
  | script place source =>
    rcases Assembler.site_renamed σ a place with ⟨f, hf, hf'⟩
      | ⟨site, site', hsite, hsite', hrenamed⟩
    · unfold Assembler.accept
      dsimp only
      rw [hf, hf']
      exact ⟨hh, rfl⟩
    · have hparents' := ha'.parents_ok hconfined'.kept hsite'
      rw [hrenamed.parents] at hparents'
      rw [Assembler.fst_accept hsite] at hv
      rw [Assembler.fst_accept hsite', hrenamed.parents] at hv'
      obtain ⟨hh', hr⟩ := hh.runScript hσ hconfined hconfined' ha ha'
        (ha.parents_ok hconfined.kept hsite) hparents' budget place source hv hv'
      unfold Assembler.accept
      dsimp only
      rw [hsite, hsite']
      dsimp only
      rw [hrenamed.parents]
      generalize a.runScript host budget site.parents place source = p at hh' hr ⊢
      generalize (σ.assembler a).runScript host' budget _ place source = p' at hh' hr ⊢
      obtain ⟨host₁, r⟩ := p
      obtain ⟨host₁', r'⟩ := p'
      dsimp only at hh' hr ⊢
      subst hr
      cases r with
      | error f => exact ⟨hh', rfl⟩
      | ok q =>
        refine ⟨hh', ?_⟩
        dsimp only [Except.map]
        rw [hrenamed.insert]
        rfl

/-- Entries, up to the first that is refused. -/
theorem acceptAll (hσ : σ.Shields W W' n n') (hconfined : host.Confined W)
    (hconfined' : host'.Confined W') (ha : a.Held W host.heap)
    (ha' : (σ.assembler a).Held W' host'.heap) (budget : Option Nat) (es : List Entry)
    (hv : host.heap.Spares n (a.acceptAll host budget es).1.heap)
    (hv' : host'.heap.Spares n' ((σ.assembler a).acceptAll host' budget es).1.heap) :
    (a.acceptAll host budget es).1.Renamed σ ((σ.assembler a).acceptAll host' budget es).1 ∧
      ((σ.assembler a).acceptAll host' budget es).2 =
        (σ.assembler (a.acceptAll host budget es).2.1, (a.acceptAll host budget es).2.2) := by
  induction es generalizing W W' host host' a with
  | nil => exact ⟨hh, rfl⟩
  | cons e rest ih =>
    obtain ⟨V, hleads, hheld⟩ := Assembler.accept_leads hconfined ha budget e
    obtain ⟨V', hleads', hheld'⟩ := Assembler.accept_leads hconfined' ha' budget e
    obtain ⟨hnow, hlater⟩ := hv.parts hleads.vanished
      (Assembler.vanished_acceptAll hconfined ha budget e rest)
    obtain ⟨hnow', hlater'⟩ := hv'.parts hleads'.vanished
      (Assembler.vanished_acceptAll hconfined' ha' budget e rest)
    obtain ⟨hh', hr⟩ := hh.accept hσ hconfined hconfined' ha ha' budget e hnow hnow'
    unfold Assembler.acceptAll at hlater hlater' ⊢
    generalize a.accept host budget e = p at hlater hleads hheld hh' hr ⊢
    generalize (σ.assembler a).accept host' budget e = p' at hlater' hleads' hheld' hh' hr ⊢
    obtain ⟨host₁, a₁, r⟩ := p
    obtain ⟨host₁', q'⟩ := p'
    dsimp only at hleads hleads' hheld hheld' hh' hr ⊢
    subst hr
    cases r with
    | error f => exact ⟨hh', rfl⟩
    | ok _ =>
      exact ih hh' (hσ.mono hleads.contains hleads'.contains) hleads.confined hleads'.confined hheld
        hheld' hlater hlater'

/-- A fresh assembler, for which there is memory in both. -/
theorem newAssembler : ∃ host₁ host₁' a, Assembler.new host = (host₁, .ok a) ∧
    Assembler.new host' = (host₁', .ok (σ.assembler a)) ∧ host₁.Renamed σ host₁' := by
  obtain ⟨host₁, host₁', r, hr, hr', hh₁, -⟩ := hh.newTable
  exact ⟨_, _, _, Assembler.new_eq_ok_iff.mpr ⟨_, _, hr, rfl, rfl⟩,
    Assembler.new_eq_ok_iff.mpr ⟨_, _, hr', rfl, rfl⟩, hh₁.hold _ _⟩

end Host.Renamed

/-- A load. -/
theorem Loader.execute_renamed {l l' : Loader} (hh : l.host.Renamed σ l'.host)
    (hσ : σ.Shields W W' n n') (hconfig : l'.config = l.config) (hconfined : l.host.Confined W)
    (hconfined' : l'.host.Confined W') (es : List Entry)
    (hv : l.host.heap.Spares n (l.execute es).1.host.heap)
    (hv' : l'.host.heap.Spares n' (l'.execute es).1.host.heap) :
    (l.execute es).1.host.Renamed σ (l'.execute es).1.host ∧
      (l'.execute es).2 = (l.execute es).2.map σ.pack := by
  obtain ⟨hnew, hheld⟩ := Assembler.new_leads hconfined
  obtain ⟨hnew', hheld'⟩ := Assembler.new_leads hconfined'
  obtain ⟨host₁, host₁', a, ha, ha', hh₁⟩ := hh.newAssembler
  rw [ha] at hnew hheld
  rw [ha'] at hnew' hheld'
  replace hheld := hheld a rfl
  replace hheld' := hheld' _ rfl
  have hhost {l : Loader} {host : Host} {a : Assembler}
      (ha : Assembler.new l.host = (host, .ok a)) :
      (l.execute es).1.host.heap = (a.acceptAll host l.config.instructionBudget es).1.heap := by
    unfold execute assemble
    rw [ha]
    dsimp only
    rcases a.acceptAll host l.config.instructionBudget es with ⟨host', a', f | ⟨⟩⟩ <;> rfl
  rw [hhost ha] at hv
  rw [hhost ha', hconfig] at hv'
  obtain ⟨V, hall⟩ :=
    Assembler.acceptAll_leads hnew.confined hheld l.config.instructionBudget es
  obtain ⟨V', hall'⟩ :=
    Assembler.acceptAll_leads hnew'.confined hheld' l.config.instructionBudget es
  obtain ⟨hh₂, hr⟩ := hh₁.acceptAll hσ hnew.confined hnew'.confined hheld hheld'
    l.config.instructionBudget es (hv.parts hnew.vanished hall.vanished).2
    (hv'.parts hnew'.vanished hall'.vanished).2
  unfold execute assemble
  rw [ha, ha', hconfig]
  dsimp only
  generalize a.acceptAll _ _ es = p at hh₂ hr ⊢
  generalize (σ.assembler a).acceptAll _ _ es = p' at hh₂ hr ⊢
  obtain ⟨host₂, a₂, r⟩ := p
  obtain ⟨host₂', q'⟩ := p'
  dsimp only at hh₂ hr ⊢
  subst hr
  refine ⟨?_, ?_⟩
  · cases r <;> exact hh₂.withInterpreter hh₂.heap
  · cases r with
    | error f => rfl
    | ok _ => exact Assembler.finish_renamed σ a₂

end StoryPack
