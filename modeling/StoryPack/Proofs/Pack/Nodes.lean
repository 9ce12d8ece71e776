/-
The nodes of a pack tree, and which entries a tree has room for.

A node is addressed by its key, the list of the names above it and of its own.
Both kinds of actions of a stage share their keys.

* `Place.Refused`, `Place.obstacle?` — whether and why a tree with given keys has
  no room for a script;
* `Place.obstacle?_isSome_iff` — the two agree on keys that the keys above belong to;
* `PackNode.nodes`, `Assembler.nodes` — the nodes, each with its place and scope;
* `PackNode.mem_nodes_iff` — the nodes are what the lookups find;
* `Assembler.site_eq_error_iff` — an assembler refuses exactly what an obstacle
  keeps out;
* `Assembler.nodes_insert` — a site adds one node, that of its place;
* `Assembler.FailsAt` — the points at which an entry fails;
* `Assembler.accept_eq_error_iff` — at each of them the assembler is left as it was.
-/
import StoryPack.Proofs.Pack.Directory
import StoryPack.Pack.Assembler

namespace StoryPack

/-- The key of a place: its names, outermost first. -/
def Place.key (place : Place) : List String := (Address.script place).names

/-- The key of the node above a place. The pack has none above it. -/
def Place.parent? : Place → Option (List String)
  | .pack => none
  | .phase _ => some []
  | .stage p _ => some [p]
  | .action _ p s _ => some [p, s]

/-- A script does not fit into a tree with these keys: its own key is there already, or that of the
node above is not. -/
def Place.Refused (keys : List (List String)) (place : Place) : Prop :=
  place.key ∈ keys ∨ ∃ parent, place.parent? = some parent ∧ parent ∉ keys

/-- Why a script does not fit into a tree with these keys. The nodes above are looked for first,
the outermost one before the others. -/
def Place.obstacle? (keys : List (List String)) : Place → Option StructuralFault
  | .pack => if [] ∈ keys then some .duplicatePack else none
  | .phase p =>
    if [] ∉ keys then some .packNotLoaded
    else if [p] ∈ keys then some (.duplicatePhase p)
    else none
  | .stage p s =>
    if [] ∉ keys then some .packNotLoaded
    else if [p] ∉ keys then some (.phaseNotLoaded p)
    else if [p, s] ∈ keys then some (.duplicateStage p s)
    else none
  | .action _ p s n =>
    if [] ∉ keys then some .packNotLoaded
    else if [p] ∉ keys then some (.phaseNotLoaded p)
    else if [p, s] ∉ keys then some (.stageNotLoaded p s)
    else if [p, s, n] ∈ keys then some (.duplicateAction p s n)
    else none

/-- What keeps a script out depends on nothing but which keys are there. -/
theorem Place.obstacle?_congr {keys keys' : List (List String)}
    (h : ∀ key, key ∈ keys ↔ key ∈ keys') (place : Place) :
    place.obstacle? keys = place.obstacle? keys' := by
  cases place <;> simp only [obstacle?, h]

/-- Keys among which the one above a key is never missing. -/
structure Place.Closed (keys : List (List String)) : Prop where
  root : ∀ p, [p] ∈ keys → [] ∈ keys
  phase : ∀ p s, [p, s] ∈ keys → [p] ∈ keys

/-- What does not fit is kept out by something, and nothing else is. -/
theorem Place.obstacle?_isSome_iff {keys : List (List String)} (hkeys : Closed keys)
    (place : Place) : (place.obstacle? keys).isSome ↔ place.Refused keys := by
  cases place with
  | pack => by_cases h : [] ∈ keys <;> simp [obstacle?, Refused, key, parent?, Address.names, h]
  | phase p =>
    by_cases hnil : [] ∈ keys <;> by_cases h : [p] ∈ keys <;>
      simp [obstacle?, Refused, key, parent?, Address.names, hnil, h]
  | stage p s =>
    by_cases hp : [p] ∈ keys
    · by_cases h : [p, s] ∈ keys <;>
        simp [obstacle?, Refused, key, parent?, Address.names, hkeys.root p hp, hp, h]
    · by_cases hnil : [] ∈ keys <;> simp [obstacle?, Refused, parent?, hnil, hp]
  | action author p s n =>
    by_cases hs : [p, s] ∈ keys
    · have hp := hkeys.phase p s hs
      by_cases h : [p, s, n] ∈ keys <;>
        simp [obstacle?, Refused, key, parent?, Address.names, hkeys.root p hp, hp, hs, h]
    · by_cases hnil : [] ∈ keys <;> by_cases hp : [p] ∈ keys <;>
        simp [obstacle?, Refused, parent?, hnil, hp, hs]

/-- The node of an action. -/
def ActionNode.nodes (p s n : String) (node : ActionNode) : List (Place × Scope.Table) :=
  [(.action node.author p s n, node.scope)]

/-- The nodes of a stage: its own and those of its actions. -/
def StageNode.nodes (p s : String) (node : StageNode) : List (Place × Scope.Table) :=
  (.stage p s, node.scope) :: node.actions.entries.flatMap fun e => e.2.nodes p s e.1

/-- The nodes of a phase: its own and those of its stages. -/
def PhaseNode.nodes (p : String) (node : PhaseNode) : List (Place × Scope.Table) :=
  (.phase p, node.scope) :: node.stages.entries.flatMap fun e => e.2.nodes p e.1

/-- A new action adds its node. -/
theorem StageNode.nodes_insert {stage : StageNode} {n : String} (h : stage.actions.find? n = none)
    (p s : String) (action : ActionNode) :
    ({ stage with actions := stage.actions.insert n action }.nodes p s).Perm
      ((.action action.author p s n, action.scope) :: stage.nodes p s) :=
  ((Directory.perm_flatMap_insert _ action h).cons _).trans (.swap ..)

/-- A new stage adds its nodes. -/
theorem PhaseNode.nodes_insert {phase : PhaseNode} {s : String} (h : phase.stages.find? s = none)
    (p : String) (scope : Scope.Table) (view : Nat) :
    ({ phase with stages := phase.stages.insert s { scope := scope, view := view } }.nodes p).Perm
      ((.stage p s, scope) :: phase.nodes p) :=
  ((Directory.perm_flatMap_insert _ _ h).cons _).trans (.swap ..)

/-- A node that a stage gains, its phase gains. -/
theorem PhaseNode.nodes_replace {phase : PhaseNode} {p s : String} {old new : StageNode}
    {x : Place × Scope.Table} (h : phase.stages.find? s = some old)
    (hnew : (new.nodes p s).Perm (x :: old.nodes p s)) :
    ({ phase with stages := phase.stages.insert s new }.nodes p).Perm (x :: phase.nodes p) :=
  ((Directory.perm_flatMap_replace _ new [x] h hnew).cons _).trans (.swap ..)

namespace PackNode

/-- The nodes of a tree: the root and those of its phases. -/
def nodes (root : PackNode) : List (Place × Scope.Table) :=
  (.pack, root.scope) :: root.phases.entries.flatMap fun e => e.2.nodes e.1

/-- The scope at a place, by lookups from the root. -/
def scopeAt? (root : PackNode) : Place → Option Scope.Table
  | .pack => some root.scope
  | .phase p => (root.phase? p).map (·.scope)
  | .stage p s => (root.stage? p s).map (·.scope)
  | .action author p s n =>
    ((root.action? p s n).filter fun node => node.author = author).map (·.scope)

/-- A new phase adds its nodes. -/
theorem nodes_insert {root : PackNode} {p : String} (h : root.phases.find? p = none)
    (scope : Scope.Table) (view : Nat) :
    { root with phases := root.phases.insert p { scope := scope, view := view } }.nodes.Perm
      ((.phase p, scope) :: root.nodes) :=
  ((Directory.perm_flatMap_insert _ _ h).cons _).trans (.swap ..)

/-- A node that a phase gains, the tree gains. -/
theorem nodes_replace {root : PackNode} {p : String} {old new : PhaseNode}
    {x : Place × Scope.Table} (h : root.phases.find? p = some old)
    (hnew : (new.nodes p).Perm (x :: old.nodes p)) :
    { root with phases := root.phases.insert p new }.nodes.Perm (x :: root.nodes) :=
  ((Directory.perm_flatMap_replace _ new [x] h hnew).cons _).trans (.swap ..)

theorem phase?_eq_some_iff {root : PackNode} {p : String} {phase : PhaseNode} :
    root.phase? p = some phase ↔ (p, phase) ∈ root.phases.entries :=
  Directory.find?_eq_some_iff

theorem stage?_eq_some_iff {root : PackNode} {p s : String} {stage : StageNode} :
    root.stage? p s = some stage ↔
      ∃ phase, (p, phase) ∈ root.phases.entries ∧ (s, stage) ∈ phase.stages.entries := by
  simp [stage?, Option.bind_eq_some_iff, phase?_eq_some_iff, Directory.find?_eq_some_iff]

theorem action?_eq_some_iff {root : PackNode} {p s n : String} {action : ActionNode} :
    root.action? p s n = some action ↔
      ∃ phase stage, (p, phase) ∈ root.phases.entries ∧ (s, stage) ∈ phase.stages.entries ∧
        (n, action) ∈ stage.actions.entries := by
  simp only [action?, Option.bind_eq_bind, Option.bind_eq_some_iff, stage?_eq_some_iff,
    Directory.find?_eq_some_iff]
  constructor
  · rintro ⟨stage, ⟨phase, hphase, hstage⟩, haction⟩
    exact ⟨phase, stage, hphase, hstage, haction⟩
  · rintro ⟨phase, stage, hphase, hstage, haction⟩
    exact ⟨stage, ⟨phase, hphase, hstage⟩, haction⟩

/-- The nodes of a tree are the places at which lookups find a scope. -/
theorem mem_nodes_iff {root : PackNode} {place : Place} {scope : Scope.Table} :
    (place, scope) ∈ root.nodes ↔ root.scopeAt? place = some scope := by
  simp only [nodes, PhaseNode.nodes, StageNode.nodes, ActionNode.nodes, List.mem_cons,
    List.mem_flatMap, List.not_mem_nil, or_false, Prod.exists, Prod.mk.injEq]
  cases place with
  | pack => simp [scopeAt?, eq_comm]
  | phase p =>
    simp only [scopeAt?, Option.map_eq_some_iff, phase?_eq_some_iff]
    grind
  | stage p s =>
    simp only [scopeAt?, Option.map_eq_some_iff, stage?_eq_some_iff]
    grind
  | action author p s n =>
    simp only [scopeAt?, Option.map_eq_some_iff, Option.filter_eq_some_iff, action?_eq_some_iff]
    grind

/-- The keys of the nodes of a tree. -/
def keys (root : PackNode) : List (List String) := root.nodes.map (·.1.key)

theorem mem_keys_iff {root : PackNode} {key : List String} :
    key ∈ root.keys ↔ ∃ place, place.key = key ∧ (root.scopeAt? place).isSome := by
  simp only [keys, List.mem_map, Prod.exists, mem_nodes_iff, Option.isSome_iff_exists]
  constructor
  · rintro ⟨place, scope, hscope, rfl⟩
    exact ⟨place, rfl, scope, hscope⟩
  · rintro ⟨place, rfl, scope, hscope⟩
    exact ⟨place, scope, hscope, rfl⟩

theorem nil_mem_keys (root : PackNode) : [] ∈ root.keys :=
  mem_keys_iff.mpr ⟨.pack, rfl, rfl⟩

theorem phase_mem_keys_iff {root : PackNode} {p : String} :
    [p] ∈ root.keys ↔ (root.phase? p).isSome := by
  rw [mem_keys_iff]
  constructor
  · rintro ⟨place, hkey, hscope⟩
    cases place <;> cases hkey
    simpa [scopeAt?] using hscope
  · exact fun h => ⟨.phase p, rfl, by simpa [scopeAt?] using h⟩

theorem stage_mem_keys_iff {root : PackNode} {p s : String} :
    [p, s] ∈ root.keys ↔ (root.stage? p s).isSome := by
  rw [mem_keys_iff]
  constructor
  · rintro ⟨place, hkey, hscope⟩
    cases place <;> cases hkey
    simpa [scopeAt?] using hscope
  · exact fun h => ⟨.stage p s, rfl, by simpa [scopeAt?] using h⟩

/-- An action takes up its key whoever its author is. -/
theorem action_mem_keys_iff {root : PackNode} {p s n : String} :
    [p, s, n] ∈ root.keys ↔ (root.action? p s n).isSome := by
  rw [mem_keys_iff]
  constructor
  · rintro ⟨place, hkey, hscope⟩
    cases place <;> cases hkey
    rw [scopeAt?, Option.isSome_map, Option.isSome_filter] at hscope
    exact Option.isSome_of_any hscope
  · intro h
    obtain ⟨node, hnode⟩ := Option.isSome_iff_exists.mp h
    exact ⟨.action node.author p s n, rfl, by simp [scopeAt?, hnode]⟩

end PackNode

namespace Assembler

/-- The nodes of what has been assembled. -/
def nodes (a : Assembler) : List (Place × Scope.Table) :=
  match a.state with
  | .loading root => root.nodes
  | _ => []

/-- The keys of what has been assembled. -/
def keys (a : Assembler) : List (List String) := a.nodes.map (·.1.key)

theorem nil_mem_of_mem {a : Assembler} {key : List String} (h : key ∈ a.keys) : [] ∈ a.keys := by
  unfold keys nodes at h ⊢
  cases hstate : a.state with
  | loading root => exact root.nil_mem_keys
  | _ => simp [hstate] at h

theorem phase_mem_of_stage_mem {a : Assembler} {p s : String} (h : [p, s] ∈ a.keys) :
    [p] ∈ a.keys := by
  unfold keys nodes at h ⊢
  cases hstate : a.state with
  | loading root =>
    simp only [hstate] at h
    have hstage := PackNode.stage_mem_keys_iff.mp h
    refine PackNode.phase_mem_keys_iff.mpr ?_
    rw [PackNode.stage?] at hstage
    cases hphase : root.phase? p <;> simp_all
  | _ => simp [hstate] at h

theorem closed_keys (a : Assembler) : Place.Closed a.keys where
  root _ h := nil_mem_of_mem h
  phase _ _ h := phase_mem_of_stage_mem h

theorem root?_eq_ok_iff {a : Assembler} {root : PackNode} :
    a.root? = .ok root ↔ a.state = .loading root := by
  unfold root?
  cases a.state <;> simp

theorem keys_eq_of_root? {a : Assembler} {root : PackNode} (h : a.root? = .ok root) :
    a.keys = root.keys := by
  rw [keys, nodes, root?_eq_ok_iff.mp h, PackNode.keys]

theorem root?_eq_error_iff {a : Assembler} {f : StructuralFault} :
    a.root? = .error f ↔ [] ∉ a.keys ∧ f = .packNotLoaded := by
  cases hroot : a.root? with
  | ok root => simp [keys_eq_of_root? hroot, PackNode.nil_mem_keys]
  | error g =>
    unfold root? at hroot
    unfold keys nodes
    cases hstate : a.state <;> simp_all [eq_comm]

theorem phaseOf_eq_ok_iff {root : PackNode} {p : String} {phase : PhaseNode} :
    phaseOf root p = .ok phase ↔ root.phase? p = some phase := by
  rw [PackNode.phase?, phaseOf]
  cases root.phases.find? p <;> simp

theorem phaseOf_eq_error_iff {root : PackNode} {p : String} {f : StructuralFault} :
    phaseOf root p = .error f ↔ [p] ∉ root.keys ∧ f = .phaseNotLoaded p := by
  rw [PackNode.phase_mem_keys_iff, PackNode.phase?, phaseOf]
  cases root.phases.find? p <;> simp [eq_comm]

theorem stageOf_eq_ok_iff {phase : PhaseNode} {p s : String} {stage : StageNode} :
    stageOf phase p s = .ok stage ↔ phase.stages.find? s = some stage := by
  rw [stageOf]
  cases phase.stages.find? s <;> simp

theorem stageOf_eq_error_iff {root : PackNode} {phase : PhaseNode} {p s : String}
    {f : StructuralFault} (hphase : root.phase? p = some phase) :
    stageOf phase p s = .error f ↔ [p, s] ∉ root.keys ∧ f = .stageNotLoaded p s := by
  rw [PackNode.stage_mem_keys_iff, PackNode.stage?, hphase, stageOf]
  cases hstage : phase.stages.find? s <;> simp [hstage, eq_comm]

/-- An assembler has no room for a script exactly when something keeps it out. -/
theorem site_eq_error_iff {a : Assembler} {place : Place} {f : StructuralFault} :
    a.site place = .error f ↔ place.obstacle? a.keys = some f := by
  cases hroot : a.root? with
  | error g =>
    obtain ⟨habsent, rfl⟩ := root?_eq_error_iff.mp hroot
    cases place with
    | pack =>
      unfold root? at hroot
      unfold site
      cases hstate : a.state <;> simp_all [Place.obstacle?]
    | phase p => simp [site, hroot, Place.obstacle?, habsent, bind, Except.bind]
    | stage p s => simp [site, hroot, Place.obstacle?, habsent, bind, Except.bind]
    | action author p s n => simp [site, hroot, Place.obstacle?, habsent, bind, Except.bind]
  | ok root =>
    have hnil := root.nil_mem_keys
    rw [keys_eq_of_root? hroot]
    cases place with
    | pack => simp [site, root?_eq_ok_iff.mp hroot, Place.obstacle?, hnil]
    | phase p =>
      simp only [site, hroot, bind, Except.bind, Place.obstacle?, hnil, not_true, if_false,
        PackNode.phase_mem_keys_iff, PackNode.phase?, Directory.contains]
      by_cases htaken : (root.phases.find? p).isSome <;> simp [htaken]
    | stage p s =>
      simp only [site, hroot, bind, Except.bind, Place.obstacle?, hnil, not_true, if_false]
      cases hphase : phaseOf root p with
      | error g =>
        obtain ⟨hp, rfl⟩ := phaseOf_eq_error_iff.mp hphase
        simp [hp]
      | ok phase =>
        have hphase? := phaseOf_eq_ok_iff.mp hphase
        simp only [PackNode.phase_mem_keys_iff, PackNode.stage_mem_keys_iff, PackNode.stage?,
          hphase?, Directory.contains, Option.isSome_some, not_true, if_false, Option.bind_eq_bind,
          Option.bind_some]
        by_cases htaken : (phase.stages.find? s).isSome <;> simp [htaken]
    | action author p s n =>
      simp only [site, hroot, bind, Except.bind, Place.obstacle?, hnil, not_true, if_false]
      cases hphase : phaseOf root p with
      | error g =>
        obtain ⟨hp, rfl⟩ := phaseOf_eq_error_iff.mp hphase
        simp [hp]
      | ok phase =>
        have hphase? := phaseOf_eq_ok_iff.mp hphase
        have hp : [p] ∈ root.keys := by simp [PackNode.phase_mem_keys_iff, hphase?]
        cases hstage : stageOf phase p s with
        | error g =>
          obtain ⟨hs, rfl⟩ := (stageOf_eq_error_iff hphase?).mp hstage
          simp [hp, hs, hstage]
        | ok stage =>
          have hstage? : root.stage? p s = some stage := by
            simp [PackNode.stage?, hphase?, stageOf_eq_ok_iff.mp hstage]
          have hs : [p, s] ∈ root.keys := by simp [PackNode.stage_mem_keys_iff, hstage?]
          simp only [hp, hs, PackNode.action_mem_keys_iff, PackNode.action?, hstage?,
            Directory.contains, not_true, if_false, Option.bind_eq_bind, Option.bind_some]
          by_cases htaken : (stage.actions.find? n).isSome <;> simp [hstage, htaken]

theorem eq_of_room {α : Type} {d : Directory α} {name : String} {f : StructuralFault}
    {site site' : Site}
    (h : (if d.contains name then .error f else .ok site) =
      Except.ok (ε := StructuralFault) site') :
    d.find? name = none ∧ site = site' := by
  split at h
  · cases h
  · rename_i hfree
    exact ⟨by simpa [Directory.contains] using hfree, Except.ok.inj h⟩

/-- A site adds one node, that of its place. -/
theorem nodes_insert {a : Assembler} {place : Place} {room : Site} (h : a.site place = .ok room)
    (scope : Scope.Table) (view : Nat) :
    (room.insert scope view).nodes.Perm ((place, scope) :: a.nodes) := by
  cases hroot : a.root? with
  | error g =>
    -- there is no tree yet, so only the script of the pack has a site
    cases place with
    | pack =>
      unfold root? at hroot
      unfold site at h
      unfold nodes
      cases hstate : a.state <;> simp_all
      all_goals
        subst h
        simp [PackNode.nodes]
    | _ => simp [site, hroot, bind, Except.bind] at h
  | ok root =>
    have hnodes : a.nodes = root.nodes := by rw [nodes, root?_eq_ok_iff.mp hroot]
    rw [hnodes]
    cases place with
    | pack => simp [site, root?_eq_ok_iff.mp hroot] at h
    | phase p =>
      simp only [site, hroot, bind, Except.bind] at h
      obtain ⟨hfree, rfl⟩ := eq_of_room h
      exact PackNode.nodes_insert hfree scope view
    | stage p s =>
      simp only [site, hroot, bind, Except.bind] at h
      cases hphase : phaseOf root p with
      | error g => simp [hphase] at h
      | ok phase =>
        rw [hphase] at h
        obtain ⟨hfree, rfl⟩ := eq_of_room h
        exact PackNode.nodes_replace (phaseOf_eq_ok_iff.mp hphase)
          (PhaseNode.nodes_insert hfree p scope view)
    | action author p s n =>
      simp only [site, hroot, bind, Except.bind] at h
      cases hphase : phaseOf root p with
      | error g => simp [hphase] at h
      | ok phase =>
        rw [hphase] at h
        cases hstage : stageOf phase p s with
        | error g => simp [hstage] at h
        | ok stage =>
          simp only [hstage] at h
          obtain ⟨hfree, rfl⟩ := eq_of_room h
          exact PackNode.nodes_replace (phaseOf_eq_ok_iff.mp hphase)
            (PhaseNode.nodes_replace (stageOf_eq_ok_iff.mp hstage)
              (StageNode.nodes_insert hfree p s _))

/-! ### What is taken and what is refused -/

variable {a a' : Assembler} {host host' : Host} {budget : Option Nat} {place : Place}
  {source : ByteArray}

/-- Only an assembler that has taken nothing takes options. -/
theorem accept_options_eq_ok_iff {members : List (String × Json)} :
    a.accept host budget (.options members) = (host', a', .ok ()) ↔
      a.state = .awaitingOptions ∧ host = host' ∧
        { a with options := some members, state := .awaitingPack } = a' := by
  unfold accept
  cases a.state <;> simp

/-- A script is taken when there is room for it and it produces a scope, which goes there. -/
theorem accept_script_eq_ok_iff :
    a.accept host budget (.script place source) = (host', a', .ok ()) ↔
      ∃ room scope view, a.site place = .ok room ∧
        a.runScript host budget room.parents place source = (host', .ok (scope, view)) ∧
        { a with state := .loading (room.insert scope view) } = a' := by
  unfold accept
  cases hroom : a.site place with
  | error f => simp [hroom]
  | ok room =>
    rcases hrun : a.runScript host budget room.parents place source with ⟨host₁, f | ⟨scope, view⟩⟩
    · simp [hroom, hrun]
    · simp [hroom, hrun]

/-- A script is refused for its structure when there is no room for it. -/
theorem accept_script_structural_iff {path : String} {f : StructuralFault} :
    (a.accept host budget (.script place source)).2.2 = .error (.structural path f) ↔
      path = (Address.script place).path ∧ a.site place = .error f := by
  unfold accept
  cases hroom : a.site place with
  | error g => simp [hroom, Entry.path, Entry.address, eq_comm]
  | ok room =>
    rcases hrun : a.runScript host budget room.parents place source with ⟨host₁, g | ⟨scope, view⟩⟩
    · simp [hroom, hrun]
    · simp [hroom, hrun]

/-- The points at which a script can fail: the host as it is then, and the fault. There may be no
memory for the table of its own level, for its sandbox, or for the view of its scope; it may not be
compiled, not come to its end, or leave no scope. -/
inductive ScriptFailsAt (a : Assembler) (host : Host) (budget : Option Nat)
    (parents : List (String × Nat)) (place : Place) (source : ByteArray) :
    Host → ScriptFault → Prop
  | table {host₁ : Host} {f : ScriptFault} (h : host.newTable = (host₁, .error f)) :
    ScriptFailsAt a host budget parents place source host₁ f
  | sandbox {host₁ host₂ : Host} {fresh : Nat} {f : ScriptFault}
      (htable : host.newTable = (host₁, .ok fresh))
      (h : host₁.newSandbox (a.bindings parents place.level fresh) = (host₂, .error f)) :
    ScriptFailsAt a host budget parents place source host₂ f
  | compilation {host₁ host₂ : Host} {fresh : Nat} {sandbox : Sandbox} {f : ScriptFault}
      (htable : host.newTable = (host₁, .ok fresh))
      (hsandbox : host₁.newSandbox (a.bindings parents place.level fresh) = (host₂, .ok sandbox))
      (h : host₂.compile sandbox source (Address.script place).path = .error f) :
    ScriptFailsAt a host budget parents place source host₂ f
  | execution {host₁ host₂ host₃ : Host} {fresh : Nat} {sandbox : Sandbox} {f : ScriptFault}
      {p : Host × Script.Value}
      (htable : host.newTable = (host₁, .ok fresh))
      (hsandbox : host₁.newSandbox (a.bindings parents place.level fresh) = (host₂, .ok sandbox))
      (hcompile : host₂.compile sandbox source (Address.script place).path = .ok p)
      (h : host₂.execute sandbox source (Address.script place).path budget = (host₃, .error f)) :
    ScriptFailsAt a host budget parents place source host₃ f
  | scope {host₁ host₂ host₃ : Host} {fresh : Nat} {sandbox : Sandbox} {vs : List Script.Value}
      {f : ScriptFault} (htable : host.newTable = (host₁, .ok fresh))
      (hsandbox : host₁.newSandbox (a.bindings parents place.level fresh) = (host₂, .ok sandbox))
      (hexecute : host₂.execute sandbox source (Address.script place).path budget =
        (host₃, .ok vs))
      (h : host₃.takeScope sandbox place.level (Address.script place).path = .error f) :
    ScriptFailsAt a host budget parents place source host₃ f
  | view {host₁ host₂ host₃ host₄ : Host} {fresh : Nat} {sandbox : Sandbox}
      {vs : List Script.Value} {scope : Scope.Table} {f : ScriptFault}
      (htable : host.newTable = (host₁, .ok fresh))
      (hsandbox : host₁.newSandbox (a.bindings parents place.level fresh) = (host₂, .ok sandbox))
      (hexecute : host₂.execute sandbox source (Address.script place).path budget =
        (host₃, .ok vs))
      (hscope : host₃.takeScope sandbox place.level (Address.script place).path = .ok scope)
      (h : host₃.freeze scope [.table sandbox.env] = (host₄, .error f)) :
    ScriptFailsAt a host budget parents place source host₄ f

theorem runScript_eq_error_iff {parents : List (String × Nat)} {f : ScriptFault} :
    a.runScript host budget parents place source = (host', .error f) ↔
      a.ScriptFailsAt host budget parents place source host' f := by
  constructor
  · intro h
    unfold runScript at h
    dsimp only at h
    split at h
    · cases h
      exact .table ‹_›
    · rename_i host₁ fresh htable
      split at h
      · cases h
        exact .sandbox htable ‹_›
      · rename_i host₂ sandbox hsandbox
        split at h
        · rename_i hexecute
          cases h
          cases hcompile : host₂.compile sandbox source (Address.script place).path with
          | ok p => exact .execution htable hsandbox hcompile hexecute
          | error g =>
            unfold Host.execute Host.executeWithin at hexecute
            rw [hcompile] at hexecute
            cases hexecute
            exact .compilation htable hsandbox hcompile
        · rename_i hexecute
          split at h
          · cases h
            exact .scope htable hsandbox hexecute ‹_›
          · rename_i hscope
            split at h
            · cases h
              exact .view htable hsandbox hexecute hscope ‹_›
            · cases h
  · intro h
    unfold runScript
    cases h with
    | table h => simp only [h]
    | sandbox htable h => simp only [htable, h]
    | compilation htable hsandbox h =>
      simp only [htable, hsandbox, Host.execute, Host.executeWithin, h]
    | execution htable hsandbox _ h => simp only [htable, hsandbox, h]
    | scope htable hsandbox hexecute h => simp only [htable, hsandbox, hexecute, h]
    | view htable hsandbox hexecute hscope h =>
      simp only [htable, hsandbox, hexecute, hscope, h]

/-- The points at which an entry can fail: the host as it is then, and the fault. -/
inductive FailsAt (a : Assembler) (host : Host) (budget : Option Nat) :
    Entry → Host → LoadFault → Prop
  | duplicateOptions {members : List (String × Json)} (h : a.state = .awaitingPack) :
    FailsAt a host budget (.options members) host
      (.structural (Entry.options members).path .duplicateOptions)
  | optionsAfterPack {members : List (String × Json)} {root : PackNode}
      (h : a.state = .loading root) :
    FailsAt a host budget (.options members) host
      (.structural (Entry.options members).path .optionsAfterPack)
  | site {place : Place} {source : ByteArray} {f : StructuralFault}
      (h : a.site place = .error f) :
    FailsAt a host budget (.script place source) host
      (.structural (Entry.script place source).path f)
  | script {place : Place} {source : ByteArray} {room : Site} {host' : Host} {f : ScriptFault}
      (hroom : a.site place = .ok room)
      (h : a.ScriptFailsAt host budget room.parents place source host' f) :
    FailsAt a host budget (.script place source) host'
      (.script (Entry.script place source).path f)

/-- At each of them the assembler is the one that there has been before. -/
theorem accept_eq_error_iff {e : Entry} {f : LoadFault} :
    a.accept host budget e = (host', a', .error f) ↔
      a.FailsAt host budget e host' f ∧ a = a' := by
  constructor
  · intro h
    unfold accept at h
    split at h
    · split at h
      · cases h
      · cases h
        exact ⟨.duplicateOptions ‹_›, rfl⟩
      · cases h
        exact ⟨.optionsAfterPack ‹_›, rfl⟩
    · split at h
      · cases h
        exact ⟨.site ‹_›, rfl⟩
      · rename_i hroom
        split at h
        · rename_i hrun
          cases h
          exact ⟨.script hroom (runScript_eq_error_iff.mp hrun), rfl⟩
        · cases h
  · rintro ⟨h, rfl⟩
    unfold accept
    cases h with
    | duplicateOptions h => simp only [h]
    | optionsAfterPack h => simp only [h]
    | site h => simp only [h]
    | script hroom h => simp only [hroom, runScript_eq_error_iff.mpr h]

/-- An entry is taken, or it fails at one of them. -/
theorem accept_cases (a : Assembler) (host : Host) (budget : Option Nat) (e : Entry) :
    (∃ host' a', a.accept host budget e = (host', a', .ok ())) ∨
      ∃ host' f, a.accept host budget e = (host', a, .error f) := by
  rcases h : a.accept host budget e with ⟨host', a', f | ⟨⟩⟩
  · obtain rfl := (accept_eq_error_iff.mp h).2
    exact .inr ⟨host', f, rfl⟩
  · exact .inl ⟨host', a', rfl⟩

end Assembler

end StoryPack
