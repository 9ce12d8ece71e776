/-
The nodes above a place.

A script sees the nodes above its place through their views, each under the name
of its level.  Its site lists these views, the outermost first, and adds nothing
to the tree but its own node.

* `Place.above` — the places above a place;
* `PackNode.Shows` — a relation between the view and the scope of every node;
* `PackNode.Shows.insert`, `PhaseNode.Shows.insert` — what is put into a tree with this relation;
* `Assembler.site_shows` — the parents of a site are the nodes above its place.
-/
import StoryPack.Proofs.Pack.Nodes

namespace StoryPack

/-- The places above a place, the outermost first. -/
def Place.above : Place → List Place
  | .pack => []
  | .phase _ => [.pack]
  | .stage p _ => [.pack, .phase p]
  | .action _ p s _ => [.pack, .phase p, .stage p s]

variable {P Q : Nat → Scope.Table → Prop}

/-- A phase in which the view and the scope of every node are related. -/
def PhaseNode.Shows (P : Nat → Scope.Table → Prop) (phase : PhaseNode) : Prop :=
  P phase.view phase.scope ∧
    ∀ s stage, phase.stages.find? s = some stage → P stage.view stage.scope

/-- A tree in which the view and the scope of every node are related. -/
def PackNode.Shows (P : Nat → Scope.Table → Prop) (root : PackNode) : Prop :=
  P root.view root.scope ∧ ∀ p phase, root.phases.find? p = some phase → phase.Shows P

namespace PhaseNode.Shows

variable {phase : PhaseNode}

theorem mono (hphase : phase.Shows P) (hPQ : ∀ view scope, P view scope → Q view scope) :
    phase.Shows Q :=
  ⟨hPQ _ _ hphase.1, fun s stage hstage => hPQ _ _ (hphase.2 s stage hstage)⟩

/-- A stage is put into the phase, in place of an older one or not. -/
theorem insert (hphase : phase.Shows P) (s : String) {stage : StageNode}
    (hstage : P stage.view stage.scope) :
    PhaseNode.Shows P { phase with stages := phase.stages.insert s stage } := by
  refine ⟨hphase.1, fun s' other hother => ?_⟩
  rw [Directory.find?_insert] at hother
  split at hother
  · cases hother
    exact hstage
  · exact hphase.2 s' other hother

end PhaseNode.Shows

namespace PackNode.Shows

variable {root : PackNode}

theorem mono (hroot : root.Shows P) (hPQ : ∀ view scope, P view scope → Q view scope) :
    root.Shows Q :=
  ⟨hPQ _ _ hroot.1, fun p phase hphase => (hroot.2 p phase hphase).mono hPQ⟩

/-- A phase is put into the tree, in place of an older one or not. -/
theorem insert (hroot : root.Shows P) (p : String) {phase : PhaseNode} (hphase : phase.Shows P) :
    PackNode.Shows P { root with phases := root.phases.insert p phase } := by
  refine ⟨hroot.1, fun q other hother => ?_⟩
  rw [Directory.find?_insert] at hother
  split at hother
  · cases hother
    exact hphase
  · exact hroot.2 q other hother

end PackNode.Shows

namespace Assembler

variable {a : Assembler}

/-- As long as there is no tree, only the script of the pack has a site. -/
theorem eq_of_site_without_root {g : StructuralFault} (hroot : a.root? = .error g) {place : Place}
    {site : Site} (hsite : a.site place = .ok site) :
    place = .pack ∧ site =
      { parents := [], insert := fun scope view => { scope := scope, view := view } } := by
  cases place with
  | pack =>
    unfold root? at hroot
    unfold Assembler.site at hsite
    cases hstate : a.state <;> simp_all
  | _ => simp [Assembler.site, hroot, bind, Except.bind] at hsite

/-- The parents of a site are the nodes above its place, with the names of their levels, and all
that a script adds is its own node. -/
theorem site_shows (ha : ∀ root, a.state = .loading root → root.Shows P) {place : Place}
    {site : Site} (hsite : a.site place = .ok site) :
    List.Forall₂ (fun (above : Place) (parent : String × Nat) => parent.1 = above.level ∧
        ∃ scope, (above, scope) ∈ a.nodes ∧ P parent.2 scope) place.above site.parents ∧
      ∀ scope view, P view scope → (site.insert scope view).Shows P := by
  cases hroot : a.root? with
  | error g =>
    obtain ⟨rfl, rfl⟩ := eq_of_site_without_root hroot hsite
    refine ⟨.nil, fun scope view hview => ⟨hview, fun p phase hphase => ?_⟩⟩
    cases hphase
  | ok root =>
    have hstate := root?_eq_ok_iff.mp hroot
    have hshows := ha root hstate
    have hnode {place : Place} {scope : Scope.Table} (hscope : root.scopeAt? place = some scope) :
        (place, scope) ∈ a.nodes := by
      rw [nodes, hstate]
      exact PackNode.mem_nodes_iff.mpr hscope
    have hphaseNode {p : String} {phase : PhaseNode} (hp : root.phase? p = some phase) :
        (Place.phase p, phase.scope) ∈ a.nodes :=
      hnode (by rw [PackNode.scopeAt?, hp]; rfl)
    cases place with
    | pack => simp [Assembler.site, hstate] at hsite
    | phase p =>
      simp only [Assembler.site, hroot, bind, Except.bind] at hsite
      obtain ⟨-, rfl⟩ := eq_of_room hsite
      refine ⟨.cons ⟨rfl, root.scope, hnode rfl, hshows.1⟩ .nil,
        fun scope view hnew => hshows.insert p ⟨hnew, fun s stage hstage => ?_⟩⟩
      cases hstage
    | stage p s =>
      simp only [Assembler.site, hroot, bind, Except.bind] at hsite
      cases hphase : phaseOf root p with
      | error g => simp [hphase] at hsite
      | ok phase =>
        rw [hphase] at hsite
        obtain ⟨-, rfl⟩ := eq_of_room hsite
        have hp := phaseOf_eq_ok_iff.mp hphase
        have hphaseShows := hshows.2 p phase hp
        exact ⟨.cons ⟨rfl, root.scope, hnode rfl, hshows.1⟩
            (.cons ⟨rfl, phase.scope, hphaseNode hp, hphaseShows.1⟩ .nil),
          fun scope view hnew => hshows.insert p (hphaseShows.insert s hnew)⟩
    | action author p s n =>
      simp only [Assembler.site, hroot, bind, Except.bind] at hsite
      cases hphase : phaseOf root p with
      | error g => simp [hphase] at hsite
      | ok phase =>
        rw [hphase] at hsite
        cases hstage : stageOf phase p s with
        | error g => simp [hstage] at hsite
        | ok stage =>
          simp only [hstage] at hsite
          obtain ⟨-, rfl⟩ := eq_of_room hsite
          have hp := phaseOf_eq_ok_iff.mp hphase
          have hs := stageOf_eq_ok_iff.mp hstage
          have hphaseShows := hshows.2 p phase hp
          have hstageShows := hphaseShows.2 s stage hs
          have hstageNode : (Place.stage p s, stage.scope) ∈ a.nodes :=
            hnode (by simp [PackNode.scopeAt?, PackNode.stage?, hp, hs])
          exact ⟨.cons ⟨rfl, root.scope, hnode rfl, hshows.1⟩
              (.cons ⟨rfl, phase.scope, hphaseNode hp, hphaseShows.1⟩
                (.cons ⟨rfl, stage.scope, hstageNode, hstageShows⟩ .nil)),
            fun scope view _ => hshows.insert p (hphaseShows.insert s hstageShows)⟩

end Assembler

end StoryPack
