/-
Loads do not affect each other.

All loads of a loader share one interpreter.  What earlier loads have left in it
is more than a fresh one holds, but a load can get at none of it: it does what
it would do with a fresh interpreter whose next objects have other references.
References show nowhere but in addresses, so where the objects of a loader lie
is left open.

The collector is shared as well, and when it runs depends on what earlier loads
have left to be collected.  It shows in weak tables: a load that makes one, and
looks whether its entries are still there, can come to another end.

* `Loader.placed`, `Loader.placedAs` — a loader whose objects lie elsewhere;
* `Loader.LosesNothing` — a load from whose tables the collector takes nothing;
* `Loader.Reaches` — what a loader becomes by loads;
* `Loader.Grown.execute` — a load by a loader that has come of a fresh one;
* `Loader.execute_of_reaches` — a load gives what it gives on a fresh loader.
-/
import StoryPack.Proofs.Confinement.Session
import StoryPack.Proofs.Pack.Load
import StoryPack.Proofs.Pack.Overrun
import StoryPack.Proofs.Renaming.Fresh
import StoryPack.Proofs.Renaming.Pack

namespace StoryPack

open Script

namespace Loader

/-- The loader whose objects lie elsewhere. -/
def placed (l : Loader) (place : Value → Nat) : Loader :=
  { l with host := l.host.withHeap { l.host.heap with place := place } }

/-- The loader whose objects lie where the corresponding ones of another loader do. -/
def placedAs (fresh l : Loader) (σ : Renaming) : Loader :=
  fresh.placed fun v => l.host.heap.place (σ.value v)

/-- While entries are loaded, the collector takes nothing out of the weak tables that this load has
made. -/
def LosesNothing (l : Loader) (es : List Entry) : Prop :=
  l.host.heap.Spares l.host.heap.tables.size (l.execute es).1.host.heap

/-- A collector that does not run takes nothing. -/
theorem losesNothing_of_resting {W : Ward} {l : Loader} (hh : l.host.Confined W)
    (hrest : l.host.heap.Resting) (es : List Entry) : l.LosesNothing es := by
  obtain ⟨W', hleads⟩ := execute_leads hh es
  exact ⟨[], hleads.idle hrest, nofun⟩

/-- What a loader becomes by loads, however they end. Between them, packs are kept from being lost
or are given up. -/
inductive Reaches (l : Loader) : Loader → Prop
  | refl : Reaches l l
  | load {l' : Loader} (h : Reaches l l') (es : List Entry) : Reaches l (l'.execute es).1
  | hold {l' : Loader} (h : Reaches l l') (held : List Value) :
    Reaches l { l' with host.interpreter.held := held }
  /-- Wherever its objects lie. -/
  | place {l' : Loader} (h : Reaches l l') (place : Value → Nat) : Reaches l (l'.placed place)
  /-- Whenever its collector runs. -/
  | pace {l' : Loader} (h : Reaches l l') (pace : Pace) : Reaches l (l'.paced pace)

/-- The files of an archive are loaded as their entries are. -/
theorem Reaches.loadFiles {l l' : Loader} (h : l.Reaches l') (files : Listing)
    (build : Pack → Except String Pack) : l.Reaches (l'.loadFiles files build).1 := by
  unfold Loader.loadFiles
  cases files.entries l'.config.maxEntryBytes with
  | error f => exact h
  | ok entries =>
    have hload := h.load entries
    dsimp only
    generalize l'.execute entries = p at hload ⊢
    obtain ⟨l₁, r⟩ := p
    cases r with
    | error f => exact hload
    | ok pack =>
      dsimp only
      cases build pack <;> exact hload

/-- A loader that has come of another one. -/
structure Grown (fresh : Loader) (W : Ward) (l : Loader) : Prop where
  host : fresh.host.Grown W l.host
  config : l.config = fresh.config

variable {fresh l : Loader} {limit : Option Nat} {W : Ward}

/-- The same loader with another heap in which all that is fixed is as it was. -/
theorem Grown.withHeap (hl : fresh.Grown W l) {h : Heap}
    (hsize : l.host.heap.tables.size ≤ h.tables.size)
    (hk : h.Kept W) (hlimit : h.limit = none) :
    fresh.Grown W { l with host := l.host.withHeap h } where
  host :=
    { contains := hl.host.contains
      confined := hl.host.confined.withHeap hsize hk
      rest := congrArg (Host.withHeap · h) hl.host.rest
      limit := hlimit }
  config := hl.config

/-- The mark of an overrun, the addresses and the pace of the collector are no matter. -/
theorem Grown.congr (hl : fresh.Grown W l) (tripped : Bool) (pace : Pace) (place : Value → Nat) :
    fresh.Grown W { l with host := l.host.withHeap { l.host.heap with
      tripped := tripped, pace := pace, place := place } } :=
  hl.withHeap (Nat.le_refl _) (hl.host.confined.kept.congr rfl rfl rfl rfl) hl.host.limit

/-- It still has after a load. -/
theorem Grown.load (hl : fresh.Grown W l) (es : List Entry) :
    ∃ W', fresh.Grown W' (l.execute es).1 := by
  obtain ⟨W', hleads⟩ := Loader.execute_leads hl.host.confined es
  refine ⟨W', ⟨hleads.contains.trans hl.host.contains, hleads.confined, ?_,
    hleads.limit.trans hl.host.limit⟩, hl.config⟩
  rw [hleads.rest, hl.host.rest]

/-- A load by a loader that has come of a fresh one is that by the fresh one with references
renamed. -/
theorem Grown.execute (hl : fresh.Grown W l) (hfresh : fresh.host.Fresh limit)
    (hlimit : fresh.host.heap.limit = none) (pace : Pace) (es : List Entry)
    (hv : ((fresh.paced pace).placedAs l (hfresh.renaming l.host)).LosesNothing es)
    (hv' : l.LosesNothing es) :
    (l.execute es).2 = (((fresh.paced pace).placedAs l (hfresh.renaming l.host)).execute es).2.map
      (hfresh.renaming l.host).pack := by
  -- the mark that the last run may have left makes no difference
  let b := fresh.host.heap.tripped
  obtain ⟨⟨b', hhost⟩, hresult⟩ := l.execute_withTripped b es
  have hgrown : fresh.Grown W (l.withTripped b) := hl.congr b _ _
  have hconfined : ((fresh.paced pace).placedAs l (hfresh.renaming l.host)).host.Confined
      (Guard.ward fresh.host.heap) :=
    { kept := hfresh.kept.congr rfl rfl rfl rfl
      libraries := hfresh.libraries
      calls := hfresh.calls }
  have hrenamed := hfresh.renamed hlimit hgrown.host rfl fun v => rfl
  have hboth : ((fresh.paced pace).placedAs l (hfresh.renaming l.host)).host.Renamed
      (hfresh.renaming l.host) (l.withTripped b).host :=
    { hrenamed with heap := { hrenamed.heap with } }
  obtain ⟨-, hr⟩ := Loader.execute_renamed hboth (hfresh.shields hl.host) hl.config hconfined
    hgrown.host.confined es hv (hhost ▸ hv')
  exact hresult.symm.trans hr

/-- Whatever loads have been made, what the fresh loader held is as it was. -/
theorem Reaches.grown (hl : fresh.Reaches l) (hfresh : fresh.host.Fresh limit)
    (hlimit : fresh.host.heap.limit = none) : ∃ W, fresh.Grown W l := by
  induction hl with
  | refl =>
    refine ⟨_, ⟨.refl (Guard.ward fresh.host.heap), ?_, rfl, hlimit⟩, rfl⟩
    exact ⟨hfresh.kept, hfresh.libraries, hfresh.calls⟩
  | load hl es ih =>
    obtain ⟨W, hgrown⟩ := ih
    exact hgrown.load es
  | hold hl held ih =>
    obtain ⟨W, hgrown⟩ := ih
    refine ⟨W, ⟨hgrown.host.contains, ?_, ?_, hgrown.host.limit⟩, hgrown.config⟩
    · exact hgrown.host.confined.of_kept _ (Nat.le_refl _) hgrown.host.confined.kept
    · exact congrArg (fun host : Host => { host with interpreter.held := held }) hgrown.host.rest
  | place hl place ih =>
    obtain ⟨W, hgrown⟩ := ih
    exact ⟨W, hgrown.congr _ _ place⟩
  | pace hl pace ih =>
    obtain ⟨W, hgrown⟩ := ih
    exact ⟨W, hgrown.congr _ pace _⟩

/-- What holds of a new loader. -/
theorem fresh_of_new {config : Config} (hfresh : new config = .ok fresh) :
    fresh.config = config ∧ fresh.host.Fresh config.memoryLimit := by
  unfold new at hfresh
  split at hfresh
  · rename_i host hhost
    cases hfresh
    exact ⟨rfl, Host.fresh_of_new hhost⟩
  · cases hfresh

/-- Whatever loads have been made on a loader without memory limit (a limit of 0 is none), a load
gives the same fault as on the fresh loader, or the same options and the same tree with the same
data: only the references of the functions and of the views in it are others. This is so whenever
the collectors of the two run, as long as neither takes anything out of the weak tables that the
load has made. The objects of the fresh loader lie where the corresponding ones of the used loader
do; a load that does not depend on this gives what it gives on the fresh loader as it is. -/
theorem execute_of_reaches {config : Config} (hlimit : config.memoryLimit.getD 0 = 0)
    (hfresh : new config = .ok fresh) (hl : fresh.Reaches l) (pace : Pace) (es : List Entry) :
    ∃ σ : Renaming,
      l.LosesNothing es → ((fresh.paced pace).placedAs l σ).LosesNothing es →
        (l.execute es).2 = (((fresh.paced pace).placedAs l σ).execute es).2.map σ.pack ∧
        ((∀ place, (((fresh.paced pace).placed place).execute es).2 =
            ((fresh.paced pace).execute es).2) →
          (l.execute es).2 = ((fresh.paced pace).execute es).2.map σ.pack) := by
  obtain ⟨-, hhost⟩ := fresh_of_new hfresh
  have hnone : fresh.host.heap.limit = none := by
    refine hhost.limit.trans ?_
    cases hmemory : config.memoryLimit with
    | none => rfl
    | some n =>
      rw [hmemory] at hlimit
      cases hlimit
      rfl
  obtain ⟨W, hgrown⟩ := hl.grown hhost hnone
  refine ⟨hhost.renaming l.host, fun hv' hv => ?_⟩
  have hload := hgrown.execute hhost hnone pace es hv hv'
  exact ⟨hload, fun hsame => hload.trans (congrArg _ (hsame _))⟩

/-- After a load of the script of a pack, a load of two scripts succeeds as it does on the fresh
loader. -/
theorem execute_of_reaches_tale : ∃ (fresh used : Loader) (σ : Renaming) (p : Pack)
    (phase : PhaseNode), new unlimited = .ok fresh ∧
    used = ((fresh.paced Pace.resting).execute [packEntry]).1 ∧ fresh.Reaches used ∧
    (used.execute [packEntry, phaseEntry]).2 = .ok p ∧ Assembly.titled p.root.scope ∧
    p.root.phases.find? "p" = some phase ∧ Assembly.titled phase.scope ∧
    (used.execute [packEntry, phaseEntry]).2 =
      (((fresh.paced Pace.resting).placedAs used σ).execute [packEntry, phaseEntry]).2.map
        σ.pack := by
  obtain ⟨fresh, hnew, hfresh, hconfig⟩ := exists_new
  let l := fresh.paced Pace.resting
  let used := (l.execute [packEntry]).1
  have hreaches : fresh.Reaches used := .load (.pace .refl Pace.resting) [packEntry]
  have hrest : l.host.heap.Resting := ⟨hfresh.limit, rfl⟩
  have hconfined (place : Value → Nat) :
      (l.placed place).host.Confined (Guard.ward fresh.host.heap) :=
    ⟨hfresh.kept.congr rfl rfl rfl rfl, hfresh.libraries, hfresh.calls⟩
  obtain ⟨W, hleads⟩ := execute_leads (l := l) (hconfined l.host.heap.place) [packEntry]
  have hrest' : used.host.heap.Resting :=
    ⟨hleads.limit.trans hrest.limit, hleads.pace.trans hrest.pace⟩
  obtain ⟨⟨p, phase, hp, htitle, hphase, htitle'⟩, -⟩ :=
    execute_tale (l := used) hleads.confined hrest' hconfig
  obtain ⟨σ, hload⟩ :=
    execute_of_reaches rfl hnew hreaches Pace.resting [packEntry, phaseEntry]
  have hplaced : (l.placedAs used σ).LosesNothing [packEntry, phaseEntry] :=
    losesNothing_of_resting (hconfined fun v => used.host.heap.place (σ.value v))
      ⟨hrest.limit, hrest.pace⟩ _
  exact ⟨fresh, used, σ, p, phase, hnew, rfl, hreaches, hp, htitle, hphase, htitle',
    (hload (losesNothing_of_resting hleads.confined hrest' _) hplaced).1⟩

end Loader

end StoryPack
