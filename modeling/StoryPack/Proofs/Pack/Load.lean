/-
When a load succeeds.

An assembler that has taken some entries holds their keys.  So it takes the next
one, if nothing is wrong with it after those, and refuses it with what is wrong
otherwise; only a failing script can come between.  For sorted entries this
decides the whole load.

* `Assembler.After` — an assembler that has taken these entries;
* `Assembler.After.accept_of_violation`, `Assembler.After.accept_of_none` — what it
  does with the next one;
* `Assembler.After.acceptAll` — and with all that follow;
* `Loader.execute_sort` — a load succeeds exactly when its entries fit together;
* `Loader.exists_loaded` — a load of two scripts.
-/
import StoryPack.Proofs.Pack.Orderly
import StoryPack.Proofs.Pack.Threading

namespace StoryPack

/-- An assembler that has taken these entries. -/
structure Assembler.After (a : Assembler) (taken : List Entry) : Prop where
  keys : ∀ key, key ∈ a.keys ↔ key ∈ Entry.keys taken
  awaiting : a.state = .awaitingOptions → ∀ e ∈ taken, e.address ≠ .options
  pending : a.state = .awaitingPack → ∃ e ∈ taken, e.address = .options

namespace Assembler

theorem after_nil (globals : Nat) : After { globals := globals } [] where
  keys key := by simp [keys, nodes, Entry.keys]
  awaiting _ e he := by cases he
  pending h := by cases h

/-- A new assembler has taken nothing. -/
theorem after_new {host host' : Host} {a : Assembler} (h : Assembler.new host = (host', .ok a)) :
    a.After [] := by
  unfold Assembler.new at h
  split at h
  · cases h
  · cases h
    exact after_nil _

/-- Before the options nothing comes but options, so no tree is there when they are too late. -/
theorem After.nil_not_mem {a : Assembler} {taken : List Entry} (h : a.After taken)
    {members : List (String × Json)}
    (hrank : ∀ x ∈ taken, x.rank ≤ (Entry.options members).rank) : [] ∉ a.keys := by
  rw [h.keys, Entry.mem_keys_iff]
  rintro ⟨place, source, he, -⟩
  have hle := hrank _ he
  rw [Entry.rank_script] at hle
  exact absurd hle (by simp [Entry.rank, Entry.address, Address.kind, Address.Kind.rank])

/-- Something is wrong with options exactly when there have been some. -/
theorem After.violation?_options {a : Assembler} {taken : List Entry} (h : a.After taken)
    {members : List (String × Json)}
    (hrank : ∀ x ∈ taken, x.rank ≤ (Entry.options members).rank) :
    (a.state = .awaitingOptions ∧ (Entry.options members).violation? taken = none) ∨
      (a.state = .awaitingPack ∧
        (Entry.options members).violation? taken = some .duplicateOptions) := by
  cases hstate : a.state with
  | awaitingOptions =>
    have hnone : ¬ ∃ e ∈ taken, e.address = .options := fun ⟨e, he, haddress⟩ =>
      h.awaiting hstate e he haddress
    exact .inl ⟨rfl, if_neg hnone⟩
  | awaitingPack => exact .inr ⟨rfl, if_pos (h.pending hstate)⟩
  | loading root =>
    have hroot := keys_eq_of_root? (root?_eq_ok_iff.mpr hstate)
    exact absurd (hroot ▸ root.nil_mem_keys) (h.nil_not_mem hrank)

/-- An assembler refuses the next entry with what is wrong with it. -/
theorem After.accept_of_violation {a : Assembler} {taken : List Entry} (h : a.After taken)
    (host : Host) (budget : Option Nat) {e : Entry} (hrank : ∀ x ∈ taken, x.rank ≤ e.rank)
    {f : StructuralFault} (hf : e.violation? taken = some f) :
    (a.accept host budget e).2.2 = .error (.structural e.path f) := by
  cases e with
  | options members =>
    obtain ⟨-, hnone⟩ | ⟨hstate, hsome⟩ := h.violation?_options hrank
    · cases hf.symm.trans hnone
    · cases hf.symm.trans hsome
      simp [Assembler.accept, hstate]
  | script place source =>
    rw [Entry.violation?, ← Place.obstacle?_congr h.keys] at hf
    exact accept_script_structural_iff.mpr ⟨rfl, site_eq_error_iff.mpr hf⟩

/-- When nothing is wrong with it, its script may fail; otherwise it is taken. -/
theorem After.accept_of_none {a : Assembler} {taken : List Entry} (h : a.After taken) (host : Host)
    (budget : Option Nat) {e : Entry} (hrank : ∀ x ∈ taken, x.rank ≤ e.rank)
    (hnone : e.violation? taken = none) :
    (∃ host' path f, a.accept host budget e = (host', a, .error (.script path f))) ∨
      ∃ host' a', a.accept host budget e = (host', a', .ok ()) ∧ a'.After (taken ++ [e]) := by
  cases e with
  | options members =>
    obtain ⟨hstate, -⟩ | ⟨-, hsome⟩ := h.violation?_options hrank
    · let a' : Assembler := { a with options := some members, state := .awaitingPack }
      refine .inr ⟨host, a', accept_options_eq_ok_iff.mpr ⟨hstate, rfl, rfl⟩,
        ⟨fun key => ?_, (fun h => by cases h), fun _ => ?_⟩⟩
      · rw [Entry.keys_concat_options, ← h.keys]
        simp [a', Assembler.keys, Assembler.nodes, hstate]
      · exact ⟨_, List.mem_append_right _ (List.mem_singleton_self _), rfl⟩
    · cases hnone.symm.trans hsome
  | script place source =>
    rw [Entry.violation?, ← Place.obstacle?_congr h.keys] at hnone
    cases hroom : a.site place with
    | error f => simp [site_eq_error_iff.mp hroom] at hnone
    | ok room =>
      rcases hrun : a.runScript host budget room.parents place source with
        ⟨host', f | ⟨scope, view⟩⟩
      · exact .inl ⟨host', _, f, accept_eq_error_iff.mpr
          ⟨.script hroom (runScript_eq_error_iff.mp hrun), rfl⟩⟩
      · refine .inr ⟨host', _, accept_script_eq_ok_iff.mpr
          ⟨room, scope, view, hroom, hrun, rfl⟩, ?_⟩
        refine ⟨fun key => ?_, (fun h => by cases h), fun h => by cases h⟩
        have hkeys := (nodes_insert hroom scope view).map fun n => n.1.key
        rw [Entry.keys_concat_script, List.mem_append, List.mem_singleton, ← h.keys, or_comm]
        exact hkeys.mem_iff.trans List.mem_cons

/-- What an assembler does with entries in ascending order. Unless a script fails, it stops at the
first with which something is wrong after those before it, or takes them all. -/
theorem After.acceptAll {a : Assembler} {taken : List Entry} (h : a.After taken)
    (horderly : Orderly taken) (host : Host) (budget : Option Nat) (es : List Entry)
    (hrank : (taken ++ es).Pairwise fun a b => a.rank ≤ b.rank)
    (hrun : ∀ path f, (a.acceptAll host budget es).2.2 ≠ .error (.script path f)) :
    (∃ e f, FirstViolation (taken ++ es) e f ∧
      (a.acceptAll host budget es).2.2 = .error (.structural e.path f)) ∨
    (Orderly (taken ++ es) ∧
      ∃ host' a', a.acceptAll host budget es = (host', a', .ok ()) ∧
        a'.After (taken ++ es)) := by
  induction es generalizing a taken host with
  | nil =>
    rw [List.append_nil]
    exact .inr ⟨horderly, host, a, rfl, h⟩
  | cons e rest ih =>
    have hbefore : ∀ x ∈ taken, x.rank ≤ e.rank := fun x hx =>
      (List.pairwise_append.mp hrank).2.2 x hx e (by simp)
    cases hviolation : e.violation? taken with
    | some f =>
      have hf := h.accept_of_violation host budget hbefore hviolation
      refine .inl ⟨e, f, ⟨taken, rest, rfl, horderly, hviolation⟩, ?_⟩
      obtain ⟨host', a', haccept⟩ | ⟨host', g, haccept⟩ := a.accept_cases host budget e
      · rw [haccept] at hf
        cases hf
      · rw [haccept] at hf
        simp only [Assembler.acceptAll, haccept]
        exact hf
    | none =>
      obtain ⟨host', path, f, haccept⟩ | ⟨host', a', haccept, hafter⟩ :=
        h.accept_of_none host budget hbefore hviolation
      · exact absurd (by simp only [Assembler.acceptAll, haccept]) (hrun path f)
      · have hall : a.acceptAll host budget (e :: rest) = a'.acceptAll host' budget rest := by
          simp only [Assembler.acceptAll, haccept]
        rw [hall] at hrun ⊢
        have hassoc : taken ++ e :: rest = (taken ++ [e]) ++ rest := by simp
        rw [hassoc] at hrank ⊢
        exact ih hafter (orderly_concat_iff.mpr ⟨horderly, hviolation⟩) host' hrank hrun

theorem After.finish {a : Assembler} {taken : List Entry} (h : a.After taken) :
    ([] ∈ Entry.keys taken ∧ ∃ p, a.finish = .ok p) ∨
      ([] ∉ Entry.keys taken ∧ a.finish = .error (.incomplete .noPackData)) := by
  rw [← h.keys]
  unfold Assembler.finish
  cases hstate : a.state with
  | loading root =>
    have hroot := keys_eq_of_root? (root?_eq_ok_iff.mpr hstate)
    exact .inl ⟨hroot ▸ root.nil_mem_keys, _, rfl⟩
  | _ => exact .inr ⟨by simp [Assembler.keys, Assembler.nodes, hstate], rfl⟩

end Assembler

namespace Loader

/-- A load fails with the fault of the first entry that is refused. -/
theorem execute_of_refused {l : Loader} {es : List Entry} {host : Host} {a : Assembler}
    {f : LoadFault} (hnew : Assembler.new l.host = (host, .ok a))
    (h : (a.acceptAll host l.config.instructionBudget es).2.2 = .error f) :
    (l.execute es).2 = .error f := by
  rcases hall : a.acceptAll host l.config.instructionBudget es with ⟨host', a', g | ⟨⟩⟩
  · rw [hall] at h
    cases h
    simp only [execute, assemble, hnew, hall]
  · rw [hall] at h
    cases h

/-- When all entries are taken, it succeeds if there is a tree. -/
theorem execute_of_accepted {l : Loader} {es : List Entry} {host host' : Host} {a a' : Assembler}
    (hnew : Assembler.new l.host = (host, .ok a))
    (h : a.acceptAll host l.config.instructionBudget es = (host', a', .ok ())) :
    (l.execute es).2 = a'.finish := by
  simp only [execute, assemble, hnew, h]

/-- The load of sorted entries, when no script fails, succeeds exactly when the entries fit
together. Otherwise it stops at the first entry with which something is wrong after those before
it, and says what; if there is none such, the script of the pack is missing. -/
theorem execute_sort (l : Loader) (es : List Entry)
    (hrun : ∀ path f, (l.execute (Entry.sort es)).2 ≠ .error (.script path f)) :
    ((∃ p, (l.execute (Entry.sort es)).2 = .ok p) ↔ Fits es) ∧
    (¬ Fits es →
      (∃ e f, FirstViolation (Entry.sort es) e f ∧
        (l.execute (Entry.sort es)).2 = .error (.structural e.path f)) ∨
      (Orderly (Entry.sort es) ∧ (∀ e ∈ es, e.address ≠ .script .pack) ∧
        (l.execute (Entry.sort es)).2 = .error (.incomplete .noPackData))) := by
  rcases hnew : Assembler.new l.host with ⟨host, f | a₀⟩
  · -- without a table of globals no entry is looked at
    exact absurd (by simp only [execute, assemble, hnew]) (hrun "<globals>" f)
  have hfits : Fits es ↔ Orderly (Entry.sort es) ∧ [] ∈ Entry.keys es := by
    rw [fits_iff, orderly_iff (Entry.pairwise_rank_sort es)]
    exact and_congr_left' (Rooted.perm_iff (Entry.sort_perm es).symm)
  have hkeys : ∀ key, key ∈ Entry.keys (Entry.sort es) ↔ key ∈ Entry.keys es := fun key =>
    ((Entry.sort_perm es).filterMap _).mem_iff
  have ha₀ : a₀.After [] := Assembler.after_new hnew
  have hall := ha₀.acceptAll orderly_nil host l.config.instructionBudget (Entry.sort es)
    (Entry.pairwise_rank_sort es) fun path f hf => hrun path f (execute_of_refused hnew hf)
  rw [List.nil_append] at hall
  rcases hall with ⟨e, f, hfirst, herror⟩ | ⟨horderly, host', a, haccept, hafter⟩
  · have hnot : ¬ Fits es := fun h => hfirst.not_orderly (hfits.mp h).1
    rw [execute_of_refused hnew herror]
    exact ⟨⟨nofun, fun h => absurd h hnot⟩, fun _ => .inl ⟨e, f, hfirst, rfl⟩⟩
  · rw [execute_of_accepted hnew haccept]
    rcases hafter.finish with ⟨hroot, p, hp⟩ | ⟨hroot, hp⟩
    · have hyes : Fits es := hfits.mpr ⟨horderly, (hkeys []).mp hroot⟩
      exact ⟨⟨fun _ => hyes, fun _ => ⟨p, hp⟩⟩, fun hno => absurd hyes hno⟩
    · rw [hkeys] at hroot
      rw [hp]
      refine ⟨⟨nofun, fun h => absurd (hfits.mp h).2 hroot⟩, fun _ => .inr ⟨horderly, ?_, rfl⟩⟩
      intro e he haddress
      exact hroot (List.mem_filterMap.mpr ⟨e, he, Entry.key?_eq_nil_iff.mpr haddress⟩)

/-! ### Two scripts -/

/-- The loader whose collector runs at another pace. -/
def paced (l : Loader) (pace : Script.Pace) : Loader := { l with host := l.host.paced pace }

/-- No limits. -/
def unlimited : Config := { instructionBudget := none, memoryLimit := none }

/-- The script of a pack, which has a title. -/
def packEntry : Entry := .script .pack Assembly.titleSource

/-- The script of a phase, which takes the title over. -/
def phaseEntry : Entry := .script (.phase "p") Session.copying

/-- A stage of another phase. -/
def strayEntry : Entry := .script (.stage "q" "s") ByteArray.empty

theorem sort_entries : Entry.sort [phaseEntry, packEntry] = [packEntry, phaseEntry] ∧
    Entry.sort [strayEntry, phaseEntry, packEntry] = [packEntry, phaseEntry, strayEntry] := by
  constructor
  · rw [Entry.sort_eq_of_perm (List.Perm.swap ..) (by unfold Entry.Untied; decide)]
    exact List.mergeSort_of_pairwise (by decide)
  · rw [Entry.sort_eq_of_perm (List.reverse_perm _).symm (by unfold Entry.Untied; decide)]
    exact List.mergeSort_of_pairwise (by decide)

/-- A loader without limits, whose collector rests, takes both scripts, and then there is no such
phase as the stage belongs to. -/
theorem execute_tale {W : Script.Ward} {l : Loader} (hh : l.host.Confined W)
    (hrest : l.host.heap.Resting)
    (hconfig : l.config = unlimited) :
    (∃ p phase, (l.execute [packEntry, phaseEntry]).2 = .ok p ∧ Assembly.titled p.root.scope ∧
      p.root.phases.find? "p" = some phase ∧ Assembly.titled phase.scope) ∧
    (l.execute [packEntry, phaseEntry, strayEntry]).2 =
      .error (.structural "phases/q/s.lua" (.phaseNotLoaded "q")) := by
  obtain ⟨host₀, a₀, W, scope, view, hassembler, hpack, hs, hfaithful, hrest, hstate, habove,
    htitle⟩ := Assembly.new_titled hh hrest
  generalize (Assembly.start host₀ a₀.globals).run none _ = s
    at hs hfaithful hrest hstate habove hpack
  -- the second script is run beside the view of the first one
  obtain ⟨host', scope', view', htitle', hphase, -⟩ := hs.accept_copying hfaithful hrest
    (Assembly.site_phase hstate rfl) habove htitle
  let phase : PhaseNode := { scope := scope', view := view' }
  let root : PackNode := { scope := scope, view := view, phases := Directory.insert {} "p" phase }
  let a : Assembler := { s.assembler with state := .loading root }
  replace hphase : s.assembler.accept s.host none phaseEntry = (host', a, .ok ()) := hphase
  replace hpack : a₀.accept host₀ none packEntry = (s.host, s.assembler, .ok ()) := hpack
  -- then there is no room for the stage
  have hstray : a.accept host' none strayEntry =
      (host', a, .error (.structural "phases/q/s.lua" (.phaseNotLoaded "q"))) := rfl
  have hbudget : l.config.instructionBudget = none := congrArg (·.instructionBudget) hconfig
  refine ⟨⟨{ options := a.options, root := root }, phase, ?_, htitle, rfl, htitle'⟩, ?_⟩
  · have hall : a₀.acceptAll host₀ none [packEntry, phaseEntry] = (host', a, .ok ()) := by
      simp only [Assembler.acceptAll, hpack, hphase]
    exact execute_of_accepted hassembler (hbudget.symm ▸ hall)
  · refine execute_of_refused hassembler ?_
    rw [hbudget]
    simp only [Assembler.acceptAll, hpack, hphase, hstray]

/-- There is a new loader. -/
theorem exists_new : ∃ l₀, new unlimited = .ok l₀ ∧ l₀.host.Fresh none ∧ l₀.config = unlimited := by
  obtain ⟨host, hhost⟩ := Host.exists_new
  refine ⟨{ host := host, config := unlimited }, ?_, Host.fresh_of_new hhost, rfl⟩
  unfold new
  rw [show unlimited.memoryLimit = none from rfl, hhost]

/-- When its collector rests, it takes both scripts. -/
theorem exists_loaded : ∃ l₀, new unlimited = .ok l₀ ∧
    let l := l₀.paced Script.Pace.resting
    (∃ p phase, (l.execute [packEntry, phaseEntry]).2 = .ok p ∧ Assembly.titled p.root.scope ∧
      p.root.phases.find? "p" = some phase ∧ Assembly.titled phase.scope) ∧
    (l.execute [packEntry, phaseEntry, strayEntry]).2 =
      .error (.structural "phases/q/s.lua" (.phaseNotLoaded "q")) := by
  obtain ⟨l₀, hnew, hfresh, hconfig⟩ := exists_new
  have hconfined : (l₀.paced Script.Pace.resting).host.Confined (Guard.ward l₀.host.heap) :=
    ⟨hfresh.kept.congr rfl rfl rfl rfl, hfresh.libraries, hfresh.calls⟩
  exact ⟨l₀, hnew, execute_tale hconfined ⟨hfresh.limit, rfl⟩ hconfig⟩

/-- So the scripts fit together, in whatever order they stand, and with the stage they do not. -/
theorem execute_sort_tale : ∃ l₀, new unlimited = .ok l₀ ∧
    let l := l₀.paced Script.Pace.resting
    Fits [phaseEntry, packEntry] ∧
    (∃ p, (l.execute (Entry.sort [phaseEntry, packEntry])).2 = .ok p) ∧
      ¬Fits [strayEntry, phaseEntry, packEntry] ∧
      ∃ e, FirstViolation (Entry.sort [strayEntry, phaseEntry, packEntry]) e (.phaseNotLoaded "q") ∧
        e.path = "phases/q/s.lua" := by
  obtain ⟨l₀, hnew, ⟨p, phase, hp, -⟩, hstray⟩ := exists_loaded
  obtain ⟨hsort, hsort'⟩ := sort_entries
  let l := l₀.paced Script.Pace.resting
  have hfits := l.execute_sort [phaseEntry, packEntry] fun path f h => by
    rw [hsort, hp] at h
    cases h
  have hno := l.execute_sort [strayEntry, phaseEntry, packEntry] fun path f h => by
    rw [hsort', hstray] at h
    cases h
  have hnot : ¬Fits [strayEntry, phaseEntry, packEntry] := fun h => by
    obtain ⟨p, hp⟩ := hno.1.mpr h
    rw [hsort', hstray] at hp
    cases hp
  refine ⟨l₀, hnew, hfits.1.mp ⟨p, hsort ▸ hp⟩, ⟨p, hsort ▸ hp⟩, hnot, ?_⟩
  have hfirst := hno.2 hnot
  rw [hsort', hstray] at hfirst
  rw [hsort']
  obtain ⟨e, f, hfirst, hf⟩ | ⟨-, -, hf⟩ := hfirst
  · obtain ⟨hpath, rfl⟩ := LoadFault.structural.inj (Except.error.inj hf)
    exact ⟨e, hfirst, hpath.symm⟩
  · cases hf

end Loader

end StoryPack
