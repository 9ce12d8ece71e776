/-
What a sequence of entries leaves in an assembler.

An assembly is an assembler that is offered entries one after the other, in any
order and whether or not it takes them, together with a record of what it has
taken.  The main result says that the tree is the record, and nothing else.

* `Assembly.offer`, `Assembly.run` — the offers;
* `Assembly.Faithful` — the assembler agrees with the record;
* `Assembly.Faithful.offer` — which an offer preserves;
* `Assembly.mem_nodes_run` — later offers leave the nodes as they are;
* `Assembly.tree_is_record` — the tree and the options after any run.
-/
import StoryPack.Proofs.Pack.Nodes

namespace StoryPack

/-- The scope at a place of what has been assembled. -/
def Assembler.scopeAt? (a : Assembler) (place : Place) : Option Scope.Table :=
  match a.state with
  | .loading root => root.scopeAt? place
  | _ => none

theorem Assembler.scopeAt?_eq_some_iff {a : Assembler} {place : Place} {scope : Scope.Table} :
    a.scopeAt? place = some scope ↔ (place, scope) ∈ a.nodes := by
  unfold scopeAt? nodes
  cases a.state <;> simp [PackNode.mem_nodes_iff]

/-- The node of a script that has run is in the tree. -/
theorem Assembler.scopeAt?_insert {a : Assembler} {place : Place} {room : Site}
    (h : a.site place = .ok room) (scope : Scope.Table) (view : Nat) :
    Assembler.scopeAt? { a with state := .loading (room.insert scope view) } place = some scope :=
  scopeAt?_eq_some_iff.mpr ((nodes_insert h scope view).mem_iff.mpr List.mem_cons_self)

/-- An assembler with its host, and a record of what it has taken, the latest first. -/
structure Assembly where
  host : Host
  assembler : Assembler
  /-- The options objects. -/
  options : List (List (String × Json)) := []
  /-- The places of the scripts, each with the scope that the script has produced there. -/
  scripts : List (Place × Option Scope.Table) := []

namespace Assembly

/-- An assembly at its start, with a table of globals. -/
def start (host : Host) (globals : Nat) : Assembly :=
  { host := host, assembler := { globals := globals } }

/-- The scope that a script produces when it is offered now. -/
def produced (s : Assembly) (budget : Option Nat) (place : Place) (source : ByteArray) :
    Option Scope.Table :=
  match s.assembler.site place with
  | .error _ => none
  | .ok site =>
    match (s.assembler.runScript s.host budget site.parents place source).2 with
    | .error _ => none
    | .ok (scope, _) => some scope

/-- Offers an entry. What it leaves of the host and the assembler is gone on with, and it is put on
record when it has been taken. -/
def offer (budget : Option Nat) (s : Assembly) (e : Entry) : Assembly :=
  match s.assembler.accept s.host budget e with
  | (host, a, .error _) => { s with host := host, assembler := a }
  | (host, a, .ok ()) =>
    match e with
    | .options members =>
      { s with host := host, assembler := a, options := members :: s.options }
    | .script place source =>
      { s with
        host := host
        assembler := a
        scripts := (place, s.produced budget place source) :: s.scripts }

/-- Offers entries in turn. -/
def run (budget : Option Nat) (s : Assembly) (entries : List Entry) : Assembly :=
  entries.foldl (offer budget) s

/-- The keys of the scripts that have been taken. -/
def keys (s : Assembly) : List (List String) := s.scripts.map (·.1.key)

/-- An entry has no place beside what has been taken. -/
def Refuses (s : Assembly) : Entry → Prop
  | .options _ => s.options ≠ [] ∨ [] ∈ s.keys
  | .script place _ => place.Refused s.keys

/-- The assembler agrees with the record. -/
structure Faithful (s : Assembly) : Prop where
  nodes : (s.assembler.nodes.map fun n => (n.1, some n.2)).Perm s.scripts
  nodup : s.keys.Nodup
  options : s.assembler.options = s.options.head?
  atMostOne : s.options.length ≤ 1
  awaiting : (s.assembler.state = .awaitingOptions → s.options = []) ∧
    (s.assembler.state = .awaitingPack → s.options ≠ [])

theorem faithful_start (host : Host) (globals : Nat) : (start host globals).Faithful where
  nodes := .refl _
  nodup := List.nodup_nil
  options := rfl
  atMostOne := Nat.zero_le _
  awaiting := ⟨fun _ => rfl, nofun⟩

theorem Faithful.keys_perm {s : Assembly} (hs : s.Faithful) : s.assembler.keys.Perm s.keys := by
  have h := hs.nodes.map fun n => n.1.key
  rwa [List.map_map] at h

theorem Faithful.mem_keys_iff {s : Assembly} (hs : s.Faithful) {key : List String} :
    key ∈ s.assembler.keys ↔ key ∈ s.keys :=
  hs.keys_perm.mem_iff

theorem Faithful.refused_iff {s : Assembly} (hs : s.Faithful) {place : Place} :
    place.Refused s.assembler.keys ↔ place.Refused s.keys := by
  simp only [Place.Refused, hs.mem_keys_iff]

/-- What an offer can do: nothing but to change the host, to take options, or to take a script. -/
theorem offer_cases (budget : Option Nat) (s : Assembly) (e : Entry) :
    (∃ host, s.offer budget e = { s with host := host }) ∨
    (∃ host members, s.assembler.state = .awaitingOptions ∧
      s.offer budget e = { s with
        host := host
        assembler := { s.assembler with options := some members, state := .awaitingPack }
        options := members :: s.options }) ∨
    (∃ host place room scope view, s.assembler.site place = .ok room ∧
      s.offer budget e = { s with
        host := host
        assembler := { s.assembler with state := .loading (room.insert scope view) }
        scripts := (place, some scope) :: s.scripts }) := by
  obtain ⟨host, a, haccept⟩ | ⟨host, f, haccept⟩ :=
    s.assembler.accept_cases s.host budget e
  · cases e with
    | options members =>
      obtain ⟨hstate, -, rfl⟩ := Assembler.accept_options_eq_ok_iff.mp haccept
      exact .inr (.inl ⟨host, members, hstate, by simp only [offer, haccept]⟩)
    | script place source =>
      obtain ⟨room, scope, view, hroom, hrun, rfl⟩ :=
        Assembler.accept_script_eq_ok_iff.mp haccept
      refine .inr (.inr ⟨host, place, room, scope, view, hroom, ?_⟩)
      simp only [offer, haccept, produced, hroom, hrun]
  · exact .inl ⟨host, by simp only [offer, haccept]⟩

theorem Faithful.offer {s : Assembly} (hs : s.Faithful) (budget : Option Nat) (e : Entry) :
    (s.offer budget e).Faithful := by
  rcases offer_cases budget s e with
    ⟨host, h⟩ | ⟨host, members, hstate, h⟩ | ⟨host, place, room, scope, view, hroom, h⟩
  · rw [h]
    exact ⟨hs.nodes, hs.nodup, hs.options, hs.atMostOne, hs.awaiting⟩
  · rw [h]
    have hnone := hs.awaiting.1 hstate
    -- no node is there before the options, and none comes with them
    have hnodes : s.assembler.nodes = [] := by rw [Assembler.nodes, hstate]
    have hscripts := hs.nodes
    rw [hnodes] at hscripts
    exact ⟨hscripts, hs.nodup, rfl, by simp [hnone],
      (fun h => by cases h), fun _ => List.cons_ne_nil _ _⟩
  · rw [h]
    have hfree : place.key ∉ s.keys := by
      intro hmem
      have hobstacle : (place.obstacle? s.assembler.keys).isSome :=
        (place.obstacle?_isSome_iff s.assembler.closed_keys).mpr (.inl (hs.mem_keys_iff.mpr hmem))
      obtain ⟨f, hf⟩ := Option.isSome_iff_exists.mp hobstacle
      simp [Assembler.site_eq_error_iff.mpr hf] at hroom
    refine ⟨?_, List.nodup_cons.mpr ⟨hfree, hs.nodup⟩, hs.options, hs.atMostOne,
      (fun h => by cases h), fun h => by cases h⟩
    exact ((Assembler.nodes_insert hroom scope view).map _).trans (hs.nodes.cons _)

theorem Faithful.run {s : Assembly} (hs : s.Faithful) (budget : Option Nat) (entries : List Entry) :
    (s.run budget entries).Faithful := by
  induction entries generalizing s with
  | nil => exact hs
  | cons e rest ih => exact ih (hs.offer budget e)

/-- An offer is refused for its structure exactly when its key is taken, the node above is missing,
or it brings options that are too late. -/
theorem Faithful.structural_iff {s : Assembly} (hs : s.Faithful) (budget : Option Nat) (e : Entry) :
    (∃ path f, (s.assembler.accept s.host budget e).2.2 = .error (.structural path f)) ↔
      s.Refuses e := by
  cases e with
  | options members =>
    rw [Refuses, ← hs.mem_keys_iff]
    cases hstate : s.assembler.state with
    | awaitingOptions =>
      simp [Assembler.accept, hstate, hs.awaiting.1 hstate,
        Assembler.keys, Assembler.nodes]
    | awaitingPack =>
      simp [Assembler.accept, hstate, hs.awaiting.2 hstate]
    | loading root =>
      have hroot : s.assembler.root? = .ok root := Assembler.root?_eq_ok_iff.mpr hstate
      simp [Assembler.accept, hstate, Assembler.keys_eq_of_root? hroot,
        root.nil_mem_keys]
  | script place source =>
    simp only [Assembler.accept_script_structural_iff, Assembler.site_eq_error_iff]
    rw [Refuses, ← hs.refused_iff, ← place.obstacle?_isSome_iff s.assembler.closed_keys,
      Option.isSome_iff_exists]
    constructor
    · rintro ⟨_, f, rfl, hf⟩
      exact ⟨f, hf⟩
    · rintro ⟨f, hf⟩
      exact ⟨_, f, rfl, hf⟩

/-- An offer leaves the nodes that are there as they are. -/
theorem mem_nodes_offer {s : Assembly} (budget : Option Nat) (e : Entry)
    {x : Place × Scope.Table} (hx : x ∈ s.assembler.nodes) :
    x ∈ (s.offer budget e).assembler.nodes := by
  rcases offer_cases budget s e with
    ⟨host, h⟩ | ⟨host, members, hstate, h⟩ | ⟨host, place, room, scope, view, hroom, h⟩
  · rw [h]
    exact hx
  · rw [Assembler.nodes, hstate] at hx
    cases hx
  · rw [h]
    exact (Assembler.nodes_insert hroom scope view).mem_iff.mpr (List.mem_cons_of_mem _ hx)

theorem mem_nodes_run {s : Assembly} (budget : Option Nat) (entries : List Entry)
    {x : Place × Scope.Table} (hx : x ∈ s.assembler.nodes) :
    x ∈ (s.run budget entries).assembler.nodes := by
  induction entries generalizing s with
  | nil => exact hx
  | cons e rest ih => exact ih (mem_nodes_offer budget e hx)

/-- A pack comes out when there is a root, and then it has the tree and the options. -/
theorem finish_eq_ok_iff {a : Assembler} {p : Pack} :
    a.finish = .ok p ↔ a.state = .loading p.root ∧ p.options = a.options := by
  obtain ⟨options, root⟩ := p
  unfold Assembler.finish
  cases a.state <;> simp [eq_comm, and_comm]

theorem Faithful.scopeAt?_eq_some_iff {s : Assembly} (hs : s.Faithful) {place : Place}
    {scope : Scope.Table} :
    s.assembler.scopeAt? place = some scope ↔ (place, some scope) ∈ s.scripts := by
  rw [Assembler.scopeAt?_eq_some_iff, ← hs.nodes.mem_iff, List.mem_map]
  constructor
  · exact fun h => ⟨_, h, rfl⟩
  · rintro ⟨⟨_, _⟩, h, heq⟩
    cases heq
    exact h

/-- There is a root when the script of the pack has been taken. -/
theorem Faithful.finish_isOk_iff {s : Assembly} (hs : s.Faithful) :
    (∃ p, s.assembler.finish = .ok p) ↔ ∃ scope, (.pack, scope) ∈ s.scripts := by
  constructor
  · rintro ⟨p, hp⟩
    refine ⟨some p.root.scope, hs.scopeAt?_eq_some_iff.mp ?_⟩
    simp [Assembler.scopeAt?, (finish_eq_ok_iff.mp hp).1, PackNode.scopeAt?]
  · rintro ⟨scope, hscope⟩
    obtain ⟨x, hx, -⟩ := List.mem_map.mp (hs.nodes.mem_iff.mpr hscope)
    unfold Assembler.nodes at hx
    cases hstate : s.assembler.state with
    | loading root => exact ⟨⟨s.assembler.options, root⟩, finish_eq_ok_iff.mpr ⟨hstate, rfl⟩⟩
    | _ => simp [hstate] at hx

/-- After any offers to a new assembler the tree is the record. A pack comes out exactly when the
script of the pack has been taken; then there is one node for each script that has been taken, no
two have the same key, each is found by its own names with the scope that its script has produced,
and the options are those that have been taken. An entry is refused for its structure exactly when
it has no place beside what has been taken, and no later offer changes a node. -/
theorem tree_is_record (host : Host) (globals : Nat) (budget : Option Nat)
    (entries : List Entry) :
    let s := (start host globals).run budget entries
    ((∃ p, s.assembler.finish = .ok p) ↔ ∃ scope, (.pack, scope) ∈ s.scripts) ∧
    (∀ p, s.assembler.finish = .ok p →
      (p.root.nodes.map fun n => (n.1, some n.2)).Perm s.scripts ∧ s.keys.Nodup ∧
      (∀ place scope, p.root.scopeAt? place = some scope ↔ (place, some scope) ∈ s.scripts) ∧
      p.options = s.options.head? ∧ s.options.length ≤ 1) ∧
    (∀ e, (∃ path f, (s.assembler.accept s.host budget e).2.2 = .error (.structural path f)) ↔
      s.Refuses e) ∧
    (∀ later place scope, s.assembler.scopeAt? place = some scope →
      (s.run budget later).assembler.scopeAt? place = some scope) := by
  intro s
  have hs : s.Faithful := (faithful_start host globals).run budget entries
  refine ⟨hs.finish_isOk_iff, fun p hp => ?_, hs.structural_iff budget,
    fun later place scope h => ?_⟩
  · obtain ⟨hstate, hoptions⟩ := finish_eq_ok_iff.mp hp
    have hnodes : s.assembler.nodes = p.root.nodes := by rw [Assembler.nodes, hstate]
    have hscope : ∀ place, s.assembler.scopeAt? place = p.root.scopeAt? place := fun place => by
      rw [Assembler.scopeAt?, hstate]
    refine ⟨hnodes ▸ hs.nodes, hs.nodup, fun place scope => ?_, hoptions.trans hs.options,
      hs.atMostOne⟩
    rw [← hscope, hs.scopeAt?_eq_some_iff]
  · rw [Assembler.scopeAt?_eq_some_iff] at h ⊢
    exact mem_nodes_run budget later h

end Assembly

end StoryPack
