/-
Entries in parts.

An `Entry` can not be malformed: a script has a place, and the place has its names.  Whoever
makes an entry has less than that in hand, namely a kind, some names, a path and a payload,
which nothing ties together.  An assembler that takes such an entry looks up its names by their
numbers, may meet a script that has the kind of options, and looks for the parent of the new
node a second time when the script has run.  Each of these can go wrong with an entry that is
put together at will (`plan_eq_outOfRange_iff`, `plan_eq_unreachable_iff`).  With those that are
made from paths, from options and from archives none does: they are well-formed entries taken
apart, and the assembler does with them what it does with those.

* `Parts` — an entry in parts, and `Parts.of`, a well-formed one;
* `Parts.script?`, `Parts.options`, `Parts.read` — the makers of entries;
* `Parts.Made.exists_of` — what they make is well formed;
* `Assembler.plan`, `Assembler.acceptParts` — how an entry in parts is taken;
* `Assembler.acceptParts_of` — a well-formed one is taken as a whole one is;
* `Assembler.acceptParts_sound` — nothing goes wrong, and no node gets lost.
-/
import StoryPack.Archive.Container
import StoryPack.Proofs.Entry.Grammar
import StoryPack.Proofs.Pack.Assembly

namespace StoryPack

/-- What an entry carries. -/
inductive Payload where
  | options (members : List (String × Json))
  | script (source : ByteArray)

/-- An entry in parts. Nothing says that they fit together. -/
structure Parts where
  kind : Address.Kind
  names : List String
  path : String
  payload : Payload

namespace Parts

/-! ### The makers of entries -/

/-- The script of a path: of those whose kind is that of a script. -/
def script? (path : String) (source : ByteArray) : Option Parts :=
  ((Address.classify path).filter fun found => found.1.isScript).map fun found =>
    { kind := found.1, names := found.2, path := path, payload := .script source }

/-- The options. -/
def options (members : List (String × Json)) : Parts :=
  { kind := .packOptions, names := [], path := "options.json", payload := .options members }

/-- The object that a body spells. -/
def parseObject (path : String) (body : ByteArray) : Except ReadFault (List (String × Json)) :=
  match Json.read body 127 with
  | .ok (.obj members) => .ok members
  | .ok _ => .error (.optionsNotObject path)
  | .error f => .error (.invalidOptions path f)

/-- The entry that a body makes. Its kind alone decides what it carries. -/
def ofBody (kind : Address.Kind) (names : List String) (path : String) (body : ByteArray) :
    Except ReadFault Parts :=
  match kind with
  | .packOptions =>
    (parseObject path body).map fun members =>
      { kind := kind, names := names, path := path, payload := .options members }
  | _ => .ok { kind := kind, names := names, path := path, payload := .script body }

/-- The entry that a member of an archive is; nothing for a member that is none. -/
def ofMember? (m : Member) (limit : Nat) : Except ReadFault (Option Parts) :=
  match Address.classify m.path with
  | none => .ok none
  | some (kind, names) =>
    if limit < m.size then .error (.entryTooLarge m.path m.size limit)
    else if Member.capacityLimit < m.size then .error (.capacity m.path m.size)
    else
      match Member.read m.body limit with
      | .error f => .error f
      | .ok body =>
        if limit < body.size then .error (.entryTooLarge m.path body.size limit)
        else (ofBody kind names m.path body).map some

/-- The entries that some members are, in their order. -/
def ofMembers (limit : Nat) : List Member → Except ReadFault (List Parts)
  | [] => .ok []
  | m :: rest => do
    let e ← ofMember? m limit
    let others ← ofMembers limit rest
    .ok (e.toList ++ others)

/-- The order of processing. -/
def compare (a b : Parts) : Ordering :=
  (Ord.compare a.kind.rank b.kind.rank).then (Address.compareNames a.names b.names)

/-- Sorts into processing order; entries that tie keep their order. -/
def sort (es : List Parts) : List Parts :=
  es.mergeSort fun a b => compare a b != .gt

/-- The entries of an archive in processing order. -/
def read (x : Archive) (limit : Nat) : Except ReadFault (List Parts) := do
  let es ← ofMembers limit x.listing.files
  match x.listing.fault with
  | some f => .error f
  | none => .ok (sort es)

/-- What is made of a path, of options or of an archive. -/
inductive Made : Parts → Prop where
  | script {path : String} {source : ByteArray} {e : Parts} (h : script? path source = some e) :
    Made e
  | options (members : List (String × Json)) : Made (options members)
  | read {x : Archive} {limit : Nat} {es : List Parts} {e : Parts} (h : read x limit = .ok es)
    (he : e ∈ es) : Made e

/-! ### Well-formed entries, taken apart -/

/-- What a well-formed entry carries. -/
def payloadOf : Entry → Payload
  | .options members => .options members
  | .script _ source => .script source

/-- The parts of a well-formed entry. -/
def of (e : Entry) : Parts :=
  { kind := e.address.kind, names := e.address.names, path := e.path, payload := payloadOf e }

variable {path : String} {source : ByteArray} {m : Member} {limit : Nat} {e : Parts}

theorem of_script {place : Place} (h : (Address.script place).path = path) :
    of (.script place source) =
      { kind := (Address.script place).kind, names := (Address.script place).names,
        path := path, payload := .script source } := by
  rw [← h]
  rfl

theorem isScript_kind (place : Place) : (Address.script place).kind.isScript = true := by
  rcases place with _ | _ | _ | ⟨_ | _, _, _, _⟩ <;> rfl

theorem script?_eq (path : String) (source : ByteArray) :
    script? path source = (Entry.script? path source).map of := by
  unfold script? Entry.script? Address.classify
  cases hpath : Address.ofPath? path with
  | none => rfl
  | some a =>
    obtain ⟨-, ha⟩ := Address.ofPath?_eq_some_iff.mp hpath
    cases a with
    | options => rfl
    | script place =>
      simp only [Option.map_some, Option.filter_some, isScript_kind, if_true, of_script ha]

theorem options_eq (members : List (String × Json)) : options members = of (.options members) :=
  rfl

theorem parseOptions_eq (path : String) (body : ByteArray) :
    Member.parseOptions path body = (parseObject path body).map .options := by
  unfold Member.parseOptions parseObject
  cases Json.read body 127 with
  | error f => rfl
  | ok j => cases j <;> rfl

theorem ofBody_options (body : ByteArray) :
    ofBody .packOptions [] "options.json" body =
      (Member.parseOptions "options.json" body).map of := by
  rw [parseOptions_eq, ofBody]
  cases parseObject "options.json" body <;> rfl

theorem ofBody_script {place : Place} (h : (Address.script place).path = path)
    (body : ByteArray) :
    ofBody (Address.script place).kind (Address.script place).names path body =
      .ok (of (.script place body)) := by
  rw [of_script h]
  rcases place with _ | _ | _ | ⟨_ | _, _, _, _⟩ <;> rfl

theorem ofMember?_eq (m : Member) (limit : Nat) :
    ofMember? m limit = (m.entry? limit).map (Option.map of) := by
  unfold ofMember? Member.entry? Address.classify Member.address?
  cases hpath : Address.ofPath? m.path with
  | none => rfl
  | some a =>
    obtain ⟨-, ha⟩ := Address.ofPath?_eq_some_iff.mp hpath
    simp only [Option.map_some]
    split
    · rfl
    split
    · rfl
    cases Member.read m.body limit with
    | error f => rfl
    | ok body =>
      simp only
      split
      · rfl
      cases a with
      | options =>
        have hoptions : m.path = "options.json" := ha.symm
        have hbody := ofBody_options body
        simp only [hoptions, Address.kind, Address.names, hbody]
        cases Member.parseOptions "options.json" body <;> rfl
      | script place =>
        rw [ofBody_script ha]
        rfl

theorem ofMembers_eq (limit : Nat) (files : List Member) :
    ofMembers limit files = (Member.entries limit files).map (List.map of) := by
  induction files with
  | nil => rfl
  | cons m rest ih =>
    rw [ofMembers, Member.entries, ih, ofMember?_eq]
    cases m.entry? limit with
    | error f => rfl
    | ok o =>
      cases Member.entries limit rest with
      | error f => rfl
      | ok es => cases o <;> rfl

theorem sort_map (es : List Entry) : sort (es.map of) = (Entry.sort es).map of :=
  (List.map_mergeSort (f := of) fun _ _ _ _ => rfl).symm

/-- An archive gives its well-formed entries, taken apart. -/
theorem read_eq (x : Archive) (limit : Nat) :
    read x limit = (x.entries limit).map (List.map of) := by
  rw [read, Archive.entries, Listing.entries, ofMembers_eq]
  cases Member.entries limit x.listing.files with
  | error f => rfl
  | ok es =>
    cases hfault : x.listing.fault with
    | some f => rfl
    | none => exact congrArg Except.ok (sort_map es)

/-- What is made of a path, of options or of an archive is well formed. -/
theorem Made.exists_of (h : Made e) : ∃ t : Entry, e = of t := by
  cases h with
  | @script path source e h =>
    rw [script?_eq] at h
    obtain ⟨t, -, rfl⟩ := Option.map_eq_some_iff.mp h
    exact ⟨t, rfl⟩
  | options members => exact ⟨.options members, rfl⟩
  | @read x limit es e h he =>
    rw [read_eq] at h
    cases hes : x.entries limit with
    | error f =>
      rw [hes] at h
      cases h
    | ok ts =>
      rw [hes] at h
      cases h
      obtain ⟨t, -, rfl⟩ := List.mem_map.mp he
      exact ⟨t, rfl⟩

/-- A well-formed entry has as many names as its kind asks for. -/
theorem length_names_of (t : Entry) : (of t).names.length = (of t).kind.arity :=
  Address.length_names t.address

/-- A well-formed entry carries options when it has the kind of options, and a source otherwise. -/
theorem payload_of_iff (t : Entry) :
    (∃ members, (of t).payload = .options members) ↔ (of t).kind = .packOptions := by
  -- the kinds of scripts are told from that of options by `isScript`
  cases t with
  | options members => exact iff_of_true ⟨members, rfl⟩ rfl
  | script place source =>
    refine iff_of_false (fun ⟨_, h⟩ => by cases h) fun h => ?_
    have hscript := isScript_kind place
    rw [show (Address.script place).kind = .packOptions from h] at hscript
    cases hscript

end Parts

/-- What keeps an entry in parts from being taken. -/
inductive Halt where
  /-- A name is looked up that is not there. -/
  | outOfRange
  /-- A script has the kind of options. -/
  | unreachable
  /-- The script has run, but the parent of its node is gone. -/
  | dropped
  /-- The entry does not fit, or its script fails. -/
  | refused (fault : LoadFault)

namespace Parts

/-- The name of a number. -/
def name (e : Parts) (i : Nat) : Except Halt String :=
  match e.names[i]? with
  | some n => .ok n
  | none => .error .outOfRange

/-- A check that the entry may fail. -/
def check {α : Type} (e : Parts) : Except StructuralFault α → Except Halt α
  | .ok x => .ok x
  | .error f => .error (.refused (.structural e.path f))

end Parts

namespace Assembler

/-! ### Taking an entry in parts -/

/-- How the script of an entry is to be run, and where its node goes. -/
structure Plan where
  level : String
  parents : List (String × Nat)
  /-- Puts the node into the tree, given its scope and its view. -/
  store : Scope.Table → Nat → Except Halt Assembler

/-- Looks for what was there before the script has run. -/
def again {α : Type} : Option α → Except Halt α
  | some x => .ok x
  | none => .error .dropped

/-- The tree, if there is one. -/
def tree? (a : Assembler) : Option PackNode :=
  match a.state with
  | .loading root => some root
  | _ => none

/-- The plan for an action. -/
def planAction (a : Assembler) (e : Parts) (author : Author) : Except Halt Plan := do
  let p ← e.name 0
  let s ← e.name 1
  let n ← e.name 2
  let root ← e.check a.root?
  let phase ← e.check (phaseOf root p)
  let stage ← e.check (stageOf phase p s)
  if stage.actions.contains n then e.check (.error (.duplicateAction p s n))
  else
    .ok
      { level := "action"
        parents := [("pack", root.view), ("phase", phase.view), ("stage", stage.view)]
        store := fun scope _ => do
          let root ← again a.tree?
          let phase ← again (root.phases.find? p)
          let stage ← again (phase.stages.find? s)
          let stage := { stage with
            actions := stage.actions.insert n { author := author, scope := scope } }
          let phase := { phase with stages := phase.stages.insert s stage }
          .ok { a with state := .loading { root with phases := root.phases.insert p phase } } }

/-- The plan for a script. Its kind decides which of its names are looked up. -/
def plan (a : Assembler) (e : Parts) : Except Halt Plan :=
  match e.kind with
  | .packOptions => .error .unreachable
  | .packData =>
    match a.state with
    | .loading _ => e.check (.error .duplicatePack)
    | _ =>
      .ok
        { level := "pack"
          parents := []
          store := fun scope view =>
            .ok { a with state := .loading { scope := scope, view := view, phases := default } } }
  | .phaseData => do
    let p ← e.name 0
    let root ← e.check a.root?
    if root.phases.contains p then e.check (.error (.duplicatePhase p))
    else
      .ok
        { level := "phase"
          parents := [("pack", root.view)]
          store := fun scope view => do
            let root ← again a.tree?
            .ok { a with state := .loading { root with
              phases := root.phases.insert p
                { scope := scope, view := view, stages := default } } } }
  | .stageData => do
    let p ← e.name 0
    let s ← e.name 1
    let root ← e.check a.root?
    let phase ← e.check (phaseOf root p)
    if phase.stages.contains s then e.check (.error (.duplicateStage p s))
    else
      .ok
        { level := "stage"
          parents := [("pack", root.view), ("phase", phase.view)]
          store := fun scope view => do
            let root ← again a.tree?
            let phase ← again (root.phases.find? p)
            let phase := { phase with
              stages := phase.stages.insert s
                { scope := scope, view := view, actions := default } }
            .ok { a with state := .loading { root with phases := root.phases.insert p phase } } }
  | .npcAction => a.planAction e .npc
  | .playerAction => a.planAction e .player

/-- Runs a script under a path, at a level: the scope that it leaves, and the view of it. -/
def runAt (a : Assembler) (host : Host) (budget : Option Nat) (level : String)
    (parents : List (String × Nat)) (path : String) (source : ByteArray) :
    Host × Except ScriptFault (Scope.Table × Nat) :=
  match host.newTable with
  | (host, .error f) => (host, .error f)
  | (host, .ok fresh) =>
    match host.newSandbox (a.bindings parents level fresh) with
    | (host, .error f) => (host, .error f)
    | (host, .ok sandbox) =>
      match host.execute sandbox source path budget with
      | (host, .error f) => (host, .error f)
      | (host, .ok _) =>
        match host.takeScope sandbox level path with
        | .error f => (host, .error f)
        | .ok scope =>
          match host.freeze scope [.table sandbox.env] with
          | (host, .error f) => (host, .error f)
          | (host, .ok view) => (host.hold (.table view), .ok (scope, view))

/-- Takes an entry in parts: the assembler after it, and what has kept the entry out. -/
def acceptParts (a : Assembler) (host : Host) (budget : Option Nat) (e : Parts) :
    Host × Assembler × Except Halt Unit :=
  match e.payload with
  | .options members =>
    match a.state with
    | .awaitingOptions =>
      let a := { a with options := some members }
      let a := { a with state := .awaitingPack }
      (host, a, .ok ())
    | .awaitingPack => (host, a, e.check (.error .duplicateOptions))
    | .loading _ => (host, a, e.check (.error .optionsAfterPack))
  | .script source =>
    match a.plan e with
    | .error halt => (host, a, .error halt)
    | .ok plan =>
      match a.runAt host budget plan.level plan.parents e.path source with
      | (host, .error f) => (host, a, .error (.refused (.script e.path f)))
      | (host, .ok (scope, view)) =>
        match plan.store scope view with
        | .error halt => (host, a, .error halt)
        | .ok a => (host, a, .ok ())

variable {a : Assembler} {e : Parts} {place : Place}

/-! ### What can go wrong -/

theorem tree?_eq_some_iff {root : PackNode} : a.tree? = some root ↔ a.root? = .ok root := by
  unfold tree? root?
  cases a.state <;> simp

/-- The entry does not fit, or there is a plan, which puts the node into a tree. -/
def Settles (a : Assembler) (e : Parts) (r : Except Halt Plan) : Prop :=
  (∃ f, r = .error (.refused (.structural e.path f))) ∨
    ∃ plan, r = .ok plan ∧
      ∀ scope view, ∃ root, plan.store scope view = .ok { a with state := .loading root }

theorem Settles.refuse (a : Assembler) (e : Parts) (f : StructuralFault) :
    a.Settles e (e.check (.error f)) :=
  .inl ⟨f, rfl⟩

theorem Settles.check_bind {α : Type} {r : Except StructuralFault α}
    {next : α → Except Halt Plan} (hnext : ∀ x, r = .ok x → a.Settles e (next x)) :
    a.Settles e (e.check r >>= next) := by
  cases r with
  | error f => exact .inl ⟨f, rfl⟩
  | ok x => exact hnext x rfl

theorem name_bind {β : Type} {i : Nat} {n : String} (h : e.names[i]? = some n)
    (next : String → Except Halt β) : (e.name i >>= next) = next n := by
  rw [Parts.name, h]
  rfl

theorem again_bind {α β : Type} {o : Option α} {x : α} (h : o = some x)
    (next : α → Except Halt β) : (again o >>= next) = next x := by
  rw [h]
  rfl

theorem settles_planAction (h : 3 ≤ e.names.length) (author : Author) :
    a.Settles e (a.planAction e author) := by
  rw [planAction, name_bind (List.getElem?_eq_getElem (by omega)),
    name_bind (List.getElem?_eq_getElem (by omega)),
    name_bind (List.getElem?_eq_getElem (by omega))]
  refine .check_bind fun root hroot => .check_bind fun phase hphase =>
    .check_bind fun stage hstage => ?_
  split
  · exact .refuse a e _
  · exact .inr ⟨_, rfl, fun scope view => ⟨_,
      (again_bind (tree?_eq_some_iff.mpr hroot) _).trans <|
        (again_bind (phaseOf_eq_ok_iff.mp hphase) _).trans <|
          again_bind (stageOf_eq_ok_iff.mp hstage) _⟩⟩

/-- An entry that is no entry of options, and has enough names, is refused or has a plan. Nothing
has changed by the time its script has run. -/
theorem settles_plan (hkind : e.kind ≠ .packOptions) (hnames : e.kind.arity ≤ e.names.length) :
    a.Settles e (a.plan e) := by
  unfold plan
  cases hk : e.kind with
  | packOptions => exact absurd hk hkind
  | packData =>
    simp only
    split
    · exact .refuse a e _
    · exact .inr ⟨_, rfl, fun scope view => ⟨_, rfl⟩⟩
  | phaseData =>
    rw [hk] at hnames
    have hlength : 1 ≤ e.names.length := hnames
    simp only [name_bind (List.getElem?_eq_getElem hlength)]
    refine .check_bind fun root hroot => ?_
    split
    · exact .refuse a e _
    · exact .inr ⟨_, rfl, fun scope view => ⟨_, again_bind (tree?_eq_some_iff.mpr hroot) _⟩⟩
  | stageData =>
    rw [hk] at hnames
    have hlength : 2 ≤ e.names.length := hnames
    simp only [name_bind (List.getElem?_eq_getElem (Nat.lt_of_succ_lt hlength)),
      name_bind (List.getElem?_eq_getElem hlength)]
    refine .check_bind fun root hroot => .check_bind fun phase hphase => ?_
    split
    · exact .refuse a e _
    · exact .inr ⟨_, rfl, fun scope view => ⟨_,
        (again_bind (tree?_eq_some_iff.mpr hroot) _).trans <|
          again_bind (phaseOf_eq_ok_iff.mp hphase) _⟩⟩
  | npcAction =>
    rw [hk] at hnames
    exact settles_planAction hnames .npc
  | playerAction =>
    rw [hk] at hnames
    exact settles_planAction hnames .player

theorem name_bind_of_le {β : Type} {i : Nat} (h : e.names.length ≤ i)
    (next : String → Except Halt β) : (e.name i >>= next) = .error .outOfRange := by
  rw [Parts.name, List.getElem?_eq_none h]
  rfl

theorem planAction_of_length_lt (h : e.names.length < 3) (author : Author) :
    a.planAction e author = .error .outOfRange := by
  unfold planAction
  by_cases h0 : e.names.length ≤ 0
  · rw [name_bind_of_le h0]
  by_cases h1 : e.names.length ≤ 1
  · rw [name_bind (List.getElem?_eq_getElem (by omega)), name_bind_of_le h1]
  · rw [name_bind (List.getElem?_eq_getElem (by omega)),
      name_bind (List.getElem?_eq_getElem (by omega)), name_bind_of_le (by omega)]

theorem plan_of_length_lt (h : e.names.length < e.kind.arity) :
    a.plan e = .error .outOfRange := by
  unfold plan
  cases hk : e.kind with
  | packOptions | packData =>
    rw [hk] at h
    exact absurd h (Nat.not_lt_zero _)
  | phaseData =>
    rw [hk] at h
    exact name_bind_of_le (Nat.le_of_lt_succ h) _
  | stageData =>
    rw [hk] at h
    have hlength : e.names.length < 2 := h
    simp only
    by_cases h0 : e.names.length ≤ 0
    · rw [name_bind_of_le h0]
    · rw [name_bind (List.getElem?_eq_getElem (by omega)), name_bind_of_le (by omega)]
  | npcAction =>
    rw [hk] at h
    exact planAction_of_length_lt h .npc
  | playerAction =>
    rw [hk] at h
    exact planAction_of_length_lt h .player

theorem plan_of_packOptions (h : e.kind = .packOptions) : a.plan e = .error .unreachable := by
  rw [plan, h]

/-- A name is looked up in vain when there are fewer than the kind asks for. -/
theorem plan_eq_outOfRange_iff :
    a.plan e = .error .outOfRange ↔ e.names.length < e.kind.arity := by
  refine ⟨fun h => Nat.lt_of_not_le fun hnames => ?_, plan_of_length_lt⟩
  by_cases hkind : e.kind = .packOptions
  · rw [plan_of_packOptions hkind] at h
    cases h
  · rcases settles_plan (a := a) hkind hnames with ⟨f, hf⟩ | ⟨plan, hplan, -⟩ <;> simp_all

/-- A script must not have the kind of options. -/
theorem plan_eq_unreachable_iff : a.plan e = .error .unreachable ↔ e.kind = .packOptions := by
  refine ⟨fun h => ?_, plan_of_packOptions⟩
  by_contra hkind
  by_cases hnames : e.kind.arity ≤ e.names.length
  · rcases settles_plan (a := a) hkind hnames with ⟨f, hf⟩ | ⟨plan, hplan, -⟩ <;> simp_all
  · rw [plan_of_length_lt (Nat.lt_of_not_le hnames)] at h
    cases h

/-! ### Well-formed entries -/

/-- The plan that a site stands for. -/
def Site.plan (room : Site) (a : Assembler) (level : String) : Plan :=
  { level := level
    parents := room.parents
    store := fun scope view => .ok { a with state := .loading (room.insert scope view) } }

/-- The plan for an entry that has a site. -/
def planAt (a : Assembler) (e : Parts) (level : String) (r : Except StructuralFault Site) :
    Except Halt Plan :=
  (e.check r).map (·.plan a level)

theorem check_bind_eq {α : Type} {r : Except StructuralFault α} {f : α → Except Halt Plan}
    {g : α → Except StructuralFault Site} {level : String}
    (h : ∀ x, r = .ok x → f x = a.planAt e level (g x)) :
    (e.check r >>= f) = a.planAt e level (r >>= g) := by
  cases r with
  | error fault => rfl
  | ok x => exact h x rfl

theorem ok_eq_planAt {level : String} {parents : List (String × Nat)}
    {store : Scope.Table → Nat → Except Halt Assembler} {insert : Scope.Table → Nat → PackNode}
    (h : ∀ scope view, store scope view = .ok { a with state := .loading (insert scope view) }) :
    .ok { level := level, parents := parents, store := store } =
      a.planAt e level (.ok { parents := parents, insert := insert }) := by
  obtain rfl := funext fun scope => funext fun view => h scope view
  rfl

theorem planAction_of (a : Assembler) (who : Author) {p s n : String}
    (hnames : e.names = [p, s, n]) :
    a.planAction e who = a.planAt e "action" (a.site (.action who p s n)) := by
  have hp : e.names[0]? = some p := by rw [hnames]; rfl
  have hs : e.names[1]? = some s := by rw [hnames]; rfl
  have hn : e.names[2]? = some n := by rw [hnames]; rfl
  rw [planAction, name_bind hp, name_bind hs, name_bind hn]
  refine check_bind_eq fun root hroot => check_bind_eq fun phase hphase =>
    check_bind_eq fun stage hstage => ?_
  split
  · rfl
  · have hfound : root.phases.find? p = some phase := phaseOf_eq_ok_iff.mp hphase
    refine ok_eq_planAt fun scope view => ?_
    rw [again_bind (tree?_eq_some_iff.mpr hroot), again_bind hfound,
      again_bind (stageOf_eq_ok_iff.mp hstage)]

/-- The plan for a well-formed script is its site. -/
theorem plan_of (a : Assembler) (place : Place) (source : ByteArray) :
    a.plan (.of (.script place source)) =
      a.planAt (.of (.script place source)) place.level (a.site place) := by
  cases place with
  | pack =>
    show (match a.state with | .loading _ => _ | _ => _) = _
    unfold site
    cases a.state <;> rfl
  | phase p =>
    refine check_bind_eq fun root hroot => ?_
    split
    · rfl
    · refine ok_eq_planAt fun scope view => ?_
      rw [again_bind (tree?_eq_some_iff.mpr hroot)]
      rfl
  | stage p s =>
    refine check_bind_eq fun root hroot => check_bind_eq fun phase hphase => ?_
    split
    · rfl
    · -- the parent that was found before the script is found again after it
      have hfound : root.phases.find? p = some phase := phaseOf_eq_ok_iff.mp hphase
      refine ok_eq_planAt fun scope view => ?_
      rw [again_bind (tree?_eq_some_iff.mpr hroot), again_bind hfound]
      rfl
  | action who p s n => cases who <;> exact planAction_of a _ rfl

theorem runAt_eq (a : Assembler) (host : Host) (budget : Option Nat) (parents : List (String × Nat))
    (place : Place) (source : ByteArray) :
    a.runAt host budget place.level parents (Address.script place).path source =
      a.runScript host budget parents place source :=
  rfl

section Script

variable {host host' : Host} {budget : Option Nat} {source : ByteArray} {plan : Plan}

theorem acceptParts_of_halt {halt : Halt} (hpayload : e.payload = .script source)
    (hplan : a.plan e = .error halt) : a.acceptParts host budget e = (host, a, .error halt) := by
  simp only [acceptParts, hpayload, hplan]

theorem acceptParts_of_fault {f : ScriptFault} (hpayload : e.payload = .script source)
    (hplan : a.plan e = .ok plan)
    (hrun : a.runAt host budget plan.level plan.parents e.path source = (host', .error f)) :
    a.acceptParts host budget e = (host', a, .error (.refused (.script e.path f))) := by
  simp only [acceptParts, hpayload, hplan, hrun]

theorem acceptParts_of_run {scope : Scope.Table} {view : Nat}
    (hpayload : e.payload = .script source)
    (hplan : a.plan e = .ok plan)
    (hrun : a.runAt host budget plan.level plan.parents e.path source =
      (host', .ok (scope, view))) {a' : Assembler} (hstore : plan.store scope view = .ok a') :
    a.acceptParts host budget e = (host', a', .ok ()) := by
  simp only [acceptParts, hpayload, hplan, hrun, hstore]

end Script

/-- The plan for a well-formed script comes from a site, which adds one node. -/
theorem exists_site_of_plan {source : ByteArray} {plan : Plan}
    (h : a.plan (.of (.script place source)) = .ok plan) :
    ∃ room, a.site place = .ok room ∧ plan = room.plan a place.level := by
  rw [plan_of] at h
  cases hroom : a.site place with
  | error f =>
    rw [hroom] at h
    cases h
  | ok room =>
    rw [hroom] at h
    cases h
    exact ⟨room, rfl, rfl⟩

/-- A well-formed entry is taken in parts as it is taken as a whole. -/
theorem acceptParts_of (a : Assembler) (host : Host) (budget : Option Nat) (t : Entry) :
    a.acceptParts host budget (.of t) = ((a.accept host budget t).1, (a.accept host budget t).2.1,
      (a.accept host budget t).2.2.mapError .refused) := by
  cases t with
  | options members =>
    simp only [acceptParts, accept, Parts.of, Parts.payloadOf, Parts.check]
    cases a.state <;> rfl
  | script place source =>
    have hplan := plan_of a place source
    cases hroom : a.site place with
    | error f =>
      rw [hroom] at hplan
      rw [acceptParts_of_halt rfl hplan, accept, hroom]
      rfl
    | ok room =>
      rw [hroom] at hplan
      -- the two differ in nothing but what the script is run with
      have hrun := runAt_eq a host budget room.parents place source
      rcases hresult : a.runScript host budget room.parents place source with
        ⟨host', f | ⟨scope, view⟩⟩
      · rw [acceptParts_of_fault rfl hplan (hrun.trans hresult), accept, hroom]
        simp only [hresult]
        rfl
      · rw [acceptParts_of_run rfl hplan (hrun.trans hresult) rfl, accept, hroom]
        simp only [hresult]
        rfl

/-- Nothing goes wrong with what is made of a path, of options or of an archive, in whatever state
the assembler is.  Such an entry has the names that its kind asks for, and carries options exactly
when it has their kind.  So no name is looked up in vain, no script is mistaken for options, and no
node gets lost: the entry is taken or refused as the well-formed one that it is.  When its script
has run, the tree has one more node, which is found under the names of the entry. -/
theorem acceptParts_sound (a : Assembler) (host : Host) (budget : Option Nat) (e : Parts)
    (he : e.Made) :
    e.names.length = e.kind.arity ∧
    ((∃ members, e.payload = .options members) ↔ e.kind = .packOptions) ∧
    (∀ halt, (a.acceptParts host budget e).2.2 = .error halt → ∃ f, halt = .refused f) ∧
    (∃ t : Entry, e = .of t ∧ a.acceptParts host budget e =
      ((a.accept host budget t).1, (a.accept host budget t).2.1,
        (a.accept host budget t).2.2.mapError .refused)) ∧
    ∀ source plan host' scope view, e.payload = .script source → a.plan e = .ok plan →
      a.runAt host budget plan.level plan.parents e.path source = (host', .ok (scope, view)) →
      ∃ a' place, a.acceptParts host budget e = (host', a', .ok ()) ∧
        (Address.script place).kind = e.kind ∧ (Address.script place).names = e.names ∧
        a'.scopeAt? place = some scope ∧ a'.nodes.Perm ((place, scope) :: a.nodes) := by
  obtain ⟨t, rfl⟩ := he.exists_of
  have haccept := acceptParts_of a host budget t
  refine ⟨Parts.length_names_of t, Parts.payload_of_iff t, fun halt hhalt => ?_, ⟨t, rfl, haccept⟩,
    fun source plan host' scope view hsource hplan hrun => ?_⟩
  · rw [haccept] at hhalt
    cases hresult : (a.accept host budget t).2.2 with
    | error f =>
      rw [hresult] at hhalt
      exact ⟨f, (Except.error.inj hhalt).symm⟩
    | ok a' =>
      rw [hresult] at hhalt
      cases hhalt
  · cases t with
    | options members => cases hsource
    | script place source' =>
      cases hsource
      obtain ⟨room, hroom, rfl⟩ := exists_site_of_plan hplan
      have htaken := acceptParts_of_run rfl hplan hrun rfl
      exact ⟨_, place, htaken, rfl, rfl, scopeAt?_insert hroom scope view,
        nodes_insert hroom scope view⟩

/-- The script of a phase is looked up by its one name, and comes under it. -/
theorem acceptParts_intro :
    Parts.Made (.of (.script (.phase "intro") "x = 1".toUTF8)) ∧
    ∀ (a : Assembler) (host : Host) (budget : Option Nat) (halt : Halt),
      (a.acceptParts host budget (.of (.script (.phase "intro") "x = 1".toUTF8))).2.2 =
        .error halt → ∃ f, halt = .refused f := by
  have hmade : Parts.Made (.of (.script (.phase "intro") "x = 1".toUTF8)) := by
    have hscript : Parts.script? "phases/intro.lua" "x = 1".toUTF8 =
        some (.of (.script (.phase "intro") "x = 1".toUTF8)) := by
      rw [Parts.script?_eq]
      rfl
    exact .script hscript
  exact ⟨hmade, fun a host budget => (acceptParts_sound a host budget _ hmade).2.2.1⟩

end Assembler

end StoryPack
