/-
What scripts never get hold of.

Sandboxes leave out the functions that load code, print, collect garbage or write
past metatables, the library that looks behind functions, the table of the global
variables of the interpreter, and the protected calls that an overrun budget does
not pass through.  A script could still come by one of them: in what a function
returns, in a metatable, in an error, among the arguments of a callback.  But all
that a script has at hand is at some time held by the function at work, and that
holds only what scripts may hold.

* `Stripped` — what sandboxes are stripped of;
* `Session.Runs` — the states that the machine is in while scripts run;
* `Session.Runs.not_stripped` — no function at work holds what is stripped, or
  can read it from what it holds.
-/
import StoryPack.Proofs.Confinement.Opening

namespace StoryPack

open Script

variable {W : Ward} {n : Nat}

/-! ### What is stripped -/

/-- The names that no sandbox resolves. -/
def strippedGlobals : List String :=
  ["collectgarbage", "dofile", "loadfile", "load", "loadstring", "print", "require", "package",
   "io", "os", "debug", "coroutine", "utf8", "rawset", "warn"]

/-- What sandboxes are stripped of: the table of the global variables of the interpreter, what an
interpreter with all libraries has under a stripped name or in a table of that name, and its own
protected calls. -/
inductive Stripped (limit : Option Nat) : Value → Prop
  | globals : Stripped limit (.table Heap.globals)
  | global {name : String} (hname : name ∈ strippedGlobals ∨ name = "pcall" ∨ name = "xpcall")
      {v : Value} (hv : (Interpreter.new limit).global name = v) (hsome : v.isNil = false) :
    Stripped limit v
  | member {name : String} (hname : name ∈ strippedGlobals) {r : Nat}
      (hr : (Interpreter.new limit).global name = .table r) {k : Key} {v : Value}
      (hv : (Interpreter.new limit).heap.getKey r k = v) (hsome : v.isNil = false) :
    Stripped limit v

namespace Interpreter

theorem global_new (limit : Option Nat) (name : String) :
    (new limit).global name = (Table.named allEntries).get (.str name.toUTF8) := by
  unfold global Heap.getName Heap.globals
  rw [Heap.getKey_eq, Heap.table, tables_new]
  rfl

/-- Of the stripped names one is that of a library, and others are those of functions. -/
theorem global_stripped {limit : Option Nat} {name : String}
    (hname : name ∈ strippedGlobals ∨ name = "pcall" ∨ name = "xpcall") :
    (new limit).global name = .nil ∨ (new limit).global name = .table 4 ∨
      ∃ f, (new limit).global name = .builtin (.base f) ∧ (Builtin.base f).isOpen = false := by
  rw [global_new, Table.get_named]
  simp only [strippedGlobals, List.mem_cons, List.not_mem_nil, or_false] at hname
  rcases hname with hname | rfl | rfl
  · rcases hname with rfl | rfl | rfl | rfl | rfl | rfl | rfl | rfl | rfl | rfl | rfl | rfl | rfl |
      rfl | rfl
    all_goals simp [allEntries, Library.baseNames, Builtin.isOpen, Value.builtin]
  all_goals simp [allEntries, Library.baseNames, Builtin.isOpen, Value.builtin]

end Interpreter

namespace Script

/-- Scripts may hold nothing that is stripped. -/
theorem Ward.Sound.not_ok_table (hW : W.Sound) {r : Nat} {t : Table} (ht : W.tables r = some t)
    (hmeta : t.metatable = none) : ¬(Value.table r).Ok W n := by
  rintro ⟨-, hnone | hview⟩
  · rw [ht] at hnone
    cases hnone
  · obtain ⟨⟨m, b⟩, hview⟩ := Option.isSome_iff_exists.mp hview
    rw [(hW.view hview).1] at ht
    cases ht
    cases hmeta

end Script

theorem Stripped.not_ok {limit : Option Nat} {host : Host} (hhost : host.Fresh limit)
    (hle : W.Contains (Guard.ward host.heap)) (hW : W.Sound) {v : Value}
    (hv : Stripped limit v) : ¬v.Ok W n := by
  -- the first tables of the interpreter have no metatables, so they are no views
  have htable {r : Nat} (hr : r < 6) : ¬(Value.table r).Ok W n := by
    refine hW.not_ok_table (t := Interpreter.firstTables.getD r {}) (hle.tables ?_)
      (Interpreter.metatable_firstTables r)
    have hlt : r < host.heap.tables.size := Nat.lt_of_lt_of_le hr hhost.size
    exact (Heap.getElem?_tables host.heap hlt).trans (congrArg some (hhost.first r hr))
  have hclosed {f : BaseFunction} (hf : (Builtin.base f).isOpen = false) :
      ¬(Value.builtin (.base f)).Ok W n := by
    intro hok
    rw [Value.builtin, Value.ok_builtin, hf] at hok
    cases hok
  cases hv with
  | globals => exact htable (by decide)
  | global hname hv hsome =>
    obtain hnil | hlibrary | ⟨f, hf, hopen⟩ := @Interpreter.global_stripped limit _ hname
    · rw [← hv, hnil] at hsome
      cases hsome
    · rw [← hv, hlibrary]
      exact htable (by decide)
    · rw [← hv, hf]
      exact hclosed hopen
  | member hname hr hv hsome =>
    obtain hnil | hlibrary | ⟨f, hf, hopen⟩ :=
      @Interpreter.global_stripped limit _ (.inl hname)
    · rw [hnil] at hr
      cases hr
    · -- the debug library holds nothing but its functions
      cases hlibrary.symm.trans hr
      have htable :
          (Interpreter.new limit).heap.table 4 = Table.named Interpreter.debugEntries := by
        rw [Heap.table, Interpreter.tables_new]
        rfl
      rw [Heap.getKey_eq, htable] at hv
      obtain hnil | ⟨e, he, -, hget⟩ := Table.get_named_cases Interpreter.debugEntries _
      · rw [← hv, hnil] at hsome
        cases hsome
      · obtain ⟨f, -, rfl⟩ := List.mem_map.mp he
        rw [← hv, hget]
        intro hok
        cases hok
    · rw [hf] at hr
      cases hr

namespace Script

/-! ### Readings -/

namespace Heap.Kept

variable {h : Heap}

theorem indexFrom_values_ok (hk : h.Kept W) (fuel : Nat) (which : Option Nat) {v : Value}
    (hv : v.Readable W h.tables.size) (k : Value) {w : Value}
    (hw : (Operation.indexFrom fuel which v k h).values? = some w) : w.Ok W h.tables.size := by
  induction fuel generalizing which v with
  | zero => cases hw
  | succ fuel ih =>
    have hnext {v : Value} (hv : v.Ok W h.tables.size) :
        (h.metafield v Event.index).Readable W h.tables.size := by
      obtain hok | ⟨r, m, b, -, hview, ⟨-, he⟩ | ⟨he, -⟩⟩ := hk.metafield_cases hv Event.index
      · exact .inl hok
      · exact .inr ⟨r, m, b, he, hview⟩
      · exact absurd he (by decide)
    unfold Operation.indexFrom at hw
    split at hw
    · rename_i r
      dsimp only at hw
      have hholds := hk.holds_of_readable hv
      split at hw
      · cases hw
        exact hholds.getValue (admits_ok W _) k
      · split at hw
        · cases hw
          trivial
        · rename_i m hm
          split at hw
          · cases hw
            trivial
          · cases hw
          · obtain hok | ⟨r', m', b, hb, hview⟩ := hv
            · refine ih none ?_ hw
              rw [← h.metafield_table hm]
              exact hnext hok
            · -- a backing table has no metatable
              cases hb
              obtain ⟨-, -, t, ht, hnone, -⟩ := hk.table_view hview
              rw [ht, hnone] at hm
              cases hm
    · rename_i hne
      split at hw
      · unfold Operation.wrongType at hw
        split at hw <;> cases hw
      · cases hw
      · refine ih none (hnext ?_) hw
        obtain hok | ⟨r, m, b, rfl, -⟩ := hv
        · exact hok
        · exact absurd rfl (hne b)

/-- What scripts read from what they hold is what they may hold. -/
theorem run_reading_ok (hk : h.Kept W) (r : Reading) {v : Value} (hv : v.Ok W h.tables.size)
    {vs : List Value} (hvs : (r.run v h).values? = some vs) : Oks W h.tables.size vs := by
  cases r with
  | index k =>
    rw [Reading.run_index] at hvs
    obtain ⟨w, hw, rfl⟩ := Option.map_eq_some_iff.mp hvs
    simpa using hk.indexFrom_values_ok _ _ (.inl hv) k hw
  | metatable =>
    simp only [Reading.run, Library.getmetatable, Action.read] at hvs
    cases hm : h.metatable? v with
    | none =>
      rw [hm] at hvs
      cases v <;> cases hvs <;> simp
    | some m =>
      have hshown := hk.shown_ok hv hm
      simp only [hm] at hvs
      split at hvs
      · rename_i hnil
        cases hvs
        simpa using hshown.2 hnil
      · cases hvs
        simpa using hshown.1
  | rawget k | next k | rawlen | length =>
    cases v with
    | table c =>
      rw [Reading.run_table _ (fun _ h => by cases h) (fun h => by cases h)] at hvs
      have hholds := hk.holds_of_readable (hk.readThrough_readable hv)
      exact hholds.answer (admits_ok W _) trivial hvs
    | str s => cases hvs <;> simp
    | _ => cases hvs

theorem chain_ok (hk : h.Kept W) (rs : List (Reading × Nat)) {v w : Value}
    (hv : v.Ok W h.tables.size) (hw : h.chain rs v = some w) : w.Ok W h.tables.size := by
  induction rs generalizing v with
  | nil =>
    cases hw
    exact hv
  | cons p rest ih =>
    obtain ⟨r, i⟩ := p
    obtain ⟨vs, hvs, hw⟩ := Option.bind_eq_some_iff.mp hw
    exact ih ((hk.run_reading_ok r hv hvs).getD i) hw

end Heap.Kept

/-! ### What a call holds -/

theorem mem_foldl_cons {α : Type} (g : α → Value) (l : List α) (found : List Value) (v : Value) :
    v ∈ l.foldl (fun found a => g a :: found) found ↔ v ∈ found ∨ ∃ a ∈ l, v = g a := by
  induction l generalizing found with
  | nil => simp
  | cons a l ih =>
    rw [List.foldl_cons, ih]
    simp only [List.mem_cons, exists_eq_or_imp, or_assoc, or_left_comm]

/-- What a call holds: its registers, the variables that it shares with other calls, and the values
that are kept for it. -/
theorem Frame.mem_roots_iff (f : Frame) (h : Heap) (v : Value) :
    v ∈ f.roots h [] ↔ v ∈ f.registers ∨ (∃ c ∈ f.boxes, v = h.cell c) ∨
      (∃ c ∈ f.upvalues, v = h.cell c) ∨ v ∈ f.varargs ∨ v ∈ f.hand ∨ ∃ c ∈ f.closing, v = c.2 := by
  simp only [Frame.roots, ← Array.foldl_toList]
  rw [mem_foldl_cons (fun c : Nat × Value => c.2), mem_foldl_cons (fun v => v),
    mem_foldl_cons (fun v => v), mem_foldl_cons h.cell, mem_foldl_cons h.cell,
    mem_foldl_cons (fun v => v)]
  simp only [List.not_mem_nil, false_or, Array.mem_toList_iff, exists_eq_right', or_assoc]

/-- A call of a function of a script holds only what scripts may hold. -/
theorem Frame.Free.roots {h : Heap} {f : Frame} (hf : f.Free W h.tables.size) (hk : h.Kept W)
    {v : Value} (hv : v ∈ f.roots h []) : v.Ok W h.tables.size := by
  obtain hv | ⟨c, hc, rfl⟩ | ⟨c, hc, rfl⟩ | hv | hv | ⟨c, hc, rfl⟩ := (f.mem_roots_iff h v).mp hv
  · exact hf.registers v hv
  · exact hk.cell_ok (hf.boxes c hc)
  · exact hk.cell_ok (hf.upvalues c hc)
  · exact hf.varargs v hv
  · exact hf.hand v hv
  · exact hf.closing c hc

/-- The call of a function that a host has from the start: of a protected call, or of the function
that has made them. -/
def Frame.Belongs (host : Host) (f : Frame) : Prop := ⟨f.proto, f.upvalues⟩ ∈ host.heap.closures

theorem Frame.Kept.free {host : Host} (hle : W.Contains (Guard.ward host.heap)) {f : Frame}
    (hf : f.Kept W n) (hscript : ¬f.Belongs host) : f.Free W n := by
  obtain hf | hf := hf
  · exact hf
  · obtain ⟨r, raw, hr⟩ := hf.made
    rw [hle.wrappers] at hr
    have hr : (if r = 0 then none else (host.heap.closures[r]?).map fun c =>
        (c, Guard.rawOf host.heap c)) = some (⟨f.proto, f.upvalues⟩, raw) := hr
    split at hr
    · cases hr
    · obtain ⟨c, hc, heq⟩ := Option.map_eq_some_iff.mp hr
      cases heq
      exact absurd (Array.mem_of_getElem? hc) hscript

end Script

/-! ### The states of a session -/

namespace Session

variable {s : Session} {t : State}

/-- The states that the machine is in while a session runs a script, while its owner calls a
function, and while it is found out what an uncaught error says. -/
inductive Runs (s : Session) : State → Prop
  | execute {sandbox : Sandbox} (hsandbox : sandbox ∈ s.sandboxes) {source : ByteArray}
      {label : String} {host : Host} {f : Value}
      (hf : s.host.compile sandbox source label = .ok (host, f)) (budget : Option Nat) :
    Runs s (State.start { host.heap with tripped := false } false budget
      (.table sandbox.env :: host.interpreter.held) f [])
  | call {f : Value} (hf : s.Known f) {args : List Value} (hargs : ∀ v ∈ args, s.Known v) :
    Runs s (State.start s.host.heap true none s.host.interpreter.held f args)
  | shown {t : State} (ht : Runs s t) {v : Value} (hv : t.mode = .ended (.failed (.thrown v)))
      (held : List Value) :
    Runs s (State.start t.heap true none held (.builtin (.base .tostring)) [v])
  | step {t : State} (ht : Runs s t) : Runs s t.tidy.step

theorem Runs.run (ht : s.Runs t) (patience : Nat) : s.Runs (t.run patience) := by
  induction patience generalizing t with
  | zero => exact ht
  | succ patience ih =>
    unfold State.run
    split
    · exact ht
    · exact ih ht.step

/-- What is found out about an uncaught error leaves the heap of such a state. -/
theorem Runs.faultOf (ht : s.Runs t) {e : Failure} (he : t.mode = .ended (.failed e))
    {interpreter : Interpreter} (hheap : interpreter.heap = t.heap) :
    ∃ t', s.Runs t' ∧ (interpreter.faultOf e).1.heap = t'.heap := by
  unfold Interpreter.faultOf
  split
  · exact ⟨t, ht, hheap⟩
  · exact ⟨t, ht, hheap⟩
  · exact ⟨t, ht, hheap⟩
  · rename_i v _ _
    have hrun := (ht.shown he interpreter.held).run Script.patience
    refine ⟨_, hrun, ?_⟩
    have hcall : (interpreter.call (.builtin (.base .tostring)) [v]).1.heap =
        ((State.start t.heap true none interpreter.held (.builtin (.base .tostring)) [v]).run
          Script.patience).heap := by
      rw [← hheap]
      rfl
    exact hcall

/-- The heap that a script leaves is that of such a state. -/
theorem Runs.executeWithin {sandbox : Sandbox} (hsandbox : sandbox ∈ s.sandboxes)
    {source : ByteArray} {label : String} {host : Host} {f : Value}
    (hf : s.host.compile sandbox source label = .ok (host, f)) (patience : Nat)
    (budget : Option Nat) :
    ∃ t, s.Runs t ∧
      (s.host.executeWithin patience sandbox source label budget).1.heap = t.heap := by
  have hrun := (Runs.execute hsandbox hf budget).run patience
  generalize hstart : State.start { host.heap with tripped := false } false budget
    (.table sandbox.env :: host.interpreter.held) f [] = t₀ at hrun
  have hexecute : ((host.withHeap { host.heap with tripped := false }).interpreter.hold
      (.table sandbox.env)).execute patience budget f =
        ({ host.interpreter with
            heap := (t₀.run patience).heap, held := .table sandbox.env :: host.interpreter.held },
          (t₀.run patience).conclusion) := by
    rw [← hstart]
    rfl
  unfold Host.executeWithin
  rw [hf]
  dsimp only
  rw [hexecute]
  dsimp only
  cases hend : (t₀.run patience).conclusion with
  | unfinished => exact ⟨_, hrun, rfl⟩
  | values vs =>
    dsimp only
    split
    · exact ⟨_, hrun, rfl⟩
    · exact ⟨_, hrun, rfl⟩
  | failed e =>
    dsimp only
    split
    · exact ⟨_, hrun, rfl⟩
    · refine hrun.faultOf ?_ rfl
      unfold State.conclusion at hend
      split at hend
      · cases hend
      · cases hend
        assumption
      · cases hend

theorem Confined.runs (hs : s.Confined W) (ht : s.Runs t) : t.Kept W := by
  induction ht with
  | execute hsandbox hf budget =>
    obtain ⟨hh, -, hsize, hok⟩ := Host.compile_kept hs.host (hs.env_ok hsandbox) hf
    exact ⟨hh.kept.congr rfl rfl rfl rfl, ⟨trivial, trivial⟩, .inl hok.callable, .nil⟩
  | call hf hargs =>
    exact ⟨hs.host.kept, ⟨trivial, trivial⟩, .inl (hs.known hf).callable,
      fun v hv => hs.known (hargs v hv)⟩
  | shown ht hv held ih =>
    have hmode := ih.mode
    rw [hv] at hmode
    have htostring : (Value.builtin (.base .tostring)).Ok W 0 := rfl
    exact ⟨ih.heap, ⟨trivial, trivial⟩, .inl (htostring.mono (Nat.zero_le _)).callable,
      Oks.cons_iff.mpr ⟨hmode, .nil⟩⟩
  | step ht ih => exact (State.step_leads (State.tidy_leads ih).kept).kept

/-- No function of a script that is at work holds what is stripped, or can read it from what it
holds. -/
theorem Runs.not_stripped {limit : Option Nat} {host : Host} (hhost : Host.new limit = .ok host)
    (hs : (start host).Reaches s) (ht : s.Runs t) {f : Frame} (hmode : t.mode = .execute f)
    (hf : ¬f.Belongs host) {v : Value} (hv : v ∈ f.roots t.heap []) (rs : List (Reading × Nat))
    {w : Value} (hw : t.heap.chain rs v = some w) : ¬Stripped limit w := by
  have hfresh := Host.fresh_of_new hhost
  obtain ⟨W, hle, hconfined⟩ := (start_confined hfresh).reaches hs
  have hkept := hconfined.runs ht
  have hframe := hkept.mode
  rw [hmode] at hframe
  have hv := (hframe.free hle hf).roots hkept.heap hv
  intro hstripped
  exact hstripped.not_ok hfresh hle hkept.heap.sound (hkept.heap.chain_ok rs hv hw)

/-! ### A script at work -/

/-- A function of a script that has come along direct code from its start. -/
def working (s : Session) (sandbox : Sandbox) (p : Proto) (h : Heap) (f : Frame) : State :=
  { State.entered (s.host.loaded sandbox p) false none
      (.table sandbox.env :: s.host.interpreter.held) s.host.heap.closures.size
      ⟨p, #[s.host.heap.cells.size]⟩ with
    heap := h, mode := .execute f }

theorem Runs.along {sandbox : Sandbox} (hsandbox : sandbox ∈ s.sandboxes) {source : ByteArray}
    {label : String} (hlabel : Bytes.indexOf? label.toUTF8 (· == 0) 0 = none)
    (hbinary : (0 < source.size && Bytes.byte source 0 == Library.binaryMark) = false) {p : Proto}
    (hp : compile (chunkName ("=" ++ label).toUTF8) source = .ok p) (hroom : p.registers < 10)
    {code rest : List Instr} (hcode : p.code.toList = code ++ rest) {h : Heap} {f : Frame}
    (hrun : Frame.Along (s.host.loaded sandbox p) (.initial ⟨p, #[s.host.heap.cells.size]⟩) code
      h f) : s.Runs (s.working sandbox p h f) := by
  have hcompile := @Host.compile_of_eq_ok s.host sandbox source label p hlabel hbinary hp
  have hclosure : (s.host.loaded sandbox p).closures[s.host.heap.closures.size]? =
      some ⟨p, #[s.host.heap.cells.size]⟩ := by
    simp [Host.loaded, Heap.newClosure, Heap.newCell]
  let entered := State.entered (s.host.loaded sandbox p) false none
    (.table sandbox.env :: s.host.interpreter.held) s.host.heap.closures.size
    ⟨p, #[s.host.heap.cells.size]⟩
  have hentered : s.Runs entered := by
    have hstart := (Runs.execute hsandbox hcompile none).step
    rwa [← show _ = entered from State.step_start hclosure hroom]
  obtain ⟨n, -, hn⟩ :=
    State.run_along (s := entered) rfl rfl (List.drop_zero.trans hcode) hrun
  have hruns := hentered.run (n + 0)
  rw [hn 0] at hruns
  exact hruns

/-- A script that takes the title of its pack over, and then tries to give the pack another one. -/
def retitling : ByteArray := "phase.title = pack.title pack.title = phase".toUTF8

/-- The code of this script, up to the second assignment. -/
def retitlingCode : List Instr :=
  copyingCode ++ [.index 0 (.upvalue 0) (.constant (.str "pack".toUTF8)),
    .index 1 (.upvalue 0) (.constant (.str "phase".toUTF8))]

theorem exists_compile_retitling :
    ∃ p, compile (chunkName ("=" ++ "test.lua").toUTF8) retitling = .ok p ∧
      p.code.toList = retitlingCode ++
        [.setIndex (.register 0) (.constant (.str "title".toUTF8)) (.register 1),
         .ret 0 0 false] ∧ p.registers = 3 :=
  exists_of_compilesTo (by decide +kernel)

/-- This script is about to make the second assignment, beside a view of a scope with a title. It
has its own title by then. -/
theorem exists_retitling : ∃ (host : Host) (s : Session) (t : State) (f : Frame)
    (env view own : Nat), Host.new none = .ok host ∧ (start host).Reaches s ∧ s.Runs t ∧
      t.mode = .execute f ∧ ¬f.Belongs host ∧
      f.proto.code[f.pc]? = some
        (.setIndex (.register 0) (.constant (.str "title".toUTF8)) (.register 1)) ∧
      f.fetch t.heap (.register 0) = .table view ∧ view ∈ s.views ∧
      .table env ∈ f.roots t.heap [] ∧
      (t.heap.table env).getValue (.str "pack".toUTF8) = .table view ∧
      (∃ m b u, s.host.heap.Views view m b u ∧ t.heap.Views view m b u ∧
        u.getValue (.str "title".toUTF8) = .str "Tale".toUTF8) ∧
      (t.heap.table own).getValue (.str "title".toUTF8) = .str "Tale".toUTF8 := by
  obtain ⟨host, hhost⟩ := Host.exists_new
  have hfresh := Host.fresh_of_new hhost
  obtain ⟨s, sandbox, view, own, hs⟩ := exists_opens hfresh keyed_tale (within_tale _)
  obtain ⟨p, hp, hcode, hregisters⟩ := exists_compile_retitling
  obtain ⟨m, b, u, hviews, hvalues⟩ := hs.views
  have htitle : u.getValue (.str "title".toUTF8) = .str "Tale".toUTF8 :=
    hvalues (.text "title") _ _ rfl rfl
  have hpack := hs.getValue_pack
  have hphase := hs.getValue_phase
  -- the first assignment gives the own table its title
  let h := s.host.loaded sandbox p
  have hrest : h.Resting := ⟨hs.resting.limit, hs.resting.pace⟩
  have hloaded : h.Views view m b u :=
    ⟨hviews.proxy, hviews.metatable, hviews.backing, hviews.plain⟩
  have hcell : h.cell s.host.heap.cells.size = .table sandbox.env := s.host.cell_loaded sandbox p
  have hempty : h.table own = {} := hs.own
  obtain ⟨f, halong, hf⟩ := hs.along_copying hregisters
  let h' := h.setKey own (.str "title".toUTF8) (.str "Tale".toUTF8)
  have htable (r : Nat) : h'.table r = _ :=
    Heap.table_setKey h (Nat.lt_trans hs.lt.1 hs.lt.2) ..
  have henv : h'.table sandbox.env = s.host.heap.table sandbox.env :=
    (htable _).trans (if_neg (Nat.ne_of_gt hs.lt.1))
  have hrest' : h'.Resting := hrest.setKey ..
  rw [← henv] at hpack hphase
  have hlast : h'.Views view m b u := hloaded.setKey_empty hempty (Nat.lt_trans hs.lt.1 hs.lt.2)
    (fun hu => by rw [hu] at htitle; cases htitle) _ _
  -- then the operands of the second one are got
  obtain ⟨f', halong', hf'⟩ : ∃ f', Frame.Along h' f
      [.index 0 (.upvalue 0) (.constant (.str "pack".toUTF8)),
        .index 1 (.upvalue 0) (.constant (.str "phase".toUTF8))] h' f' ∧
      f'.registers = #[.table view, .table own, .table view] := by
    have hupvalue (g : Frame) (hg : g.upvalues = f.upvalues) :
        g.fetch h' (.upvalue 0) = .table sandbox.env :=
      (Frame.fetch_upvalue (hg.trans halong.rest.2.1) h').trans hcell
    refine ⟨_, .cons hrest'.isDue (.index _ (hupvalue _ rfl) hpack rfl) <|
      .cons hrest'.isDue (.index _ (hupvalue _ rfl) hphase rfl) (.nil ..), ?_⟩
    simp [Frame.put, hf]
  have hall := halong.trans halong'
  obtain ⟨hproto, hupvalues, hpc⟩ := hall.rest
  replace hproto : f'.proto = p := hproto
  have hruns : s.Runs (s.working sandbox p h' f') :=
    .along hs.mem (by decide +kernel) rfl hp (by rw [hregisters]; decide) hcode hall
  have hbelongs : ¬f'.Belongs host := by
    intro hbelongs
    have hsize : f'.proto.code.size < 10 := by
      rw [hproto, ← Array.length_toList, hcode]
      decide
    obtain hfactory | hwrapper := hfresh.closures _ hbelongs
    · rw [show f'.proto = Guard.factory from hfactory, Guard.factory_spec.1] at hsize
      exact absurd hsize (by decide)
    · rw [show f'.proto = Guard.wrapper from hwrapper, Guard.wrapper_spec.1] at hsize
      exact absurd hsize (by decide)
  refine ⟨host, s, _, f', sandbox.env, view, own, hhost, hs.reaches, hruns, rfl, hbelongs, ?_, ?_,
    hs.shown, ?_, hpack, ⟨m, b, u, hviews, hlast, htitle⟩, ?_⟩
  · rw [hproto, hpc, ← Array.getElem?_toList, hcode]
    rfl
  · show f'.registers.getD 0 .nil = _
    rw [hf']
    rfl
  · refine (f'.mem_roots_iff _ _).mpr
      (.inr (.inr (.inl ⟨s.host.heap.cells.size, ?_, hcell.symm⟩)))
    rw [hupvalues]
    exact Array.mem_singleton.mpr rfl
  · rw [show (s.working sandbox p h' f').heap.table own = _ from (htable own).trans (if_pos rfl),
      hempty, Table.getValue_str, Table.get_set (Table.sound_empty 0 none), if_pos rfl]

/-- What such a script reads of the view is not stripped. -/
theorem not_stripped_of_title : ∃ (host : Host) (s : Session) (t : State) (f : Frame)
    (env : Nat), Host.new none = .ok host ∧ (start host).Reaches s ∧ s.Runs t ∧
      t.mode = .execute f ∧ ¬f.Belongs host ∧ .table env ∈ f.roots t.heap [] ∧
      t.heap.chain [(.index (.str "pack".toUTF8), 0), (.index (.str "title".toUTF8), 0)]
        (.table env) = some (.str "Tale".toUTF8) ∧ ¬Stripped none (.str "Tale".toUTF8) := by
  obtain ⟨host, s, t, f, env, view, own, hhost, hs, ht, hmode, hf, -, -, -, henv, hpack,
    ⟨m, b, u, -, hviews, htitle⟩, -⟩ := exists_retitling
  have hchain : t.heap.chain [(.index (.str "pack".toUTF8), 0), (.index (.str "title".toUTF8), 0)]
      (.table env) = some (.str "Tale".toUTF8) := by
    rw [Heap.chain_index (Operation.index_of_getValue hpack rfl),
      Heap.chain_index (htitle ▸ hviews.index _)]
    rfl
  exact ⟨host, s, t, f, env, hhost, hs, ht, hmode, hf, henv, hchain,
    ht.not_stripped hhost hs hmode hf henv _ hchain⟩

end Session

end StoryPack
