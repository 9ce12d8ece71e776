/-
Protected calls in sandboxes.

Sandboxes have `pcall` and `xpcall` from functions that call the library functions
of these names and look at the mark of an overrun afterwards.  As long as a run
stays within its budget, that is not noticed: the library function gets the
arguments, and what it gives is what the caller gets, value for value.  In a run
that has overrun its budget they raise an error instead, so that no script goes on
with what it has caught, however deeply it has nested its calls.

What is not noticed has its price all the same: the instructions of the function
count, and it takes memory and registers.  A budget that the library function has
not overrun may be overrun on the way back.

* `Host.Guards` — the functions that a host has for protected calls;
* `Host.Begins` — a protected call begins;
* `Session.Confined.watched` — the states of a run are watched;
* `Session.Runs.protected_calls` — what becomes of protected calls;
* `Session.exists_cut_off_on_return` — one that is cut off on the way back.
-/
import StoryPack.Proofs.Confinement.Budget
import StoryPack.Proofs.Confinement.Entrance
import StoryPack.Proofs.Confinement.Watch

namespace StoryPack

open Script

variable {W : Ward}

namespace Script.State

variable {s : State} {f : Frame} {rest : List Task} {vs : List Value}

theorem start_watched (h : Heap) (closes : Bool) (budget : Option Nat) (held : List Value)
    (f : Value) (args : List Value) : (start h closes budget held f args).Watched W :=
  ⟨⟨fun htop => htop.elim, trivial⟩, .plain id nofun⟩

theorem run_watched (hw : s.Watched W) (hs : s.Kept W) (patience : Nat) :
    (s.run patience).Watched W := by
  induction patience generalizing s with
  | zero => exact hw
  | succ patience ih =>
    have hkept := (tidy_leads hs).kept
    rw [run_eq_step]
    exact ih (hw.tidy.step hkept) (step_leads hkept).kept

/-- What a raw call gives comes to one of the ends of the way out of the protected call. -/
theorem exists_outcome (hs : s.Kept W) (h : Guard.Finishes s f rest vs) :
    ∃ k ≤ 44, Guard.Outcome vs rest (s.run k) ∨
      s.heap.limit ≠ none ∧ (s.run k).tidy.OutOfMemory := by
  obtain ⟨k, hk, hend⟩ := (h.step hs).2.exists_outcome (step_leads hs).kept
  refine ⟨k + 1, by omega, ?_⟩
  rw [run_eq_step, h.tidy_eq]
  exact hend

/-- In a run within its budget the caller gets what the raw call has given. -/
theorem exists_returned (hs : s.Kept W) (hclean : s.heap.tripped = false)
    (h : Guard.Finishes s f rest vs) : ∃ k ≤ 44,
      (s.run k).stack = rest ∧ (s.run k).mode = .deliver vs ∨
        (s.budget ≠ 0 ∧ s.left ≤ k) ∧ (s.run k).TellsOverrun rest ∨
        s.heap.limit ≠ none ∧ (s.run k).tidy.OutOfMemory ∨ slotLimit ≤ vs.length := by
  obtain ⟨k, hk, hend | hmemory⟩ := exists_outcome hs h
  · refine ⟨k, hk, ?_⟩
    cases hend with
    | returned ws hws hstack hmode =>
      by_cases hlong : slotLimit ≤ vs.length
      · exact .inr (.inr (.inr hlong))
      · refine .inl ⟨hstack, ?_⟩
        rw [hmode, hws (by omega)]
    | overrun hoverrun =>
      -- the budget has been used up on the way, so there was not much left of it
      have hover := (tripped_run_iff hs hclean k).mp hoverrun.tripped
      refine .inr (.inl ⟨⟨fun hbudget => ?_, ?_⟩, hoverrun⟩)
      · exact not_overrunsWithin_of_budget hbudget k hover
      · by_contra hlt
        exact not_overrunsWithin (by omega) hover
    | tooMany hlong => exact .inr (.inr (.inr hlong))
  · exact ⟨k, hk, .inr (.inr (.inl hmemory))⟩

/-- In a run that has overrun its budget an error says so. -/
theorem exists_overrun (hs : s.Kept W) (htripped : s.heap.tripped = true)
    (h : Guard.Finishes s f rest vs) :
    ∃ k ≤ 44, (s.run k).TellsOverrun rest ∨
      s.heap.limit ≠ none ∧ (s.run k).tidy.OutOfMemory := by
  obtain ⟨k, hk, hend | hmemory⟩ := exists_outcome hs h
  · have hmark := tripped_run hs htripped k
    cases hend with
    | returned ws hws hstack hmode hclean => cases hclean.symm.trans hmark
    | overrun hoverrun => exact ⟨k, hk, .inl hoverrun⟩
    | tooMany hlong e g hstack hmode hclean => cases hclean.symm.trans hmark
  · exact ⟨k, hk, .inr hmemory⟩

end Script.State

/-! ### The functions of a host -/

namespace Host

variable {host : Host} {limit : Option Nat} {raw : BaseFunction} {r : Nat} {c : Closure}
  {args : List Value} {rest : List Task} {t : State}

/-- The function `c`, under the reference `r`, is what a host gives sandboxes in place of `raw`. -/
def Guards (host : Host) (raw : BaseFunction) (r : Nat) (c : Closure) : Prop :=
  (raw = .pcall ∧ host.pcall = .function (.closure r) ∨
      raw = .xpcall ∧ host.xpcall = .function (.closure r)) ∧
    host.heap.closures[r]? = some c

/-- A protected call begins on top of `rest`: the function is about to be called, and there is room
for its registers, or it has been entered, perhaps in place of its caller. -/
inductive Begins (host : Host) (raw : BaseFunction) (c : Closure) (args : List Value)
    (rest : List Task) (t : State) : Prop
  | call {r : Nat} (hc : host.Guards raw r c) {o : Origin}
      (hmode : t.mode = .call o (.function (.closure r)) args) (hroom : t.isFull c.proto = false)
      (hstack : t.stack = rest)
  | entered {r : Nat} {f : Frame} (hc : host.Guards raw r c) (hf : ⟨f.proto, f.upvalues⟩ = c)
      (hmode : t.mode = .execute f) (hpc : f.pc = 0) (hargs : f.varargs = args)
      (hstack : t.stack = rest)

/-- These functions are the ones that make protected calls, each for its own library function. -/
theorem Guards.wrappers (hc : host.Guards raw r c) (hhost : host.Fresh limit)
    (hle : W.Contains (Guard.ward host.heap)) : W.wrappers r = some (c, raw) := by
  obtain ⟨hr, hclosure⟩ := hc
  have hprotects : Protects raw host.heap (.function (.closure r)) := by
    obtain ⟨rfl, hr⟩ | ⟨rfl, hr⟩ := hr
    · exact hr ▸ hhost.protects.1
    · exact hr ▸ hhost.protects.2
  obtain ⟨h, -⟩ | ⟨r', n, heq, hne, hmade, hcells⟩ := hprotects
  · cases h
  · cases heq
    cases hclosure.symm.trans hmade
    have hget : host.heap.cell n = .builtin (.base raw) := by
      rw [Heap.cell, show host.heap.cells[n]? = _ from hcells (i := 0) rfl]
      rfl
    have hraw : Guard.rawOf host.heap (Guard.wrapperClosure n) = raw := by
      unfold Guard.rawOf
      rw [show host.heap.cell ((Guard.wrapperClosure n).upvalues.getD 1 0) = _ from hget]
      rfl
    rw [hle.wrappers]
    show (if r = 0 then none else host.heap.closures[r]?.map _) = _
    rw [if_neg hne, hclosure, Option.map_some, hraw]

/-- A protected call gets to the raw call. -/
theorem Begins.exists_summons (h : host.Begins raw c args rest t) (hhost : host.Fresh limit)
    (hle : W.Contains (Guard.ward host.heap)) (ht : t.Kept W) :
    ∃ k ≤ 5, Guard.Summons c raw args rest (t.run k) ∨ (t.run k).TellsOverrun rest ∨
      t.heap.limit ≠ none ∧ (t.run k).tidy.OutOfMemory := by
  cases h with
  | call hc hmode hroom hstack =>
    have hr := hc.wrappers hhost hle
    have hwraps := (ht.heap.sound.wrapper hr).2
    have hentering := Guard.step_call_wrapper ht hr hmode (hwraps.proto ▸ hroom)
    rw [hstack] at hentering
    obtain ⟨k, hk, hend⟩ := hentering.exists_summons (State.step_leads ht).kept hwraps
    refine ⟨k + 1, by omega, ?_⟩
    rw [State.run_eq_step, State.tidy_of_ne fun f hf => by cases hmode.symm.trans hf]
    exact hend
  | entered hc hf hmode hpc hargs hstack =>
    subst hf
    have hr := hc.wrappers hhost hle
    have hwraps := (ht.heap.sound.wrapper hr).2
    have hguarded := Guard.guarded_of_execute ht hmode ⟨_, _, hr⟩
    have hentering : Guard.Entering W t.heap.limit _ args rest 4 t :=
      .work _ hguarded rfl hmode hstack (by omega) hargs (fun h3 => by omega) rfl (by omega)
    obtain ⟨k, hk, hend⟩ := hentering.exists_summons ht hwraps
    exact ⟨k, by omega, hend⟩

end Host

/-! ### A protected call of `error` -/

namespace Script

/-- A script that makes a protected call of `error`, in its own place. -/
def catching : ByteArray := "return pcall(error)".toUTF8

/-- The instructions of this script. -/
def catchingCode : List Instr :=
  [.index 0 (.upvalue 0) (.constant (.str "pcall".toUTF8)),
   .index 1 (.upvalue 0) (.constant (.str "error".toUTF8)), .tailCall 0 1 false, .ret 0 0 false]

theorem exists_compile_catching : ∃ p,
    Script.compile (Script.chunkName ("=" ++ "test.lua").toUTF8) catching = .ok p ∧
      p.code.toList = catchingCode ∧ p.registers = 2 :=
  exists_of_compilesTo (by decide +kernel)

/-- A call that has been entered with some arguments, all of which are extra ones. -/
def Frame.entered (c : Closure) (args : List Value) : Frame :=
  { Frame.initial c with varargs := args }

theorem State.enter_entered (s : State) {c : Closure} (hproto : c.proto = Guard.wrapper)
    (args : List Value) : s.enter c args =
      { s with mode := .execute (.entered c args), slots := s.slots + c.proto.registers + 2 } := by
  obtain ⟨-, -, hparameters, hvararg, -, -⟩ := Guard.wrapper_spec
  rw [← hproto] at hparameters hvararg
  unfold State.enter
  simp only [hparameters, hvararg, State.enter.fill, List.drop_zero, if_true]
  rfl

/-- A state of a run with a budget, without a call of a library function. -/
def State.counted (h : Heap) (b slots : Nat) (held : List Value) (stack : List Task) (mode : Mode)
    (left : Nat) : State :=
  { heap := h, stack := stack, mode := mode, budget := b, left := left, slots := slots,
    held := held }

theorem State.step_counted {h : Heap} (hrest : h.Resting) {b : Nat} (hb : b ≠ 0) {slots : Nat}
    {held : List Value} {stack : List Task} (f : Frame) {l : Nat} {i : Instr} (hl : 1 < l)
    (hi : f.proto.code[f.pc]? = some i) :
    (counted h b slots held stack (.execute f) l).tidy.step =
      (counted h b slots held stack (.deliver []) (l - 1)).execute { f with pc := f.pc + 1 } i :=
  step_execute_within rfl hrest hb rfl hl hi

namespace Guard

/-- A protected call of `error` that waits for what the raw call gives. -/
def waiting (h : Heap) (n : Nat) : Frame :=
  { ((Frame.entered (Guard.wrapperClosure n) [.builtin (.base .error)]).put 1
      (h.cell (n + 3))).put 2 (h.cell n) with
    pc := 4, want := .all }

/-- The error has come to it. -/
def caught (h : Heap) (n b left slots : Nat) (held : List Value) : State :=
  { heap := h, stack := [.guard none true, .script (waiting h n), .root false]
    mode := .unwind (.thrown .nil), budget := b, left := left, depth := 2, slots := slots
    held := held }

theorem size_registers : (Array.replicate Guard.wrapper.registers Value.nil).size = 5 := by
  obtain ⟨-, -, -, -, hregisters, -⟩ := Guard.wrapper_spec
  rw [hregisters, Array.size_replicate]

theorem size_set_registers (i : Nat) (v : Value) :
    ((Array.replicate Guard.wrapper.registers Value.nil).set! i v).size = 5 := by
  rw [Array.size_set!, size_registers]

theorem finishes_caught (h : Heap) (n b left slots : Nat) (held : List Value) :
    Finishes (caught h n b left slots held) (waiting h n) [.root false] [.bool false, .nil] :=
  .error rfl rfl rfl

theorem run_error {h : Heap} (hrest : h.Resting) {n : Nat}
    (hraw : h.cell n = .builtin (.base .pcall)) {b left : Nat} (hb : b ≠ 0) (hleft : 4 < left)
    (slots : Nat) (held : List Value) :
    (State.counted h b slots held [.root false]
      (.execute (.entered (Guard.wrapperClosure n) [.builtin (.base .error)])) left).run 7 =
      caught h n b (left - 4) slots held := by
  let st := State.counted h b slots held
  have hstep (f : Frame) {l : Nat} {i : Instr} (hl : 1 < l) (hproto : f.proto = Guard.wrapper)
      (hi : Guard.wrapperCode[f.pc]? = some i) :
      (st [.root false] (.execute f) l).tidy.step =
        State.execute (st [.root false] (.deliver []) (l - 1)) { f with pc := f.pc + 1 } i :=
    State.step_counted hrest hb f hl (by rw [hproto, Guard.wrapper_spec.1, hi])
  let f₀ : Frame := .entered (Guard.wrapperClosure n) [.builtin (.base .error)]
  let f₁ : Frame := Frame.put { f₀ with pc := 1 } 1 (h.cell (n + 3))
  let f₂ : Frame := Frame.put { f₁ with pc := 2 } 2 (h.cell n)
  let f₃ : Frame := { f₂ with pc := 3, hand := [.builtin (.base .error)] }
  have h₀ : (st [.root false] (.execute f₀) left).tidy.step =
      st [.root false] (.execute f₁) (left - 1) := hstep f₀ (by omega) rfl rfl
  have h₁ : (st [.root false] (.execute f₁) (left - 1)).tidy.step =
      st [.root false] (.execute f₂) (left - 2) := hstep f₁ (by omega) rfl rfl
  have h₂ : (st [.root false] (.execute f₂) (left - 2)).tidy.step =
      st [.root false] (.execute f₃) (left - 3) := hstep f₂ (by omega) rfl rfl
  have h₃ : (st [.root false] (.execute f₃) (left - 3)).tidy.step =
      st [.script (waiting h n), .root false]
        (.call .operation (.builtin (.base .pcall)) [.builtin (.base .error)]) (left - 4) := by
    have hcallee : f₃.registers.getD 2 .nil = .builtin (.base .pcall) :=
      (Registers.getD_set! (size_set_registers 1 _) (by decide) (h.cell n) 2).trans hraw
    have hargs : f₃.gather 3 0 true = [.builtin (.base .error)] := by simp [Frame.gather, f₃]
    rw [hstep f₃ (i := .call 2 0 true .all) (by omega) rfl rfl, ← hcallee, ← hargs]
    rfl
  -- the guard is put on the stack, and `error` is called and fails
  let guarded (mode : Mode) : State := { caught h n b (left - 4) slots held with mode := mode }
  have h₄ : (st [.script (waiting h n), .root false]
      (.call .operation (.builtin (.base .pcall)) [.builtin (.base .error)]) (left - 4)).tidy.step =
        guarded (.call (.library none) (.builtin (.base .error)) []) := rfl
  have h₅ : (guarded (.call (.library none) (.builtin (.base .error)) [])).tidy.step =
      guarded (.raise (.thrown .nil)) := rfl
  have h₆ : (guarded (.raise (.thrown .nil))).tidy.step = caught h n b (left - 4) slots held := rfl
  show (st [.root false] (.execute f₀) left).run 7 = _
  rw [State.run_eq_step, h₀, State.run_eq_step, h₁, State.run_eq_step, h₂, State.run_eq_step, h₃,
    State.run_eq_step, h₄, State.run_eq_step, h₅, State.run_eq_step, h₆]
  rfl

/-- With a budget for two more instructions, the protected call is stopped on its way out. -/
theorem not_returned_caught {h : Heap} (hrest : h.Resting) {n : Nat}
    (hpack : h.cell (n + 3) = .builtin (.table .pack)) {b : Nat} (hb : b ≠ 0) (slots : Nat)
    (held : List Value) (k : Nat) :
    ¬(((caught h n b 3 slots held).run k).stack = [.root false] ∧
      ((caught h n b 3 slots held).run k).mode = .deliver [.bool false, .nil]) := by
  obtain ⟨t, -, hpacked⟩ := Library.packed_eq [.bool false, .nil] h
  let st (h : Heap) := State.counted h b slots held
  have hstep {g : Heap} (hg : g.Resting) (f : Frame) {l : Nat} {i : Instr} (hl : 1 < l)
      (hproto : f.proto = Guard.wrapper) (hi : Guard.wrapperCode[f.pc]? = some i) :
      (st g [.root false] (.execute f) l).tidy.step =
        State.execute (st g [.root false] (.deliver []) (l - 1)) { f with pc := f.pc + 1 } i :=
    State.step_counted hg hb f hl (by rw [hproto, Guard.wrapper_spec.1, hi])
  let g : Heap := (h.newTable t).1
  have hadded : g.Resting := ⟨hrest.limit, hrest.pace⟩
  let r : Nat := (h.newTable t).2
  let f₀ : Frame := { waiting h n with hand := [.bool false, .nil] }
  let f₁ : Frame := { f₀ with pc := 5, hand := [], want := .registers 0 1 }
  let f₂ : Frame := f₁.put 0 (.table r)
  let f₃ : Frame := Frame.put { f₂ with pc := 6 } 1 (g.cell (n + 1))
  have h₀ : (caught h n b 3 slots held).tidy.step =
      st h [.script (waiting h n), .root false] (.deliver [.bool false, .nil]) 3 := rfl
  have h₁ : (st h [.script (waiting h n), .root false] (.deliver [.bool false, .nil]) 3).tidy.step =
      st h [.root false] (.execute f₀) 3 := rfl
  have h₂ : (st h [.root false] (.execute f₀) 3).tidy.step =
      st h [.script f₁, .root false]
        (.call .operation (.builtin (.table .pack)) [.bool false, .nil]) 2 := by
    have hcallee : f₀.registers.getD 1 .nil = .builtin (.table .pack) := by
      refine (Registers.getD_set! (size_set_registers 1 _) (by decide) (h.cell n) 1).trans ?_
      rw [if_neg (by decide), Registers.getD_set! size_registers (by decide), if_pos rfl, hpack]
    have hargs : f₀.gather 2 0 true = [.bool false, .nil] := by simp [Frame.gather, f₀]
    rw [hstep hrest f₀ (i := .call 1 0 true (.registers 0 1)) (by decide) rfl rfl, ← hcallee,
      ← hargs]
    rfl
  have h₃ : (st h [.script f₁, .root false]
      (.call .operation (.builtin (.table .pack)) [.bool false, .nil]) 2).tidy.step =
        st g [.script f₁, .root false] (.deliver [.table r]) 2 :=
    step_call_of_done rfl (by decide) (by decide) hpacked
  have h₄ : (st g [.script f₁, .root false] (.deliver [.table r]) 2).tidy.step =
      st g [.root false] (.execute f₂) 2 := rfl
  have h₅ : (st g [.root false] (.execute f₂) 2).tidy.step = st g [.root false] (.execute f₃) 1 :=
    hstep hadded f₂ (l := 2) (by decide) rfl rfl
  -- there is no budget for the next instruction, and nothing catches the error
  let stopped : State := (st g [.root false] (.deliver []) 1).trip { f₃ with pc := 7 }
  have h₆ : (st g [.root false] (.execute f₃) 1).tidy.step = stopped := by
    have hcount : (b != 0 && true) = true := by simp [hb]
    rw [State.tidy_eq hadded]
    exact if_pos hcount
  have hended : ∃ e, stopped.tidy.step.mode = .ended e := ⟨_, rfl⟩
  -- no state on the way has both the stack and the mode of a return
  rintro ⟨hstack, hmode⟩
  rcases k with _ | k
  · cases hmode
  rcases k with _ | _ | _ | _ | _ | _ | _ | k
  all_goals simp only [State.run_eq_step, h₀, h₁, h₂, h₃, h₄, h₅, h₆] at hstack hmode
  · cases hstack
  · cases hmode
  · cases hmode
  · cases hstack
  · cases hmode
  · cases hmode
  · cases hmode
  · obtain ⟨e, he⟩ := hended
    rw [State.run_of_ended he, he] at hmode
    cases hmode

end Guard

end Script

/-- The run of a function of a sandbox. -/
theorem Host.startOf_loaded (host : Host) (sandbox : Sandbox) (p : Proto) (budget : Option Nat)
    (f : Value) :
    (host.withHeap ((host.heap.newCell (.table sandbox.env)).1.newClosure
      ⟨p, #[host.heap.cells.size]⟩).1).startOf sandbox f budget =
    State.start (host.loaded sandbox p) false budget
      (.table sandbox.env :: host.interpreter.held) f [] := rfl

namespace Script.State

variable {h : Heap} {env u n r b : Nat} {p : Proto}

/-- The script gets to where the raw call of `pcall` has caught the error. -/
theorem run_catching (hrest : h.Resting)
    (hcode : p.code.toList = catchingCode) (hregisters : p.registers = 2)
    (hcell : h.cell u = .table env)
    (hpcall : (h.table env).getValue (.str "pcall".toUTF8) = .function (.closure r))
    (herror : (h.table env).getValue (.str "error".toUTF8) = .builtin (.base .error))
    (hr : h.closures[r]? = some (Guard.wrapperClosure n))
    (hraw : h.cell n = .builtin (.base .pcall)) (hb : 8 ≤ b) (held : List Value) (k : Nat) :
    (entered h false (some b) held k ⟨p, #[u]⟩).run 10 =
      Guard.caught h n b (b - 7) (Guard.wrapper.registers + 2) held := by
  let t := counted h b (p.registers + 2) held [.root false]
  have hstep (f : Frame) {l : Nat} {i : Instr} (hl : 1 < l) (hf : f.proto = p)
      (hi : p.code[f.pc]? = some i) :
      (t (.execute f) l).tidy.step =
      (t (.deliver []) (l - 1)).execute { f with pc := f.pc + 1 } i :=
    step_counted hrest (by omega) f hl (by rw [hf, hi])
  have hindex (f : Frame) {l : Nat} (hl : 1 < l) (hf : f.proto = p) (hu : f.upvalues = #[u])
      {dst : Nat} {name : ByteArray} {v : Value}
      (hi : p.code[f.pc]? = some (.index dst (.upvalue 0) (.constant (.str name))))
      (hv : (h.table env).getValue (.str name) = v) (hsome : v.isNil = false) :
      (t (.execute f) l).tidy.step =
        t (.execute (Frame.put { f with pc := f.pc + 1 } dst v)) (l - 1) := by
    have henv : f.fetch h (.upvalue 0) = .table env := (Frame.fetch_upvalue hu h).trans hcell
    rw [hstep f hl hf hi]
    refine execute_index (s := t (.deliver []) (l - 1)) henv ?_ hsome
    exact hv
  let f₀ := Frame.initial ⟨p, #[u]⟩
  let f₁ := Frame.put { f₀ with pc := 1 } 0 (.function (.closure r))
  let f₂ := Frame.put { f₁ with pc := 2 } 1 (.builtin (.base .error))
  have h₀ : (t (.execute f₀) b).tidy.step = t (.execute f₁) (b - 1) :=
    hindex f₀ (by omega) rfl rfl (by rw [← Array.getElem?_toList, hcode]; rfl) hpcall rfl
  have h₁ : (t (.execute f₁) (b - 1)).tidy.step = t (.execute f₂) (b - 2) :=
    hindex f₁ (by omega) rfl rfl (by rw [← Array.getElem?_toList, hcode]; rfl) herror rfl
  have h₂ : (t (.execute f₂) (b - 2)).tidy.step =
      counted h b (Guard.wrapper.registers + 2) held [.root false]
        (.execute (.entered (Guard.wrapperClosure n) [.builtin (.base .error)])) (b - 3) := by
    have hregs : f₂.registers = #[.function (.closure r), .builtin (.base .error)] := by
      show ((Array.replicate p.registers Value.nil).set! 0 _).set! 1 _ = _
      rw [hregisters]
      rfl
    rw [hstep f₂ (i := .tailCall 0 1 false) (by omega) rfl
      (by rw [← Array.getElem?_toList, hcode]; rfl)]
    show tailCallFrom (t (.deliver []) (b - 2 - 1)) { f₂ with pc := 3 } 0 1 false = _
    have hcallee : f₂.registers.getD 0 .nil = .function (.closure r) := by rw [hregs]; rfl
    have hargs : Frame.gather { f₂ with pc := 3 } 1 1 false = [.builtin (.base .error)] := by
      rw [Frame.gather, hregs]
      rfl
    have hclosure : ((t (.deliver []) (b - 2 - 1)).heap.closures[r]?).getD default =
        Guard.wrapperClosure n := by
      rw [show (t (.deliver []) (b - 2 - 1)).heap.closures[r]? = _ from hr]
      rfl
    unfold tailCallFrom
    simp only [hcallee, hargs, tailCallFrom.throughMeta, hclosure]
    rw [enter_entered _ rfl]
    show counted h b (p.registers + 2 - (p.registers + 2) + Guard.wrapper.registers + 2) held
      _ _ _ = _
    rw [Nat.sub_self, Nat.zero_add]
    rfl
  have hentered : entered h false (some b) held k ⟨p, #[u]⟩ = t (.execute f₀) b := by
    have hmax : max 1 b = b := by omega
    simp only [entered, start, Option.map_some, Option.getD_some, hmax]
    rfl
  rw [hentered, run_eq_step, h₀, run_eq_step, h₁, run_eq_step, h₂]
  have hpos : b ≠ 0 := by omega
  have hmany : 4 < b - 3 := by omega
  exact Guard.run_error hrest hraw hpos hmany _ held

end Script.State

/-! ### Sessions -/

namespace Session

variable {s : Session} {t : State}

theorem Confined.watched (hs : s.Confined W) (ht : s.Runs t) : t.Watched W := by
  induction ht with
  | execute => exact State.start_watched _ _ _ _ _ _
  | call => exact State.start_watched _ _ _ _ _ _
  | shown => exact State.start_watched _ _ _ _ _ _
  | step ht ih => exact ih.tidy.step (State.tidy_leads (hs.runs ht)).kept

/-- With a budget of eight instructions or more, the protected call is reached, and the error is
caught. -/
theorem exists_caught {b : Nat} (hb : 8 ≤ b) :
    ∃ (host : Host) (s : Session) (sandbox : Sandbox) (host' : Host) (g : Value) (h : Heap)
      (n slots : Nat) (held : List Value),
      Host.new none = .ok host ∧ (start host).Reaches s ∧ sandbox ∈ s.sandboxes ∧
        s.host.compile sandbox catching "test.lua" = .ok (host', g) ∧
        (host'.startOf sandbox g (some b)).run 11 = Guard.caught h n b (b - 7) slots held ∧
        h.Resting ∧ h.tripped = false ∧ h.cell (n + 3) = .builtin (.table .pack) := by
  obtain ⟨host, hhost⟩ := Host.exists_new
  have hfresh := Host.fresh_of_new hhost
  obtain ⟨p, hp, hcode, hregisters⟩ := exists_compile_catching
  obtain ⟨⟨-, hlimited⟩ | ⟨r, n, hpcall, -, hwrapper, hcontents⟩, -⟩ := hfresh.protects
  · exact absurd hfresh.limit hlimited
  obtain ⟨s, sandbox, view, own, hs⟩ := exists_opens hfresh keyed_tale (within_tale _)
  have hcompile := @Host.compile_of_eq_ok s.host sandbox _ _ _ (by decide +kernel) rfl hp
  let h := s.host.loaded sandbox p
  let held := Value.table sandbox.env :: s.host.interpreter.held
  have hclosure : h.closures[s.host.heap.closures.size]? = some ⟨p, #[s.host.heap.cells.size]⟩ := by
    simp [h, Host.loaded, Heap.newClosure, Heap.newCell]
  have hcell {i : Nat} {v : Value}
      (hi : (Guard.contents (.builtin (.base .pcall)))[i]? = some v) : h.cell (n + i) = v := by
    have hold := hcontents hi
    have hlt := (Array.getElem?_eq_some_iff.mp hold).1
    have hpush : h.cells = host.heap.cells.push (.table sandbox.env) := by
      rw [← hs.cells]
      rfl
    rw [Heap.cell, hpush, Array.getElem?_push_lt hlt, ← Array.getElem?_eq_getElem, hold]
    rfl
  have hr : h.closures[r]? = some (Guard.wrapperClosure n) := by
    have hlt := (Array.getElem?_eq_some_iff.mp hwrapper).1
    show (s.host.heap.closures.push _)[r]? = _
    rw [hs.closures, Array.getElem?_push_lt hlt, ← Array.getElem?_eq_getElem, hwrapper]
  have hrest : h.Resting := ⟨hs.resting.limit, hs.resting.pace⟩
  have hpcall : (h.table sandbox.env).getValue (.str "pcall".toUTF8) = .function (.closure r) :=
    hs.getValue (by simp [openings, Host.defaults, hpcall])
  have herror : (h.table sandbox.env).getValue (.str "error".toUTF8) = .builtin (.base .error) :=
    hs.getValue (by simp [openings, Host.defaults, Host.baseAllowed])
  have hstart := @State.step_start h false (some b) held _ _ hclosure
    (by rw [show (Closure.mk p _).proto.registers = 2 from hregisters]; decide)
  have hrun := State.run_catching hrest hcode hregisters (s.host.cell_loaded sandbox p) hpcall
    herror hr (hcell (i := 0) rfl) hb held s.host.heap.closures.size
  refine ⟨host, s, sandbox, _, _, h, n, Guard.wrapper.registers + 2, held, hhost, hs.reaches,
    hs.mem, hcompile, ?_, hrest, rfl, hcell (i := 3) rfl⟩
  rw [Host.startOf_loaded, State.run_eq_step, hstart]
  exact hrun

/-- What becomes of protected calls.  A protected call calls the library function with its
arguments.  When this raw call finishes within the budget of the run, the caller gets exactly what
it has given, unless so little of the budget is left that the protected call itself overruns it, or
the memory is used up, or there are as many values as registers.  (This bound on values is a fixed
one here; with fewer registers free, an interpreter may run out of them earlier.)  When it finishes
later, an error that tells of the overrun is raised in place of a return.  And once a run has
overrun its budget, no protected call returns to its caller, at no depth and at no later move. -/
theorem Runs.protected_calls {limit : Option Nat} {host : Host} (hhost : Host.new limit = .ok host)
    (hs : (start host).Reaches s) (ht : s.Runs t) :
    (∀ raw c args rest, host.Begins raw c args rest t → ∃ k ≤ 5,
      Guard.Summons c raw args rest (t.run k) ∨ (t.run k).TellsOverrun rest ∨
        t.heap.limit ≠ none ∧ (t.run k).tidy.OutOfMemory) ∧
    (∀ f rest vs, Guard.Finishes t f rest vs → t.heap.tripped = false → ∃ k ≤ 44,
      (t.run k).stack = rest ∧ (t.run k).mode = .deliver vs ∨
        (t.budget ≠ 0 ∧ t.left ≤ k) ∧ (t.run k).TellsOverrun rest ∨
        t.heap.limit ≠ none ∧ (t.run k).tidy.OutOfMemory ∨ slotLimit ≤ vs.length) ∧
    (∀ f rest vs, Guard.Finishes t f rest vs → t.heap.tripped = true → ∃ k ≤ 44,
      (t.run k).TellsOverrun rest ∨ t.heap.limit ≠ none ∧ (t.run k).tidy.OutOfMemory) ∧
    (t.heap.tripped = true → ∀ raw r f, host.Guards raw r ⟨f.proto, f.upvalues⟩ →
      ∀ k vs, ¬(t.run k).tidy.Leaves f vs) := by
  have hfresh := Host.fresh_of_new hhost
  obtain ⟨W, hle, hconfined⟩ := (start_confined hfresh).reaches hs
  have hkept := hconfined.runs ht
  refine ⟨fun raw c args rest h => h.exists_summons hfresh hle hkept,
    fun f rest vs h hclean => State.exists_returned hkept hclean h,
    fun f rest vs h htripped => State.exists_overrun hkept htripped h,
    fun htripped raw r f hf k vs => ?_⟩
  -- the mark is never taken off again, and the state after any moves is watched
  have hrun := (State.run_leads hkept k).kept
  have hwatched := State.run_watched (hconfined.watched ht) hkept k
  refine hwatched.tidy.not_leaves (State.tidy_leads hrun).kept ?_
    ⟨r, raw, hf.wrappers hfresh hle⟩
  obtain heq | ⟨-, hmark⟩ := (State.tidy_leads hrun).tripped
  · exact heq.trans (State.tripped_run hkept htripped k)
  · exact hmark

/-- With a budget of a hundred instructions, the caller gets that the error has been caught. -/
theorem protected_calls_error : ∃ (host : Host) (s : Session) (t : State) (f : Frame),
    Host.new none = .ok host ∧ (start host).Reaches s ∧ s.Runs t ∧
      Guard.Finishes t f [.root false] [.bool false, .nil] ∧ t.heap.tripped = false ∧
      ∃ k ≤ 44, (t.run k).stack = [.root false] ∧
      (t.run k).mode = .deliver [.bool false, .nil] := by
  obtain ⟨host, s, sandbox, host', g, h, n, slots, held, hhost, hs, hsandbox, hcompile, hrun, hrest,
    htripped, -⟩ := exists_caught (b := 100) (by decide)
  have ht : s.Runs (Guard.caught h n 100 93 slots held) :=
    hrun ▸ (Runs.execute hsandbox hcompile (some 100)).run 11
  have hfinishes := Guard.finishes_caught h n 100 93 slots held
  refine ⟨host, s, _, _, hhost, hs, ht, hfinishes, htripped, ?_⟩
  obtain ⟨-, hreturned, -⟩ := ht.protected_calls hhost hs
  obtain ⟨k, hk, hend⟩ := hreturned _ _ _ hfinishes htripped
  obtain hend | ⟨⟨-, hleft⟩, -⟩ | ⟨hmemory, -⟩ | hlong := hend
  · exact ⟨k, hk, hend⟩
  · have hleft : 93 ≤ k := hleft
    omega
  · exact absurd hrest.limit hmemory
  · exact absurd hlong (by decide)

/-- With a budget of ten instructions, the raw call finishes within it, and the caller gets nothing
all the same: the protected call itself is cut off. -/
theorem exists_cut_off_on_return : ∃ (host : Host) (s : Session) (sandbox : Sandbox) (host' : Host)
    (g : Value) (f : Frame), Host.new none = .ok host ∧ (start host).Reaches s ∧
      sandbox ∈ s.sandboxes ∧ s.host.compile sandbox catching "test.lua" = .ok (host', g) ∧
      let t := (host'.startOf sandbox g (some 10)).run 11
      Guard.Finishes t f [.root false] [.bool false, .nil] ∧ t.heap.tripped = false ∧
        ∀ k, ¬((t.run k).stack = [.root false] ∧
        (t.run k).mode = .deliver [.bool false, .nil]) := by
  obtain ⟨host, s, sandbox, host', g, h, n, slots, held, hhost, hs, hsandbox, hcompile, hrun, hrest,
    htripped, hpack⟩ := exists_caught (b := 10) (by decide)
  refine ⟨host, s, sandbox, host', g, Guard.waiting h n, hhost, hs, hsandbox, hcompile, ?_⟩
  rw [hrun]
  exact ⟨Guard.finishes_caught .., htripped,
    Guard.not_returned_caught hrest hpack (by decide) slots held⟩

end Session

end StoryPack
