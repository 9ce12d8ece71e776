/-
Scripts without branches.

An instruction is direct when it is done at once: no function of a script is
called for it, and it does not fail.  The machine gets through code of direct
instructions in a few moves for each of them, as long as the collector is not due
at any of them, and a script that returns after such code comes to its end.

* `Heap.tended` — the heap after the collector has run if it is due;
* `Frame.Direct` — what a direct instruction does;
* `Frame.Along` — what code of direct instructions does;
* `State.run_along` — the machine gets through such code;
* `Host.executeWithin_straight` — so does a host, to the end of a script.
-/
import StoryPack.Proofs.Script.Collection

namespace StoryPack

namespace Script

/-- The heap after the collector has run if it is due, which starts from some values. -/
def Heap.tended (h : Heap) (roots : List Value) : Heap :=
  if h.isDue then h.collected roots true else h

theorem Heap.tended_of_not_due {h : Heap} (hdue : h.isDue = false) (roots : List Value) :
    h.tended roots = h := by
  rw [tended, hdue, if_neg Bool.false_ne_true]

theorem Heap.tripped_tended (h : Heap) (roots : List Value) :
    (h.tended roots).tripped = h.tripped := by
  unfold tended
  split
  · exact h.tripped_collected roots true
  · rfl

theorem Heap.tended_of_due {h : Heap} (hdue : h.isDue = true) (roots : List Value) :
    h.tended roots = h.collected roots true := by
  rw [tended, hdue, if_pos rfl]

theorem Heap.limit_tended (h : Heap) (roots : List Value) : (h.tended roots).limit = h.limit := by
  unfold tended
  split
  · exact h.limit_collected roots true
  · rfl

theorem Heap.table_tended {h : Heap} {r : Nat} (hr : (h.table r).metatable = none)
    (roots : List Value) : (h.tended roots).table r = h.table r := by
  unfold tended
  split
  · exact table_collected hr
  · rfl

/-- What a direct instruction makes of the heap and of the call of its function. -/
inductive Frame.Direct (f : Frame) (h : Heap) : Instr → Heap → Frame → Prop
  | move {dst : Nat} (src : Operand) :
    Direct f h (.move (.register dst) src) h (f.put dst (f.fetch h src))
  | newTable (dst array slots : Nat) :
    Direct f h (.newTable dst array slots) (h.newTable (Table.sized array slots)).1
      (f.put dst (.table h.tables.size))
  /-- A table has a value for a key. -/
  | index {dst r : Nat} {object : Operand} (key : Operand) {v : Value}
      (hobject : f.fetch h object = .table r) (hv : (h.table r).getValue (f.fetch h key) = v)
      (hsome : v.isNil = false) :
    Direct f h (.index dst object key) h (f.put dst v)
  /-- A table has none itself. -/
  | indexThrough {dst r : Nat} {object key : Operand} {v : Value} {h' : Heap}
      (hobject : f.fetch h object = .table r)
      (hnil : ((h.table r).getValue (f.fetch h key)).isNil = true)
      (hv : Operation.index (.table r) (f.fetch h key) h = .done h' v) :
    Direct f h (.index dst object key) h' ({ f with want := .registers dst 1 }.put dst v)
  /-- A value is written to a table without metatable. -/
  | setIndex {r : Nat} {object key value : Operand} {k : Key}
      (hobject : f.fetch h object = .table r) (hk : (f.fetch h key).toKey? = some k)
      (hmeta : (h.table r).metatable = none) :
    Direct f h (.setIndex object key value) (h.setKey r k (f.fetch h value)) f
  /-- A library function is called, and its values are dropped. -/
  | call {fn count : Nat} {more : Bool} {b : Builtin} {h' : Heap} {vs : List Value}
      (hcallee : f.registers.getD fn .nil = .builtin b) (hpcall : b ≠ .base .pcall)
      (hxpcall : b ≠ .base .xpcall) (hrun : b.run (f.gather (fn + 1) count more) h = .done h' vs) :
    Direct f h (.call fn count more .none) h' { f with want := .none, hand := [] }

/-- What code of direct instructions makes of the heap and of the call of its function, when the
collector is not due on the way. -/
inductive Frame.Along : Heap → Frame → List Instr → Heap → Frame → Prop
  | nil (h : Heap) (f : Frame) : Along h f [] h f
  | cons {h h' h'' : Heap} {f f' f'' : Frame} {i : Instr} {code : List Instr}
      (hdue : h.isDue = false) (hi : { f with pc := f.pc + 1 }.Direct h i h' f')
      (hrest : Along h' f' code h'' f'') : Along h f (i :: code) h'' f''

/-- Whether a source has been compiled to some instructions, with so many registers. -/
def compilesTo (r : Except SourceFault Proto) (code : List Instr) (registers : Nat) : Bool :=
  match r with
  | .ok p => p.code.toList = code && p.registers = registers
  | .error _ => false

theorem exists_of_compilesTo {r : Except SourceFault Proto} {code : List Instr} {registers : Nat}
    (h : compilesTo r code registers = true) :
    ∃ p, r = .ok p ∧ p.code.toList = code ∧ p.registers = registers := by
  cases r with
  | error f => cases h
  | ok p =>
    simp only [compilesTo, Bool.and_eq_true, decide_eq_true_eq] at h
    exact ⟨p, rfl, h⟩

/-- The frame of a function that is called without arguments. -/
def Frame.initial (c : Closure) : Frame where
  proto := c.proto
  upvalues := c.upvalues
  pc := 0
  registers := Array.replicate c.proto.registers .nil
  boxes := if c.proto.boxes == 0 then #[] else Array.replicate c.proto.boxes 0
  varargs := []
  hand := []
  closing := []
  want := .none

theorem Frame.initial_of_registers {c : Closure} {n : Nat} (hn : c.proto.registers = n) :
    Frame.initial c = { Frame.initial c with registers := Array.replicate n .nil } := by
  subst hn
  rfl

variable {h h' : Heap} {f f' : Frame} {i : Instr} {code : List Instr} {vs : List Value}

namespace Frame

/-- The value that a function has at hand. -/
theorem fetch_upvalue {u : Nat} (hf : f.upvalues = #[u]) (h : Heap) :
    f.fetch h (.upvalue 0) = h.cell u := by
  show h.cell (f.upvalues.getD 0 0) = _
  rw [hf]
  rfl

/-- A direct instruction leaves the function and what it has captured. -/
theorem Direct.rest (hi : f.Direct h i h' f') :
    f'.proto = f.proto ∧ f'.upvalues = f.upvalues ∧ f'.pc = f.pc := by
  cases hi <;> exact ⟨rfl, rfl, rfl⟩

theorem Along.rest (hrun : Along h f code h' f') :
    f'.proto = f.proto ∧ f'.upvalues = f.upvalues ∧ f'.pc = f.pc + code.length := by
  induction hrun with
  | nil h f => exact ⟨rfl, rfl, rfl⟩
  | cons hdue hi hrest ih =>
    obtain ⟨hproto, hupvalues, hpc⟩ := ih
    obtain ⟨hproto', hupvalues', hpc'⟩ := hi.rest
    refine ⟨hproto.trans hproto', hupvalues.trans hupvalues', ?_⟩
    rw [hpc, hpc', List.length_cons]
    dsimp only
    omega

theorem Along.trans {code' : List Instr} {h'' : Heap} {f'' : Frame}
    (hrun : Along h f code h' f') (hrun' : Along h' f' code' h'' f'') :
    Along h f (code ++ code') h'' f'' := by
  induction hrun with
  | nil => exact hrun'
  | cons hdue hi _ ih => exact .cons hdue hi (ih hrun')

end Frame

namespace State

variable {s : State}

/-- The collector waits until it is due. -/
theorem tidy_of_not_due (hdue : s.heap.isDue = false) : s.tidy = s := by
  unfold tidy
  rw [hdue]
  split <;> rfl

/-- The collector rests. -/
theorem tidy_eq (hrest : s.heap.Resting) : s.tidy = s := tidy_of_not_due hrest.isDue

/-- Without a limit, it changes nothing but the heap. -/
theorem collect_of_limit (hlimit : s.heap.limit = none) :
    s.collect = { s with heap := s.heap.collected s.roots s.showsAll } := by
  have hroom : (s.heap.collected s.roots s.showsAll).exhausted = false := by
    rw [Heap.exhausted, Heap.limit_collected, hlimit]
  unfold collect
  simp only [hroom, Bool.false_eq_true, if_false]

theorem tidy_of_limit (hlimit : s.heap.limit = none) : s.tidy = s ∨
    s.tidy = { s with heap := s.heap.collected s.roots s.showsAll } := by
  unfold tidy
  split
  · split
    · exact .inr (collect_of_limit hlimit)
    · exact .inl rfl
  · exact .inl rfl

/-- In a function that has been called from outside, it starts from what this function holds. -/
theorem tidy_execute {closes : Bool} (hmode : s.mode = .execute f)
    (hstack : s.stack = [.root closes]) (hlimit : s.heap.limit = none) :
    s.tidy = { s with heap := s.heap.tended (s.held ++ f.rootsAt s.heap f.pc []) } := by
  have hroots : s.roots = s.held ++ f.rootsAt s.heap f.pc [] := by
    unfold roots
    rw [hmode, hstack]
    rfl
  have hall : s.showsAll = true := by
    unfold showsAll
    rw [hstack]
    rfl
  cases hdue : s.heap.isDue with
  | false => rw [Heap.tended_of_not_due hdue, tidy_of_not_due hdue]
  | true =>
    have htidy : s.tidy = s.collect := by
      unfold tidy
      rw [hmode]
      exact if_pos hdue
    rw [Heap.tended_of_due hdue, htidy, collect_of_limit hlimit, hroots, hall]

/-- Without a budget, a move takes the next instruction. -/
theorem step_execute (hmode : s.mode = .execute f) (hbudget : s.budget = 0)
    (hi : f.proto.code[f.pc]? = some i) :
    s.step = { s with mode := .deliver [] }.execute { f with pc := f.pc + 1 } i := by
  unfold step
  simp only [hmode, hbudget, bne_self_eq_false, Bool.false_and, Bool.false_eq_true, if_false]
  unfold step.advance
  rw [hi]

/-- Within its budget, a move counts the next instruction and takes it. -/
theorem step_execute_within (hmode : s.mode = .execute f) (hrest : s.heap.Resting)
    (hbudget : s.budget ≠ 0) (hcounting : s.counting = true) (hleft : 1 < s.left)
    (hi : f.proto.code[f.pc]? = some i) :
    s.tidy.step =
      { s with mode := .deliver [], left := s.left - 1 }.execute { f with pc := f.pc + 1 } i := by
  have hcount : (s.budget != 0 && s.counting) = true := by simp [hbudget, hcounting]
  rw [tidy_eq hrest]
  unfold step
  simp only [hmode, if_pos hcount, if_neg (Nat.not_le.mpr hleft)]
  unfold step.advance
  rw [hi]

theorem run_of_ended {e : Ending} (hs : s.mode = .ended e) (n : Nat) : s.run n = s := by
  cases n with
  | zero => rfl
  | succ n =>
    unfold run
    rw [hs]

theorem run_succ (hs : ∀ e, s.mode ≠ .ended e) (n : Nat) :
    s.run (n + 1) = s.tidy.step.run n := by
  rw [run]
  split
  · exact absurd ‹_› (hs _)
  · rfl

/-- The machine runs a library function that is no protected call. -/
theorem call_builtin (s : State) (o : Origin) {f : Builtin} (hpcall : f ≠ .base .pcall)
    (hxpcall : f ≠ .base .xpcall) (args : List Value) :
    s.call o (.builtin f) args = s.perform (.library (some f)) (f.run args) := by
  unfold call
  split
  · cases ‹Value.builtin f = _›
  · cases ‹Value.builtin f = _›
    exact absurd rfl hpcall
  · cases ‹Value.builtin f = _›
    exact absurd rfl hxpcall
  · cases ‹Value.builtin f = _›
    rfl
  · cases ‹Value.builtin f = _›
  · rename_i hbuiltin _
    exact absurd rfl (hbuiltin f)

/-- A value of a table is read. -/
theorem execute_index {dst r : Nat} {object key : Operand} {v : Value}
    (hobject : f.fetch s.heap object = .table r)
    (hv : (s.heap.table r).getValue (f.fetch s.heap key) = v) (hsome : v.isNil = false) :
    s.execute f (.index dst object key) = s.go (f.put dst v) := by
  simp only [execute, hobject, hv, hsome, Bool.false_eq_true, if_false]

/-- A direct instruction takes at most three moves. -/
theorem execute_direct (hi : f.Direct s.heap i h' f') :
    ∃ n ≤ 2, ∀ m, (s.execute f i).run (n + m) =
      ({ s with heap := h', mode := .execute f' } : State).run m := by
  cases hi with
  | move src => exact ⟨0, by omega, fun m => by rw [Nat.zero_add]; rfl⟩
  | newTable dst array slots => exact ⟨0, by omega, fun m => by rw [Nat.zero_add]; rfl⟩
  | index key hobject hv hsome =>
    refine ⟨0, by omega, fun m => ?_⟩
    rw [Nat.zero_add, execute_index hobject hv hsome]
    rfl
  | @indexThrough dst r object key v _ hobject hnil hv =>
    -- the value is handed over by a move of its own
    refine ⟨1, by omega, fun m => ?_⟩
    let waiting : Frame := { f with want := .registers dst 1 }
    have hexecute : s.execute f (.index dst object key) = { s with
        heap := h', stack := .script waiting :: s.stack, mode := .deliver [v] } := by
      simp only [execute, hobject, hnil, if_true, operate1, operate, perform, follow, bind,
        Action.bind, hv]
      rfl
    rw [hexecute, Nat.add_comm, run_succ (fun e he => by cases he)]
    rfl
  | setIndex hobject hk hmeta =>
    refine ⟨0, by omega, fun m => ?_⟩
    rw [Nat.zero_add]
    simp only [execute, hobject, hk, hmeta, Option.isNone_none]
  | @call fn count more b _ vs hcallee hpcall hxpcall hrun =>
    -- one more move calls the function, and another one hands its values over
    refine ⟨2, by omega, fun m => ?_⟩
    let waiting : Frame := { f with want := .none, hand := [] }
    let called : State := { s with
      stack := .script waiting :: s.stack
      mode := .call .operation (.builtin b) (f.gather (fn + 1) count more) }
    have hexecute : s.execute f (.call fn count more .none) = called := by
      simp only [execute, callFrom, hcallee]
      rfl
    have hcall : called.tidy.step =
        { s with heap := h', stack := .script waiting :: s.stack, mode := .deliver vs } := by
      show ({ called with mode := .deliver [] } : State).call .operation (.builtin b) _ = _
      rw [call_builtin _ _ hpcall hxpcall]
      show ({ called with heap := {}, mode := .deliver [] } : State).follow _
        (b.run (f.gather (fn + 1) count more) s.heap) = _
      rw [hrun]
      rfl
    rw [hexecute, Nat.add_comm, Nat.add_succ, run_succ (fun e he => by cases he), hcall,
      run_succ (fun e he => by cases he)]
    rfl

/-- The machine gets through code of direct instructions. -/
theorem run_along (hmode : s.mode = .execute f) (hbudget : s.budget = 0)
    {rest : List Instr} (hcode : f.proto.code.toList.drop f.pc = code ++ rest)
    (hrun : Frame.Along s.heap f code h' f') :
    ∃ n ≤ 3 * code.length, ∀ m, s.run (n + m) =
      ({ s with heap := h', mode := .execute f' } : State).run m := by
  generalize hheap : s.heap = g at hrun
  induction hrun generalizing s with
  | nil g f =>
    refine ⟨0, Nat.zero_le _, fun m => ?_⟩
    rw [Nat.zero_add, ← hmode, ← hheap]
  | @cons g h₁ h₂ f f₁ f₂ i code hdue hi hrest ih =>
    subst hheap
    have hnext : f.proto.code[f.pc]? = some i := by
      rw [← Array.getElem?_toList, ← List.head?_drop, hcode]
      rfl
    have hlater : f₁.proto.code.toList.drop f₁.pc = code ++ rest := by
      obtain ⟨hproto, -, hpc⟩ := hi.rest
      rw [hproto, hpc, ← List.tail_drop, hcode]
      rfl
    obtain ⟨n, hn, hfirst⟩ := execute_direct (s := { s with mode := .deliver [] }) hi
    obtain ⟨m, hm, hall⟩ := ih (s := { s with heap := h₁, mode := .execute f₁ }) rfl hbudget hlater
      rfl
    refine ⟨n + m + 1, by rw [List.length_cons]; omega, fun k => ?_⟩
    have hfuel : n + m + 1 + k = (n + (m + k)) + 1 := by omega
    rw [hfuel, run_succ (by rw [hmode]; nofun), tidy_of_not_due hdue,
      step_execute hmode hbudget hnext, hfirst, hall]

/-- When a return comes after it, what is returned is delivered. -/
theorem run_straight {closes : Bool} (hmode : s.mode = .execute f) (hbudget : s.budget = 0)
    (hstack : s.stack = [.root closes]) {first count : Nat}
    (hcode : f.proto.code.toList.drop f.pc = code ++ [.ret first count false])
    (hrun : Frame.Along s.heap f code h' f') (hlimit : h'.limit = none) (patience : Nat)
    (hpatience : 3 * code.length + 2 ≤ patience) :
    (s.run patience).heap = h'.tended (s.held ++ f'.rootsAt h' f'.pc []) ∧
      (s.run patience).mode = .ended (.values (f'.gather first count false)) := by
  obtain ⟨n, hn, hall⟩ := run_along hmode hbudget hcode hrun
  obtain ⟨m, rfl⟩ : ∃ m, patience = n + (m + 1 + 1) := ⟨patience - n - 2, by omega⟩
  obtain ⟨hproto, -, hpc⟩ := hrun.rest
  have hret : f'.proto.code[f'.pc]? = some (.ret first count false) := by
    have hdrop : f'.proto.code.toList.drop f'.pc = [.ret first count false] := by
      rw [hproto, hpc, ← List.drop_drop, hcode, List.drop_left]
    rw [← Array.getElem?_toList, ← List.head?_drop, hdrop]
    rfl
  let reached : State := { s with heap := h', mode := .execute f' }
  let g : Heap := h'.tended (s.held ++ f'.rootsAt h' f'.pc [])
  let returned : State :=
    { s with
      heap := g
      mode := .deliver (f'.gather first count false)
      slots := s.slots - (f'.proto.registers + 2) }
  have hreturn : reached.tidy.step = returned := by
    rw [tidy_execute (s := reached) rfl hstack hlimit]
    exact step_execute (s := { reached with heap := g }) rfl hbudget hret
  -- one more move takes what is returned off the stack, which ends the run
  have hended : returned.tidy.step = { returned with
      stack := [], mode := .ended (.values (f'.gather first count false)) } := by
    show returned.deliver _ = _
    simp only [deliver, returned, hstack]
  rw [hall, run_succ (fun e he => by cases he), hreturn, run_succ (fun e he => by cases he), hended,
    run_of_ended rfl]
  exact ⟨rfl, rfl⟩

/-- A function that has been called without arguments from outside. -/
def entered (h : Heap) (closes : Bool) (budget : Option Nat) (held : List Value) (r : Nat)
    (c : Closure) : State :=
  { start h closes budget held (.function (.closure r)) [] with
    mode := .execute (.initial c), slots := c.proto.registers + 2 }

/-- The first move of the call of a function enters it. -/
theorem step_start {closes : Bool} {budget : Option Nat} {held : List Value} {r : Nat}
    {c : Closure} (hr : h.closures[r]? = some c) (hroom : c.proto.registers < 10) :
    (start h closes budget held (.function (.closure r)) []).tidy.step =
      entered h closes budget held r c := by
  let s : State :=
    { start h closes budget held (.function (.closure r)) [] with mode := .deliver [] }
  have hfull : s.isFull c.proto = false := by
    refine decide_eq_false fun hlt => ?_
    have hlt : 1000000 + 0 < 0 + c.proto.registers + 2 := hlt
    omega
  have hclosure : (s.heap.closures[r]?).getD default = c := by
    show (h.closures[r]?).getD default = c
    rw [hr]
    rfl
  -- there are no arguments to fill the registers with
  have hfill (registers : Array Value) (count : Nat) :
      enter.fill registers count 0 [] = registers := by
    cases count <;> rfl
  show s.enterIfRoom r [] = _
  unfold enterIfRoom
  simp only [hclosure, hfull, enter, hfill, List.drop_nil, ite_self]
  exact congrArg (fun n => ({ s with mode := .execute (.initial c), slots := n } : State))
    (congrArg (· + 2) (Nat.zero_add _))

end State

/-- A call of a function of direct instructions that returns nothing. -/
theorem Heap.perform_straight {r : Nat} {c : Closure} (hr : h.closures[r]? = some c)
    (hroom : c.proto.registers < 10) (hcode : c.proto.code.toList = code ++ [.ret 0 0 false])
    (hrun : Frame.Along h (.initial c) code h' f') (hlimit : h'.limit = none) (closes : Bool)
    (held : List Value) {patience : Nat} (hpatience : 3 * code.length + 3 ≤ patience) :
    h.perform patience closes none held (.function (.closure r)) [] =
      (h'.tended (held ++ f'.rootsAt h' f'.pc []), .values []) := by
  obtain ⟨n, rfl⟩ : ∃ n, patience = n + 1 := ⟨patience - 1, by omega⟩
  have hend := (State.entered h closes none held r c).run_straight rfl rfl rfl
    (List.drop_zero.trans hcode) hrun hlimit n (by omega)
  have hvalues : f'.gather 0 0 false = [] := by simp [Frame.gather]
  rw [hvalues] at hend
  unfold Heap.perform
  dsimp only
  rw [State.run_succ (fun e he => by cases he), State.step_start hr hroom, State.conclusion, hend.1,
    hend.2]
  rfl

end Script

open Script (Heap Value)

namespace Host

variable {host : Host} {sandbox : Sandbox} {source : ByteArray} {label : String} {p : Script.Proto}

/-- The heap with a function of a sandbox that is about to be run. -/
def loaded (host : Host) (sandbox : Sandbox) (p : Script.Proto) : Heap :=
  { ((host.heap.newCell (.table sandbox.env)).1.newClosure ⟨p, #[host.heap.cells.size]⟩).1 with
    tripped := false }

/-- The function has the table of global variables at hand. -/
theorem cell_loaded (host : Host) (sandbox : Sandbox) (p : Script.Proto) :
    (host.loaded sandbox p).cell host.heap.cells.size = .table sandbox.env := by
  simp [loaded, Heap.newClosure, Heap.newCell, Heap.cell]

/-- The function of a source that is compiled. -/
theorem compile_of_eq_ok (hlabel : Bytes.indexOf? label.toUTF8 (· == 0) 0 = none)
    (hbinary : (0 < source.size && Bytes.byte source 0 == Script.Library.binaryMark) = false)
    (hp : Script.compile (Script.chunkName ("=" ++ label).toUTF8) source = .ok p) :
    host.compile sandbox source label =
      .ok (host.withHeap ((host.heap.newCell (.table sandbox.env)).1.newClosure
        ⟨p, #[host.heap.cells.size]⟩).1, .function (.closure host.heap.closures.size)) := by
  unfold compile Interpreter.define
  simp only [hlabel, hbinary, hp]
  rfl

/-- A script whose function gives values within its budget. -/
theorem executeWithin_of_values {host' : Host} {f : Value} {s : Interpreter} {vs : List Value}
    {patience : Nat} {budget : Option Nat} (hf : host.compile sandbox source label = .ok (host', f))
    (hs : ((host'.withHeap { host'.heap with tripped := false }).interpreter.hold
      (.table sandbox.env)).execute patience budget f = (s, .values vs))
    (htripped : s.heap.tripped = false) :
    ∃ host'', host.executeWithin patience sandbox source label budget = (host'', .ok vs) ∧
      host''.heap = s.heap := by
  unfold executeWithin
  rw [hf]
  dsimp only
  rw [hs]
  dsimp only
  rw [htripped]
  exact ⟨_, rfl, rfl⟩

/-- Without a limit and a budget, a script of direct instructions is run to its end. -/
theorem executeWithin_straight (hlabel : Bytes.indexOf? label.toUTF8 (· == 0) 0 = none)
    (hbinary : (0 < source.size && Bytes.byte source 0 == Script.Library.binaryMark) = false)
    (hp : Script.compile (Script.chunkName ("=" ++ label).toUTF8) source = .ok p)
    (hroom : p.registers < 10) {code : List Script.Instr} (patience : Nat)
    (hpatience : 3 * code.length + 3 ≤ patience)
    (hcode : p.code.toList = code ++ [.ret 0 0 false]) {h : Heap} {f : Script.Frame}
    (hrun : Script.Frame.Along (host.loaded sandbox p) (.initial ⟨p, #[host.heap.cells.size]⟩)
      code h f) (hlimit : h.limit = none) (htripped : h.tripped = false) :
    ∃ host', host.executeWithin patience sandbox source label none = (host', .ok []) ∧
      host'.heap =
        h.tended (.table sandbox.env :: host.interpreter.held ++ f.rootsAt h f.pc []) := by
  have hclosure : (host.loaded sandbox p).closures[host.heap.closures.size]? =
      some ⟨p, #[host.heap.cells.size]⟩ := by
    simp [loaded, Heap.newClosure, Heap.newCell]
  let held := Value.table sandbox.env :: host.interpreter.held
  have hperform := Heap.perform_straight hclosure hroom hcode hrun hlimit false held hpatience
  have hcompile := @compile_of_eq_ok host sandbox source label p hlabel hbinary hp
  refine executeWithin_of_values hcompile (s := { host.interpreter with
    heap := h.tended (held ++ f.rootsAt h f.pc []), held := held }) ?_
    ((h.tripped_tended _).trans htripped)
  exact congrArg (fun r : Heap × Script.Conclusion => (({ host.interpreter with
    heap := r.1, held := .table sandbox.env :: host.interpreter.held } : Interpreter), r.2))
    hperform

end Host

end StoryPack
