/-
States of the machine whose references are renamed.

Two states correspond when their heaps do, and when the same waits on their
stacks and goes on at their tops, but for references.  What an error says does
not depend on references, so it is the same in both.

* `Renaming.frame`, `Task.Renamed`, `Renaming.mode` — what a state is made of;
* `State.Renamed` — states that correspond;
* `State.nest_renamed`, `State.follow_renamed`, … — one statement for each
  function that moves are made of.
-/
import StoryPack.Proofs.Renaming.Library
import StoryPack.Proofs.Confinement.Run
import Mathlib.Data.List.Forall2

namespace StoryPack.Script

variable {σ : Renaming}

namespace Renaming

/-- Variables to be closed, with the references in them renamed. -/
def marked (σ : Renaming) (cs : List (Nat × Value)) : List (Nat × Value) :=
  cs.map fun c => (c.1, σ.value c.2)

/-- A call of a script function with its references renamed. -/
def frame (σ : Renaming) (f : Frame) : Frame :=
  { f with
    upvalues := f.upvalues.map σ.cell
    registers := f.registers.map σ.value
    boxes := f.boxes.map σ.cell
    varargs := σ.values f.varargs
    hand := σ.values f.hand
    closing := σ.marked f.closing }

/-- A failure with its references renamed. -/
def failure (σ : Renaming) : Failure → Failure
  | .thrown v => .thrown (σ.value v)
  | .memory => .memory

/-- What goes on, with its references renamed. -/
def mode (σ : Renaming) : Mode → Mode
  | .execute f => .execute (σ.frame f)
  | .call o f args => .call o (σ.value f) (σ.values args)
  | .deliver vs => .deliver (σ.values vs)
  | .raise e => .raise (σ.failure e)
  | .unwind e => .unwind (σ.failure e)
  | .ended (.values vs) => .ended (.values (σ.values vs))
  | .ended (.failed e) => .ended (.failed (σ.failure e))

/-- How a call has ended, with its references renamed. -/
def conclusion (σ : Renaming) : Conclusion → Conclusion
  | .values vs => .values (σ.values vs)
  | .failed e => .failed (σ.failure e)
  | .unfinished => .unfinished

end Renaming

/-- The rest of an action, with the references in it renamed. -/
def Rest.Renamed (σ : Renaming) (k k' : Rest) : Prop :=
  ∀ h h' vs, h.Renamed σ h' → (k h vs).Renamed σ σ.values (k' h' (σ.values vs))

/-- A waiting task with its references renamed. -/
inductive Task.Renamed (σ : Renaming) : Task → Task → Prop
  | script (f : Frame) : Task.Renamed σ (.script f) (.script (σ.frame f))
  | library (b : Option Builtin) {k k' : Rest} (hk : Rest.Renamed σ k k') :
    Task.Renamed σ (.library b k) (.library b k')
  | operation {k k' : Rest} (hk : Rest.Renamed σ k k') :
    Task.Renamed σ (.operation k) (.operation k')
  | guard (handler : Option Value) (counting : Bool) :
    Task.Renamed σ (.guard handler counting) (.guard (handler.map σ.value) counting)
  | handling : Task.Renamed σ .handling .handling
  | closing (e : Failure) (cs : List (Nat × Value)) :
    Task.Renamed σ (.closing e cs) (.closing (σ.failure e) (σ.marked cs))
  | root (closes : Bool) : Task.Renamed σ (.root closes) (.root closes)

/-- A stack with its references renamed. -/
abbrev Stack.Renamed (σ : Renaming) : List Task → List Task → Prop := List.Forall₂ (Task.Renamed σ)

/-- States that are alike but for their heaps, what goes on at their tops, and references. -/
structure State.Alike (σ : Renaming) (s u : State) : Prop where
  stack : Stack.Renamed σ s.stack u.stack
  budget : u.budget = s.budget
  left : u.left = s.left
  counting : u.counting = s.counting
  depth : u.depth = s.depth
  slots : u.slots = s.slots
  handlers : u.handlers = s.handlers

/-- A state is another one with its references renamed. -/
structure State.Renamed (σ : Renaming) (s u : State) : Prop extends State.Alike σ s u where
  heap : s.heap.Renamed σ u.heap
  mode : u.mode = σ.mode s.mode

/-! ### Frames -/

namespace Frame

variable (f : Frame) {h h' : Heap}

theorem getD_registers (r : Nat) :
    (σ.frame f).registers.getD r .nil = σ.value (f.registers.getD r .nil) := by
  simp only [Renaming.frame, Array.getD_eq_getD_getElem?, Array.getElem?_map]
  cases f.registers[r]? <;> rfl

theorem getD_cells (cells : Array Nat) (i : Nat) :
    (cells.map σ.cell).getD i 0 = σ.cell (cells.getD i 0) := by
  simp only [Array.getD_eq_getD_getElem?, Array.getElem?_map]
  cases cells[i]? with
  | none => exact σ.cell_zero.symm
  | some c => rfl

theorem fetch_frame (hh : h.Renamed σ h') (o : Operand) :
    (σ.frame f).fetch h' o = σ.value (f.fetch h o) := by
  cases o with
  | register r => exact f.getD_registers r
  | constant c => exact (σ.value_constant c).symm
  | upvalue n =>
    show h'.cell ((f.upvalues.map σ.cell).getD n 0) = _
    rw [getD_cells, hh.cell]
    rfl
  | box b =>
    show h'.cell ((f.boxes.map σ.cell).getD b 0) = _
    rw [getD_cells, hh.cell]
    rfl

theorem put_frame (r : Nat) (v : Value) : (σ.frame f).put r (σ.value v) = σ.frame (f.put r v) := by
  simp only [Renaming.frame, put, Array.set!_eq_setIfInBounds, Array.map_setIfInBounds]

theorem putAll_frame (r count : Nat) (vs : List Value) :
    (σ.frame f).putAll r count (σ.values vs) = σ.frame (f.putAll r count vs) := by
  induction count generalizing f r vs with
  | zero => rfl
  | succ count ih =>
    cases vs with
    | nil => exact (congrArg (putAll · (r + 1) count []) (f.put_frame r .nil)).trans (ih _ _ [])
    | cons v vs =>
      exact (congrArg (putAll · (r + 1) count (σ.values vs)) (f.put_frame r v)).trans (ih _ _ vs)

theorem gather_frame (first count : Nat) (more : Bool) :
    (σ.frame f).gather first count more = σ.values (f.gather first count more) := by
  have hextract : ((f.registers.map σ.value).extract first (first + count)).toList =
      σ.values (f.registers.extract first (first + count)).toList := by
    simp [Renaming.values, List.map_drop, List.map_take]
  unfold gather
  rw [σ.values_append, ← hextract]
  cases more <;> rfl

end Frame

/-! ### What errors say -/

section

variable {stack stack' : List Task}

theorem calledName_renamed (hs : Stack.Renamed σ stack stack') :
    calledName stack' = calledName stack := by
  cases hs with
  | nil => rfl
  | cons ht hs =>
    cases ht with
    | operation =>
      cases hs with
      | nil => rfl
      | cons ht => cases ht <;> rfl
    | _ => rfl

theorem positionAt_renamed (hs : Stack.Renamed σ stack stack') (level : Nat) :
    positionAt stack' level = positionAt stack level := by
  induction hs generalizing level with
  | nil => rfl
  | cons ht hs ih =>
    cases ht with
    | script f =>
      simp only [positionAt, ih]
      rfl
    | _ => simp only [positionAt, ih]

theorem argumentMessage_renamed (hs : Stack.Renamed σ stack stack') (f : Option Builtin) (n : Nat)
    (m : ByteArray) : argumentMessage stack' f n m = argumentMessage stack f n m := by
  unfold argumentMessage
  rw [calledName_renamed hs]

theorem operatorPlace_renamed (hs : Stack.Renamed σ stack stack') (o : Origin) (which : Nat) :
    operatorPlace stack' o which = operatorPlace stack o which := by
  cases o with
  | library f => rfl
  | operation =>
    cases hs with
    | nil => rfl
    | cons ht hs => cases ht <;> rfl

theorem calledPlace_renamed (hs : Stack.Renamed σ stack stack') (o : Origin) :
    calledPlace stack' o = calledPlace stack o := by
  cases o with
  | library f => rfl
  | operation =>
    cases hs with
    | nil => rfl
    | cons ht hs =>
      cases ht with
      | operation =>
        cases hs with
        | nil => rfl
        | cons ht => cases ht <;> rfl
      | _ => rfl

theorem handler?_renamed (hs : Stack.Renamed σ stack stack') :
    handler? stack' = (handler? stack).map σ.value := by
  induction hs with
  | nil => rfl
  | cons ht hs ih =>
    cases ht with
    | guard => rfl
    | _ => exact ih

theorem closesOnError_renamed (hs : Stack.Renamed σ stack stack') :
    closesOnError stack' = closesOnError stack := by
  induction hs with
  | nil => rfl
  | cons ht hs ih =>
    cases ht with
    | guard | root => rfl
    | _ => exact ih

theorem countingBefore_renamed (hs : Stack.Renamed σ stack stack') :
    countingBefore stack' = countingBefore stack := by
  induction hs with
  | nil => rfl
  | cons ht hs ih =>
    cases ht with
    | guard => rfl
    | _ => exact ih

theorem resolve_renamed {h h' : Heap} (hh : h.Renamed σ h') (hs : Stack.Renamed σ stack stack')
    (o : Origin) (e : Raised) :
    (resolve h stack o e).1.Renamed σ (resolve h' stack' o (σ.raised e)).1 ∧
      (resolve h' stack' o (σ.raised e)).2 = σ.failure (resolve h stack o e).2 := by
  cases e with
  | value v => exact ⟨hh, rfl⟩
  | located level m =>
    simp only [resolve, Renaming.raised, positionAt_renamed hs]
    exact ⟨hh.countString _, rfl⟩
  | argument n m =>
    simp only [resolve, Renaming.raised, positionAt_renamed hs, argumentMessage_renamed hs]
    exact ⟨hh.countString _, rfl⟩
  | operation m =>
    simp only [resolve, Renaming.raised, operatorPlace_renamed hs]
    exact ⟨hh.countString _, rfl⟩
  | operand verb t which =>
    simp only [resolve, Renaming.raised, operatorPlace_renamed hs]
    exact ⟨hh.countString _, rfl⟩
  | notIntegral which =>
    simp only [resolve, Renaming.raised, operatorPlace_renamed hs]
    exact ⟨hh.countString _, rfl⟩
  | host f =>
    obtain ⟨hheap, href⟩ := hh.newFault f
    exact ⟨hheap, congrArg (fun r => Failure.thrown (.fault r)) href⟩
  | memory => exact ⟨hh, rfl⟩

end

/-! ### Moves -/

namespace State

variable {s u : State}

theorem unwinding_renamed (hs : s.Alike σ u) (hh : s.heap.Renamed σ u.heap) (e : Failure) :
    (s.unwinding e).Renamed σ (u.unwinding (σ.failure e)) := by
  unfold unwinding
  rw [closesOnError_renamed hs.stack, countingBefore_renamed hs.stack]
  split
  · exact { hs with counting := rfl, heap := hh, mode := rfl }
  · exact { hs with heap := hh, mode := rfl }

theorem go_renamed (hs : s.Alike σ u) (hh : s.heap.Renamed σ u.heap) (f : Frame) :
    (s.go f).Renamed σ (u.go (σ.frame f)) := { hs with heap := hh, mode := rfl }

theorem raise_renamed (hs : s.Alike σ u) (hh : s.heap.Renamed σ u.heap) (e : Failure) :
    (s.raise e).Renamed σ (u.raise (σ.failure e)) := { hs with heap := hh, mode := rfl }

theorem fail_renamed (hs : s.Alike σ u) (hh : s.heap.Renamed σ u.heap) (o : Origin)
    (e : Raised) : (s.fail o e).Renamed σ (u.fail o (σ.raised e)) := by
  obtain ⟨hheap, hfailure⟩ := resolve_renamed hh hs.stack o e
  exact { hs with heap := hheap, mode := congrArg Mode.raise hfailure }

theorem nest_renamed (hs : s.Alike σ u) (hh : s.heap.Renamed σ u.heap) {t t' : Task}
    (ht : t.Renamed σ t') (o : Origin) (f : Value) (args : List Value) :
    (s.nest t o f args).Renamed σ (u.nest t' o (σ.value f) (σ.values args)) := by
  unfold nest
  rw [hs.depth]
  dsimp only
  have hstack : Stack.Renamed σ (t :: s.stack) (t' :: u.stack) := .cons ht hs.stack
  split
  · obtain ⟨hheap, hfailure⟩ := resolve_renamed hh hs.stack o
      (.operation "C stack overflow".toUTF8)
    exact { hs with
      stack := hstack, depth := rfl, heap := hheap, mode := congrArg Mode.raise hfailure }
  · split
    · exact unwinding_renamed
        (s := { s with stack := t :: s.stack, depth := s.depth + 1 })
        (u := { u with stack := t' :: u.stack, depth := s.depth + 1 })
        { hs with stack := hstack, depth := rfl } hh tooDeep
    · exact { hs with stack := hstack, depth := rfl, heap := hh, mode := rfl }

/-- The course of an action is taken up. The heaps come with it. -/
theorem follow_renamed (hs : s.Alike σ u) (o : Origin) {r r' : Run (List Value)}
    (hr : r.Renamed σ σ.values r') : (s.follow o r).Renamed σ (u.follow o r') := by
  cases hr with
  | done hh vs => exact { hs with heap := hh, mode := rfl }
  | @failed h h' hh e =>
    exact fail_renamed (s := { s with heap := h }) (u := { u with heap := h' }) { hs with } hh o e
  | @call h h' hh f args next next' hnext =>
    have hrest : Rest.Renamed σ next next' := fun h h' vs hh => hnext h h' vs hh
    cases o with
    | library b =>
      exact nest_renamed (s := { s with heap := h }) (u := { u with heap := h' }) { hs with } hh
        (.library b hrest) _ f args
    | operation =>
      exact nest_renamed (s := { s with heap := h }) (u := { u with heap := h' }) { hs with } hh
        (.operation hrest) _ f args

theorem perform_renamed (hs : s.Alike σ u) (hh : s.heap.Renamed σ u.heap) (o : Origin)
    {a a' : Action (List Value)} (ha : a.Renamed σ σ.values a') :
    (s.perform o a).Renamed σ (u.perform o a') :=
  follow_renamed (s := { s with heap := {} }) (u := { u with heap := {} }) { hs with } o
    (ha s.heap u.heap hh)

theorem fill_renamed (registers : Array Value) (count i : Nat) (args : List Value) :
    enter.fill (registers.map σ.value) count i (σ.values args) =
      (enter.fill registers count i args).map σ.value := by
  induction count generalizing registers i args with
  | zero => rfl
  | succ count ih =>
    cases args with
    | nil => rfl
    | cons v vs =>
      rw [σ.values_cons, enter.fill, enter.fill, ← ih]
      simp only [Array.set!_eq_setIfInBounds, Array.map_setIfInBounds]

theorem enter_renamed (hs : s.Alike σ u) (hh : s.heap.Renamed σ u.heap) (c : Closure)
    (args : List Value) : (s.enter c args).Renamed σ (u.enter (σ.closed c) (σ.values args)) := by
  refine { hs with slots := congrArg (· + c.proto.registers + 2) hs.slots, heap := hh, mode := ?_ }
  have hregisters : enter.fill (Array.replicate c.proto.registers .nil) c.proto.parameters 0
      (σ.values args) = (enter.fill (Array.replicate c.proto.registers .nil) c.proto.parameters 0
        args).map σ.value := by
    rw [← fill_renamed, Array.map_replicate, σ.value_nil]
  have hboxes : (if c.proto.boxes == 0 then #[] else Array.replicate c.proto.boxes 0) =
      (if c.proto.boxes == 0 then #[] else Array.replicate c.proto.boxes 0).map σ.cell := by
    split
    · exact Array.map_empty.symm
    · rw [Array.map_replicate, σ.cell_zero]
  have hvarargs : (if c.proto.isVararg then (σ.values args).drop c.proto.parameters else []) =
      σ.values (if c.proto.isVararg then args.drop c.proto.parameters else []) := by
    split
    · exact σ.drop_values args _
    · rfl
  show Mode.execute _ = Mode.execute _
  simp only [Renaming.frame, Renaming.closed, hregisters, ← hboxes, ← hvarargs]
  rfl

theorem isFull_renamed (hs : s.Alike σ u) (p : Proto) : u.isFull p = s.isFull p := by
  unfold isFull
  rw [hs.handlers, hs.slots]

theorem enterIfRoom_renamed (hs : s.Alike σ u) (hh : s.heap.Renamed σ u.heap) (r : Nat)
    (args : List Value) :
    (s.enterIfRoom r args).Renamed σ (u.enterIfRoom (σ.closure r) (σ.values args)) := by
  unfold enterIfRoom
  dsimp only
  rw [hh.closure, isFull_renamed hs]
  change Renamed σ (if _ then _ else _)
    (if s.isFull ((s.heap.closures[r]?).getD default).proto then _ else _)
  split
  · exact fail_renamed hs hh _ _
  · exact enter_renamed hs hh _ args

theorem notCallable_renamed (hs : s.Alike σ u) (hh : s.heap.Renamed σ u.heap) (o : Origin)
    (f : Value) : (s.notCallable o f).Renamed σ (u.notCallable o (σ.value f)) := by
  unfold notCallable
  rw [calledPlace_renamed hs.stack, hh.typeName]
  exact raise_renamed (s := { s with heap := s.heap.countString _ })
    (u := { u with heap := u.heap.countString _ }) { hs with } (hh.countString _) _

/-- What is called instead of a value, given what its metatable holds for that. -/
def calledField (h : Heap) (room : Nat) (f : Value) (field : Value) (args : List Value) :
    Option (Value × List Value) :=
  match field with
  | .nil => some (f, args)
  | g => calledThrough h room g (f :: args)

theorem calledThrough_renamed {h h' : Heap} (hh : h.Renamed σ h') (room : Nat) (f : Value)
    (args : List Value) :
    calledThrough h' room (σ.value f) (σ.values args) =
      (calledThrough h room f args).map fun p => (σ.value p.1, σ.values p.2) := by
  induction room generalizing f args with
  | zero => rfl
  | succ room ih =>
    have hthrough (f : Value) :
        calledField h' room (σ.value f) (h'.metafield (σ.value f) Event.call) (σ.values args) =
          (calledField h room f (h.metafield f Event.call) args).map
            fun p => (σ.value p.1, σ.values p.2) := by
      rw [hh.metafield]
      generalize h.metafield f Event.call = g
      cases g with
      | nil => rfl
      | _ => exact ih _ (f :: args)
    cases f with
    | function f => rfl
    | fault r => exact hthrough (.fault r)
    | _ => exact hthrough _

/-- A protected call with a message handler. -/
theorem callWithHandler_renamed (hs : s.Alike σ u) (hh : s.heap.Renamed σ u.heap) (o : Origin)
    (args : List Value) :
    (s.call o (.builtin (.base .xpcall)) args).Renamed σ
      (u.call o (.builtin (.base .xpcall)) (σ.values args)) := by
  have hfail : (s.fail (.library (some (.base .xpcall))) (.argument 2
        ("function expected, got ".toUTF8 ++ Argument.typeName s.heap args 2))).Renamed σ
      (u.fail (.library (some (.base .xpcall))) (.argument 2
        ("function expected, got ".toUTF8 ++ Argument.typeName u.heap (σ.values args) 2))) := by
    rw [Argument.typeName_renamed hh]
    exact fail_renamed hs hh _ _
  cases args with
  | nil => exact hfail
  | cons g args =>
    cases args with
    | nil => exact hfail
    | cons handler args =>
      cases handler with
      | function m =>
        show State.Renamed σ (s.nest _ _ g args)
          (u.nest (.guard (some (σ.value (.function m))) u.counting) _ _ _)
        rw [hs.counting]
        exact nest_renamed hs hh (.guard (some (.function m)) s.counting) _ g args
      | _ => exact hfail

/-- The call of what metatables have led to, if they have. -/
def callReached (s : State) (o : Origin) : Option (Value × List Value) → State
  | none => s.fail o (.operation "stack overflow".toUTF8)
  | some (.function g, args) => { s with mode := .call o (.function g) args }
  | some (f, _) => s.notCallable o f

/-- A call of anything but the functions that catch errors, which only protected calls call. -/
theorem call_renamed (hs : s.Alike σ u) (hh : s.heap.Renamed σ u.heap) (o : Origin) (f : Value)
    (args : List Value)
    (hopen : ∀ b : Builtin, f = .builtin b → b ≠ .base .pcall → b ≠ .base .xpcall →
      b.isOpen = true ∨ b = .view .deny) :
    (s.call o f args).Renamed σ (u.call o (σ.value f) (σ.values args)) := by
  have hthrough (f : Value) :
      (s.callReached o (calledThrough s.heap (slotLimit + 1 - s.slots) f args)).Renamed σ
        (u.callReached o
          (calledThrough u.heap (slotLimit + 1 - u.slots) (σ.value f) (σ.values args))) := by
    have hroom : slotLimit + 1 - u.slots = slotLimit + 1 - s.slots := by rw [hs.slots]
    rw [calledThrough_renamed hh, hroom]
    cases calledThrough s.heap (slotLimit + 1 - s.slots) f args with
    | none => exact fail_renamed hs hh o (.operation "stack overflow".toUTF8)
    | some p =>
      obtain ⟨g, args⟩ := p
      cases g with
      | function g =>
        exact State.Renamed.mk (s := { s with mode := .call o (.function g) args })
          { hs with } hh rfl
      | _ => exact notCallable_renamed hs hh o _
  cases f with
  | function f =>
    cases f with
    | closure r => exact enterIfRoom_renamed hs hh r args
    | matcher r => exact perform_renamed hs hh _ (Library.nextMatch_renamed r)
    | builtin b =>
      by_cases hpcall : b = .base .pcall
      · subst hpcall
        cases args with
        | nil =>
          exact fail_renamed hs hh (.library (some (.base .pcall)))
            (.argument 1 "value expected".toUTF8)
        | cons g args =>
          show State.Renamed σ (s.nest _ _ g args) (u.nest (.guard none u.counting) _ _ _)
          rw [hs.counting]
          exact nest_renamed hs hh (.guard none s.counting) _ g args
      by_cases hxpcall : b = .base .xpcall
      · subst hxpcall
        exact callWithHandler_renamed hs hh o args
      have hperform : State.Renamed σ (s.perform (.library (some b)) (b.run args))
          (u.perform (.library (some b)) (b.run (σ.values args))) :=
        perform_renamed hs hh _ (Builtin.run_renamed args (hopen b rfl hpcall hxpcall))
      cases b with
      | base f =>
        cases f <;> first | exact hperform | exact absurd rfl hpcall | exact absurd rfl hxpcall
      | _ => exact hperform
  | _ => exact hthrough _

theorem raised_renamed (hs : s.Alike σ u) (hh : s.heap.Renamed σ u.heap) (e : Failure) :
    (s.raised e).Renamed σ (u.raised (σ.failure e)) := by
  unfold raised
  rw [handler?_renamed hs.stack]
  cases e with
  | memory => exact unwinding_renamed hs hh .memory
  | thrown v =>
    cases handler? s.stack with
    | none => exact unwinding_renamed hs hh (.thrown v)
    | some f =>
      exact nest_renamed (s := { s with handlers := s.handlers + 1 })
        (u := { u with handlers := u.handlers + 1 })
        { hs with handlers := congrArg (· + 1) hs.handlers } hh .handling _ f [v]

/-- An operator at work for a script function. -/
theorem operate_renamed (hs : s.Alike σ u) (hh : s.heap.Renamed σ u.heap) (f : Frame)
    (want : Want) {a a' : Action (List Value)} (ha : a.Renamed σ σ.values a') :
    (s.operate f want a).Renamed σ (u.operate (σ.frame f) want a') :=
  perform_renamed (s := { s with stack := .script { f with want := want } :: s.stack })
    (u := { u with stack := .script { σ.frame f with want := want } :: u.stack })
    { hs with stack := .cons (.script { f with want := want }) hs.stack } hh .operation ha

theorem operate1_renamed (hs : s.Alike σ u) (hh : s.heap.Renamed σ u.heap) (f : Frame)
    (dst : Nat) {a a' : Action Value} (ha : a.Renamed σ σ.value a') :
    (s.operate1 f dst a).Renamed σ (u.operate1 (σ.frame f) dst a') :=
  operate_renamed hs hh f (.registers dst 1) (ha.bind fun v => .pure [v])

theorem trip_renamed (hs : s.Alike σ u) (hh : s.heap.Renamed σ u.heap) (f : Frame) :
    (s.trip f).Renamed σ (u.trip (σ.frame f)) := by
  obtain ⟨hheap, hfault⟩ := (hh.setTripped true).newFault (.runtime overrunMessage.toUTF8)
  exact { hs with
    heap := hheap
    left := hs.budget
    counting := rfl
    stack := .cons (.script { f with want := .result }) hs.stack
    mode := congrArg (fun r => Mode.raise (.thrown (.fault r))) hfault }

end State

end StoryPack.Script
