/-
What moves of the machine do to the stack.

A move looks at no more than the task on top of the stack.  Values and errors
that arrive there take it off, everything else leaves it where it is, and in
either case other tasks may be put on top.  So what has been put above a stack
stays above it, until the last of it is taken off.

* `State.Above` — a state that stands above a stack;
* `State.Failing` — an error is about;
* `State.step_above_stack` — moves that take nothing off;
* `State.step_above` — any move takes off no more than the task on top;
* `State.Above.step` — what is above a stack stays there, until something arrives
  at the stack itself.
-/
import StoryPack.Script.Run

namespace StoryPack.Script

/-- The bottom of a stack. -/
def Task.IsRoot : Task → Prop
  | .root _ => True
  | _ => False

/-- Values and errors that arrive at the top of the stack take a task off it. -/
def Mode.Arrives : Mode → Prop
  | .deliver _ | .unwind _ => True
  | _ => False

namespace State

/-- A state that stands above a stack: what it has on top of it is no bottom, and the run has not
ended with values. -/
structure Above (stack : List Task) (s : State) : Prop where
  stack : ∃ top, s.stack = top ++ stack ∧ ∀ t ∈ top, ¬t.IsRoot
  mode : ∀ vs, s.mode ≠ .ended (.values vs)

/-- An error has been raised, or is on its way out. -/
def Failing (s : State) : Prop :=
  ∃ e, s.mode = .raise e ∨ s.mode = .unwind e ∨ s.mode = .ended (.failed e)

variable {s : State} {stack : List Task} {t : Task}

theorem Failing.mode_ne (h : s.Failing) (vs : List Value) : s.mode ≠ .ended (.values vs) := by
  obtain ⟨e, h | h | h⟩ := h
  all_goals
    rw [h]
    intro heq
    cases heq

theorem unwinding_failing (s : State) (e : Failure) : (s.unwinding e).Failing := by
  unfold unwinding
  split
  · exact ⟨e, .inr (.inl rfl)⟩
  · exact ⟨e, .inr (.inr rfl)⟩

theorem unwinding_stack (s : State) (e : Failure) : (s.unwinding e).stack = s.stack := by
  unfold unwinding
  split <;> rfl

theorem Above.of_stack (hstack : s.stack = stack) (hmode : ∀ vs, s.mode ≠ .ended (.values vs)) :
    s.Above stack :=
  ⟨⟨[], hstack, fun _ ht => by cases ht⟩, hmode⟩

/-- A state above a stack is above what lies under its top. -/
theorem Above.tail (h : s.Above (t :: stack)) (ht : ¬t.IsRoot) : s.Above stack := by
  obtain ⟨top, hstack, htop⟩ := h.stack
  refine ⟨⟨top ++ [t], by rw [hstack, List.append_assoc]; rfl, fun u hu => ?_⟩, h.mode⟩
  obtain hu | hu := List.mem_append.mp hu
  · exact htop u hu
  · rw [List.mem_singleton.mp hu]
    exact ht

/-- What is above a stack that is above another one. -/
theorem Above.append {top : List Task} (h : s.Above (top ++ stack)) (htop : ∀ t ∈ top, ¬t.IsRoot) :
    s.Above stack := by
  obtain ⟨top', hstack, htop'⟩ := h.stack
  refine ⟨⟨top' ++ top, by rw [hstack, List.append_assoc], fun u hu => ?_⟩, h.mode⟩
  exact (List.mem_append.mp hu).elim (htop' u) (htop u)

theorem ite_above {c : Prop} [Decidable c] {u v : State} (hu : u.Above stack) (hv : v.Above stack) :
    (if c then u else v).Above stack := by
  split
  · exact hu
  · exact hv

/-! ### What moves are made of -/

theorem unwinding_above (s : State) (e : Failure) : (s.unwinding e).Above s.stack := by
  unfold unwinding
  split
  · exact .of_stack rfl fun _ h => by cases h
  · exact .of_stack rfl fun _ h => by cases h

theorem fail_above (s : State) (o : Origin) (e : Raised) : (s.fail o e).Above s.stack :=
  .of_stack rfl fun _ h => by cases h

theorem nest_above (s : State) (t : Task) (o : Origin) (f : Value) (args : List Value) :
    (s.nest t o f args).Above (t :: s.stack) := by
  unfold nest
  dsimp only
  split
  · exact .of_stack rfl fun _ h => by cases h
  · split
    · exact unwinding_above { s with stack := t :: s.stack, depth := s.depth + 1 } _
    · exact .of_stack rfl fun _ h => by cases h

theorem follow_above (s : State) (o : Origin) (r : Run (List Value)) :
    (s.follow o r).Above s.stack := by
  cases r with
  | done h vs => exact .of_stack rfl fun _ h => by cases h
  | failed h e => exact fail_above { s with heap := h } o e
  | call h f args rest =>
    cases o with
    | library b => exact (nest_above { s with heap := h } (.library b rest) _ f args).tail id
    | operation => exact (nest_above { s with heap := h } (.operation rest) _ f args).tail id

theorem perform_above (s : State) (o : Origin) (a : Action (List Value)) :
    (s.perform o a).Above s.stack :=
  follow_above { s with heap := {} } o (a s.heap)

theorem enterIfRoom_above (s : State) (r : Nat) (args : List Value) :
    (s.enterIfRoom r args).Above s.stack := by
  unfold enterIfRoom
  exact ite_above (fail_above _ _ _) (.of_stack rfl fun _ h => by cases h)

theorem call_above (s : State) (o : Origin) (f : Value) (args : List Value) :
    (s.call o f args).Above s.stack := by
  unfold call
  split
  · exact enterIfRoom_above _ _ _
  · split
    · exact fail_above _ _ _
    · exact (nest_above _ _ _ _ _).tail id
  · split
    · exact (nest_above _ _ _ _ _).tail id
    · exact fail_above _ _ _
  · exact perform_above _ _ _
  · exact perform_above _ _ _
  · split
    · exact fail_above _ _ _
    · exact .of_stack rfl fun _ h => by cases h
    · exact .of_stack rfl fun _ h => by cases h

theorem raised_above (s : State) (e : Failure) : (s.raised e).Above s.stack := by
  unfold raised
  split
  · exact (nest_above { s with handlers := s.handlers + 1 } _ _ _ _).tail id
  · exact unwinding_above _ _

theorem trip_above (s : State) (f : Frame) : (s.trip f).Above s.stack :=
  Above.tail (t := .script { f with want := .result })
    (.of_stack rfl fun _ h => by cases h) id

theorem operate_above (s : State) (f : Frame) (want : Want) (a : Action (List Value)) :
    (s.operate f want a).Above s.stack :=
  (perform_above { s with stack := .script { f with want := want } :: s.stack } _ a).tail id

theorem go_above (s : State) (f : Frame) : (s.go f).Above s.stack :=
  .of_stack rfl fun _ h => by cases h

/-- An instruction takes nothing off the stack. -/
theorem execute_above (s : State) (f : Frame) (i : Instr) : (s.execute f i).Above s.stack := by
  have hgo := go_above s
  -- the heap changes, and the function goes on
  have hchange (h : Heap) (f : Frame) : Above s.stack { s with heap := h, mode := .execute f } :=
    .of_stack rfl fun _ h => by cases h
  have hfail (e : Raised) :
      (fail { s with stack := .script f :: s.stack } .operation e).Above s.stack :=
    (fail_above { s with stack := .script f :: s.stack } _ _).tail id
  have hcall (f : Frame) (g : Value) (args : List Value) :
      Above s.stack { s with stack := .script f :: s.stack, mode := .call .operation g args } :=
    Above.tail (t := .script f) (.of_stack rfl fun _ h => by cases h) id
  cases i with
  | move dst src =>
    cases dst with
    | register r => exact hgo _
    | box b => exact hchange _ _
    | upvalue u => exact hchange _ _
  | freshBox b src => exact hchange _ _
  | newTable dst array slots => exact hchange _ _
  | closure dst p => exact hchange _ _
  | setList table first count offset more =>
    unfold execute
    dsimp only
    split
    · exact ite_above (hchange _ _) (hgo _)
    · exact hgo _
  | index dst object key =>
    unfold execute
    dsimp only
    split
    · exact ite_above (operate_above _ _ _ _) (hgo _)
    · exact operate_above _ _ _ _
  | setIndex object key value =>
    unfold execute
    dsimp only
    split
    · exact hchange _ _
    · exact operate_above _ _ _ _
  | method dst object key => exact operate_above _ _ _ _
  | arith op dst a b =>
    unfold execute
    dsimp only
    split
    · exact hgo _
    · exact operate_above _ _ _ _
  | not dst a | jump target | stash first count more => exact hgo _
  | length dst a | concat dst first count => exact operate_above _ _ _ _
  | test a sense target => exact hgo _
  | compare op a b sense target =>
    unfold execute
    dsimp only
    split
    · exact hgo _
    · exact operate_above _ _ _ _
  | varargs want =>
    unfold execute
    dsimp only
    split
    · exact hgo _
    · exact hgo _
  | call fn count more want => exact hcall _ _ _
  | iterate base count => exact hcall _ _ _
  | tailCall fn count more =>
    show (s.tailCallFrom f fn count more).Above s.stack
    unfold tailCallFrom
    dsimp only
    split
    · exact .of_stack rfl fun _ h => by cases h
    · exact hcall _ _ _
  | ret first count more => exact .of_stack rfl fun _ h => by cases h
  | forPrepare base target =>
    unfold execute
    dsimp only
    split
    · exact hfail _
    · exact hgo _
    · exact hgo _
  | forLoop base target =>
    unfold execute
    dsimp only
    split
    · exact ite_above (hgo _) (hgo _)
    · exact ite_above (hgo _) (hgo _)
    · exact hgo _
  | iterateLoop base target =>
    unfold execute
    exact ite_above (hgo _) (hgo _)
  | markClose level a =>
    unfold execute
    exact ite_above (hgo _) (ite_above (hfail _) (hgo _))
  | close level =>
    unfold execute
    dsimp only
    split
    · refine ite_above ?_ (hgo _)
      exact ((nest_above
        { s with stack := .script { f with closing := _, want := .again } :: s.stack }
        _ _ _ _).tail id).tail id
    · exact hgo _

theorem closeNext_above (s : State) (e : Failure) (closing : List (Nat × Value)) :
    (s.closeNext e closing).Above s.stack := by
  cases closing with
  | nil => exact .of_stack rfl fun _ h => by cases h
  | cons c rest => exact (nest_above _ _ _ _ _).tail id

theorem resume_above (s : State) (f : Frame) (vs : List Value) : (s.resume f vs).Above s.stack := by
  unfold resume
  split
  · exact go_above _ _
  · exact go_above _ _
  · exact go_above _ _
  · exact go_above _ _
  · exact .of_stack rfl fun _ h => by cases h
  · exact go_above _ _

/-! ### Moves -/

theorem step_call {o : Origin} {f : Value} {args : List Value} (h : s.mode = .call o f args) :
    s.step = State.call { s with mode := .deliver [] } o f args := by
  unfold step
  rw [h]

theorem step_deliver {vs : List Value} (h : s.mode = .deliver vs) : s.step = s.deliver vs := by
  unfold step
  rw [h]

theorem step_raise {e : Failure} (h : s.mode = .raise e) : s.step = s.raised e := by
  unfold step
  rw [h]

theorem step_unwind {e : Failure} (h : s.mode = .unwind e) : s.step = s.unwindTop e := by
  unfold step
  rw [h]

theorem step_ended {e : Ending} (h : s.mode = .ended e) : s.step = s := by
  unfold step
  rw [h]

/-- All other moves take nothing off. -/
theorem step_above_stack (harrives : ¬s.mode.Arrives) (hmode : ∀ vs, s.mode ≠ .ended (.values vs)) :
    s.step.Above s.stack := by
  unfold step
  split
  · have hadvance (left : Nat) (f : Frame) :
        (step.advance { s with left := left, mode := .deliver [] } f).Above s.stack := by
      unfold step.advance
      split
      · exact execute_above { s with left := left, mode := .deliver [] } _ _
      · exact .of_stack rfl fun _ h => by cases h
    exact ite_above (ite_above (trip_above { s with mode := .deliver [] } _) (hadvance _ _))
      (hadvance s.left _)
  · exact call_above { s with mode := .deliver [] } _ _ _
  · rename_i hdeliver
    rw [hdeliver] at harrives
    exact absurd trivial harrives
  · exact raised_above _ _
  · rename_i hunwind
    rw [hunwind] at harrives
    exact absurd trivial harrives
  · exact .of_stack rfl hmode

theorem deliver_above (ht : ¬t.IsRoot) (hstack : s.stack = t :: stack) (vs : List Value) :
    (s.deliver vs).Above stack := by
  unfold deliver
  rw [hstack]
  dsimp only
  split
  · exact resume_above { s with stack := stack, mode := .deliver [] } _ _
  · exact perform_above { s with stack := stack, mode := .deliver [], depth := s.depth - 1 } _ _
  · exact perform_above { s with stack := stack, mode := .deliver [], depth := s.depth - 1 } _ _
  · exact .of_stack rfl fun _ h => by cases h
  · exact unwinding_above { s with
      stack := stack, mode := .deliver [], depth := s.depth - 1, handlers := s.handlers - 1 } _
  · exact closeNext_above { s with stack := stack, mode := .deliver [], depth := s.depth - 1 } _ _
  · exact absurd trivial ht

theorem unwindTop_above (ht : ¬t.IsRoot) (hstack : s.stack = t :: stack) {e : Failure}
    (hmode : s.mode = .unwind e) : (s.unwindTop e).Above stack := by
  have hunwind (depth handlers : Nat) :
      Above stack { s with stack := stack, depth := depth, handlers := handlers } := by
    refine .of_stack rfl fun vs h => ?_
    rw [show _ = Mode.unwind e from hmode] at h
    cases h
  unfold unwindTop
  rw [hstack]
  dsimp only
  split
  · exact closeNext_above { s with stack := stack, slots := _ } _ _
  · exact .of_stack rfl fun _ h => by cases h
  · exact hunwind _ _
  · exact hunwind _ s.handlers
  · exact hunwind _ s.handlers
  · exact closeNext_above { s with stack := stack, depth := s.depth - 1 } _ _
  · exact absurd trivial ht

/-- A move takes off no more than the task on top. -/
theorem step_above (ht : ¬t.IsRoot) (hstack : s.stack = t :: stack)
    (hmode : ∀ vs, s.mode ≠ .ended (.values vs)) : s.step.Above stack := by
  by_cases harrives : s.mode.Arrives
  · unfold step
    split
    · rename_i hdeliver
      rw [hdeliver] at harrives
      cases harrives
    · rename_i hcall
      rw [hcall] at harrives
      cases harrives
    · exact deliver_above ht hstack _
    · rename_i hraise
      rw [hraise] at harrives
      cases harrives
    · exact unwindTop_above ht hstack ‹_›
    · rename_i hended
      rw [hended] at harrives
      cases harrives
  · exact (hstack ▸ step_above_stack harrives hmode).tail ht

/-- What is above a stack stays there, until something arrives at the stack itself. -/
theorem Above.step (h : s.Above stack) : s.step.Above stack ∨ s.stack = stack ∧ s.mode.Arrives := by
  obtain ⟨top, hstack, htop⟩ := h.stack
  cases top with
  | nil =>
    by_cases harrives : s.mode.Arrives
    · exact .inr ⟨hstack, harrives⟩
    · have hstep := step_above_stack harrives h.mode
      rw [hstack] at hstep
      exact .inl hstep
  | cons t top =>
    have hstep := step_above (htop t List.mem_cons_self) hstack h.mode
    exact .inl (hstep.append fun u hu => htop u (List.mem_cons_of_mem _ hu))

/-- The collector changes neither the stack nor how far the run is, but for an error that starts to
take its way out. -/
theorem tidy_cases (s : State) :
    s.tidy = s ∨ s.tidy.stack = s.stack ∧ (∃ f, s.mode = .execute f) ∧
      (s.tidy.mode = s.mode ∨ ∃ e, s.tidy.mode = .unwind e ∨ s.tidy.mode = .ended (.failed e)) := by
  unfold tidy
  split
  · rename_i f hf
    split
    · refine .inr ⟨?_, ⟨f, hf⟩, ?_⟩
      · unfold collect unwinding
        dsimp only
        split
        · split <;> rfl
        · rfl
      · unfold collect unwinding
        dsimp only
        split
        · split
          · exact .inr ⟨.memory, .inl rfl⟩
          · exact .inr ⟨.memory, .inr rfl⟩
        · exact .inl rfl
    · exact .inl rfl
  · exact .inl rfl

end State

end StoryPack.Script
