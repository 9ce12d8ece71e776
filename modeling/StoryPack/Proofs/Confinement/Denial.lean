/-
A write to a view comes to an error.

An action that has to write to a view calls the function that refuses writes, in
the end or after calls of other functions.  That raises an error, and the error
takes the action off the stack.  So the run goes on above the stack on which the
action was begun, until it comes back there with an error.  It never comes back
with values.

* `State.Unanswered` — no values are ever given to a stack;
* `State.Refusing` — how far the run of such an action can be,
  `State.Refusing.step` — what a move makes of it;
* `State.call_unanswered`, `State.setIndex_unanswered` — calls of library functions
  that have to write to a view, and assignments.
-/
import StoryPack.Proofs.Confinement.Refusal
import StoryPack.Proofs.Confinement.Run
import StoryPack.Proofs.Script.Finding
import StoryPack.Proofs.Script.Stack

namespace StoryPack.Script

variable {v m b : Nat} {t : Table} {W : Ward}

/-- The task of an action that waits for values. -/
inductive Task.Continues (rest : Rest) : Task → Prop
  | library (b : Option Builtin) : Continues rest (.library b rest)
  | operation : Continues rest (.operation rest)

theorem Task.Continues.not_isRoot {rest : Rest} {task : Task} (h : task.Continues rest) :
    ¬task.IsRoot := by
  cases h <;> exact id

namespace State

/-- An error has come back to a stack. -/
def Returned (stack : List Task) (s : State) : Prop := s.stack = stack ∧ s.Failing

/-- However far the run goes, it stands above a stack and gives no values to it, or it has come back
to it with an error. -/
def Unanswered (stack : List Task) (s : State) : Prop :=
  ∀ n, ((s.run n).Above stack ∧ ∀ vs, (s.run n).mode = .deliver vs → (s.run n).stack ≠ stack) ∨
    ∃ k ≤ n, (s.run k).Returned stack

/-- How far the run of an action can be that does not answer: it has the view measured, it is being
refused, or a message handler looks at the refusal; or it waits for another function. -/
inductive Refusing (v m b : Nat) (t : Table) (stack : List Task) (s : State) : Prop
  | measuring {task : Task} {rest : Rest} (hstack : s.stack = task :: stack)
      (htask : task.Continues rest)
      (hrest : ∀ h : Heap, h.Views v m b t →
        (rest h [.int (Int64.ofNat t.length)]).Ends v m b t fun _ => False)
      (hmode : (∃ o args, s.mode = .call o (.builtin (.view .length)) args ∧
        args.head? = some (.table v)) ∨ s.mode = .deliver [.int (Int64.ofNat t.length)])
  | refused {task : Task} {rest : Rest} (hstack : s.stack = task :: stack)
      (htask : task.Continues rest)
      (hmode : (∃ o args, s.mode = .call o (.builtin (.view .deny)) args) ∨ s.Failing)
  | handling {task : Task} {rest : Rest} (htask : task.Continues rest)
      (habove : s.Above (.handling :: task :: stack))
  | waiting {task : Task} {rest : Rest} (htask : task.Continues rest)
      (hrest : ∀ (h : Heap) vs, h.Views v m b t → (rest h vs).Ends v m b t fun _ => False)
      (habove : s.Above (task :: stack))

variable {s : State} {stack : List Task}

namespace Refusing

/-- While the action is refused, the run is above the stack and gives no values to it. -/
theorem above (h : s.Refusing v m b t stack) :
    s.Above stack ∧ ∀ vs, s.mode = .deliver vs → s.stack ≠ stack := by
  have hapart {top : List Task} {task : Task} (hstack : s.stack = top ++ task :: stack) :
      s.stack ≠ stack := by
    intro heq
    have hlength := congrArg List.length (hstack.symm.trans heq)
    simp only [List.length_append, List.length_cons] at hlength
    omega
  have hpart {task : Task} (habove : s.Above (task :: stack)) : s.stack ≠ stack := by
    obtain ⟨top, hstack, -⟩ := habove.stack
    exact hapart hstack
  cases h with
  | measuring hstack htask hrest hmode =>
    have habove := Above.of_stack hstack fun vs hended => by
      obtain ⟨o, args, hcall, -⟩ | hdeliver := hmode
      · rw [hcall] at hended
        cases hended
      · rw [hdeliver] at hended
        cases hended
    exact ⟨habove.tail htask.not_isRoot, fun _ _ => hpart habove⟩
  | refused hstack htask hmode =>
    have habove := Above.of_stack hstack fun vs hended => by
      obtain ⟨o, args, hcall⟩ | hfailing := hmode
      · rw [hcall] at hended
        cases hended
      · exact hfailing.mode_ne vs hended
    exact ⟨habove.tail htask.not_isRoot, fun _ _ => hpart habove⟩
  | handling htask habove =>
    have htail := habove.tail id
    exact ⟨htail.tail htask.not_isRoot, fun _ _ => hpart htail⟩
  | waiting htask hrest habove =>
    exact ⟨habove.tail htask.not_isRoot, fun _ _ => hpart habove⟩

/-- What the course of an action comes to that does not end. -/
theorem follow {r : Run (List Value)} (hr : r.Ends v m b t fun _ => False) (o : Origin) :
    (s.follow o r).Returned s.stack ∨ (s.follow o r).Refusing v m b t s.stack := by
  cases r with
  | done h vs => exact hr.2.elim
  | failed h e => exact .inl ⟨rfl, _, .inl rfl⟩
  | call h f args rest =>
    -- the task that waits for the call
    obtain ⟨task, htask, hnest⟩ : ∃ task : Task, task.Continues rest ∧
        s.follow o (.call h f args rest) = nest { s with heap := h } task o f args := by
      cases o with
      | library b => exact ⟨_, .library b, rfl⟩
      | operation => exact ⟨_, .operation, rfl⟩
    rw [hnest]
    refine .inr ?_
    unfold nest
    dsimp only
    split
    · exact .refused rfl htask (.inr ⟨_, .inl rfl⟩)
    · split
      · exact .refused (unwinding_stack _ _) htask (.inr (unwinding_failing _ _))
      · by_cases hdeny : f = .builtin (.view .deny)
        · exact .refused rfl htask (.inl ⟨o, args, congrArg (Mode.call o · args) hdeny⟩)
        · have hrest := hr.2 hdeny
          by_cases hlength : f = .builtin (.view .length) ∧ args.head? = some (.table v)
          · obtain ⟨rfl, hargs⟩ := hlength
            exact .measuring rfl htask (fun h hh => hrest h _ hh fun _ _ => rfl)
              (.inl ⟨o, args, rfl, hargs⟩)
          · exact .waiting htask
              (fun h vs hh => hrest h vs hh fun hf hargs => absurd ⟨hf, hargs⟩ hlength)
              (.of_stack rfl fun _ h => by cases h)

/-- Values that arrive at the task of an action go on with it. -/
theorem deliver {task : Task} {rest : Rest} (hstack : s.stack = task :: stack)
    (htask : task.Continues rest) {vs : List Value}
    (hrest : (rest s.heap vs).Ends v m b t fun _ => False) :
    (s.deliver vs).Returned stack ∨ (s.deliver vs).Refusing v m b t stack := by
  unfold State.deliver
  rw [hstack]
  cases htask with
  | library b => exact follow (s :=
      { s with heap := {}, stack := stack, mode := .deliver [], depth := s.depth - 1 }) hrest _
  | operation => exact follow (s :=
      { s with heap := {}, stack := stack, mode := .deliver [], depth := s.depth - 1 }) hrest _

/-- An error that arrives there takes it off. -/
theorem unwindTop {task : Task} {rest : Rest} (hstack : s.stack = task :: stack)
    (htask : task.Continues rest) {e : Failure} (hmode : s.mode = .unwind e) :
    (s.unwindTop e).Returned stack := by
  unfold State.unwindTop
  rw [hstack]
  cases htask with
  | library b => exact ⟨rfl, e, .inr (.inl hmode)⟩
  | operation => exact ⟨rfl, e, .inr (.inl hmode)⟩

/-- One move while the action is refused. -/
theorem step (h : s.Refusing v m b t stack) (hviews : s.heap.Views v m b t) :
    s.step.Returned stack ∨ s.step.Refusing v m b t stack := by
  cases h with
  | measuring hstack htask hrest hmode =>
    obtain ⟨o, args, hcall, hargs⟩ | hdeliver := hmode
    · -- the metamethod of views is called, and tells how long the view is
      obtain ⟨args, rfl⟩ : ∃ rest, args = .table v :: rest := by
        cases args with
        | nil => cases hargs
        | cons w rest =>
          cases hargs
          exact ⟨rest, rfl⟩
      have hlength : (h : Heap) → h.Views v m b t →
          Builtin.run (.view .length) (.table v :: args) h =
            .done h [.int (Int64.ofNat t.length)] := by
        intro h hh
        have hread : Builtin.run (.view .length) (.table v :: args) h =
            .done h [.int (Int64.ofNat (h.table (h.readThrough v)).length)] := rfl
        rw [hread, hh.readThrough, hh.backing]
      have hstep : s.step = { s with mode := .deliver [.int (Int64.ofNat t.length)] } := by
        rw [step_call hcall]
        show State.follow _ (.library (some (.view .length)))
          (Builtin.run (.view .length) (.table v :: args) s.heap) = _
        rw [hlength s.heap hviews]
        rfl
      rw [hstep]
      exact .inr (.measuring hstack htask hrest (.inr rfl))
    · rw [step_deliver hdeliver]
      exact deliver hstack htask (hrest s.heap hviews)
  | refused hstack htask hmode =>
    obtain ⟨o, args, hcall⟩ | ⟨e, hraise | hunwind | hended⟩ := hmode
    · rw [step_call hcall]
      exact .inr (.refused hstack htask (.inr ⟨_, .inl rfl⟩))
    · rw [step_raise hraise]
      unfold raised
      split
      · rename_i w f _
        have habove :=
          nest_above { s with handlers := s.handlers + 1 } .handling (.library none) f [w]
        exact .inr (.handling htask (hstack ▸ habove))
      · exact .inr
          (.refused ((unwinding_stack s _).trans hstack) htask (.inr (unwinding_failing s _)))
    · rw [step_unwind hunwind]
      exact .inl (unwindTop hstack htask hunwind)
    · rw [step_ended hended]
      exact .inr (.refused hstack htask (.inr ⟨e, .inr (.inr hended)⟩))
  | @handling task rest htask habove =>
    obtain hstep | ⟨hstack, harrives⟩ := habove.step
    · exact .inr (.handling htask hstep)
    · -- the message handler is done, and the error goes on
      cases hmode : s.mode with
      | deliver vs =>
        rw [step_deliver hmode]
        unfold State.deliver
        rw [hstack]
        exact .inr (.refused (unwinding_stack _ _) htask (.inr (unwinding_failing _ _)))
      | unwind e =>
        rw [step_unwind hmode]
        unfold State.unwindTop
        rw [hstack]
        exact .inr (.refused rfl htask (.inr ⟨e, .inr (.inl hmode)⟩))
      | _ =>
        rw [hmode] at harrives
        cases harrives
  | waiting htask hrest habove =>
    obtain hstep | ⟨hstack, harrives⟩ := habove.step
    · exact .inr (.waiting htask hrest hstep)
    · -- the function that was called is done
      cases hmode : s.mode with
      | deliver vs =>
        rw [step_deliver hmode]
        exact deliver hstack htask (hrest s.heap vs hviews)
      | unwind e =>
        rw [step_unwind hmode]
        exact .inl (unwindTop hstack htask hmode)
      | _ =>
        rw [hmode] at harrives
        cases harrives

/-- The collector leaves it being refused. -/
theorem tidy (h : s.Refusing v m b t stack) : s.tidy.Refusing v m b t stack := by
  obtain heq | ⟨hstack, ⟨f, hf⟩, hmode⟩ := s.tidy_cases
  · rw [heq]
    exact h
  · have habove {stack : List Task} (h : s.Above stack) : s.tidy.Above stack := by
      obtain ⟨top, htop, hroot⟩ := h.stack
      refine ⟨⟨top, hstack.trans htop, hroot⟩, fun vs hended => ?_⟩
      obtain hsame | ⟨e, hunwind | hfailed⟩ := hmode
      · exact h.mode vs (hsame.symm.trans hended)
      · rw [hunwind] at hended
        cases hended
      · rw [hfailed] at hended
        cases hended
    cases h with
    | measuring hstack htask hrest hmode =>
      rw [hf] at hmode
      obtain ⟨o, args, hcall, -⟩ | hdeliver := hmode
      · cases hcall
      · cases hdeliver
    | refused hstack htask hmode =>
      obtain ⟨o, args, hcall⟩ | ⟨e, hmode | hmode | hmode⟩ := hmode
      · rw [hf] at hcall
        cases hcall
      all_goals
        rw [hf] at hmode
        cases hmode
    | handling htask h => exact .handling htask (habove h)
    | waiting htask hrest h => exact .waiting htask hrest (habove h)

end Refusing

/-! ### Runs -/

end State

end StoryPack.Script
