/-
What a budget that is not used up changes: nothing.

The machine looks at its budget and at what is left of it only where it counts an
instruction.  All other parts of a move do the same with any budget, so moves of
two states that differ in it go on side by side until one of them overruns.

* `State.withBudget` — a state with another budget;
* `State.execute_withBudget`, `State.deliver_withBudget`, … — the parts of a move;
* `State.Overruns`, `State.OverrunsWithin` — the next move overruns the budget, or one
  of so many moves does;
* `State.Ahead.step` — a state with no less left of its budget makes the same move;
* `State.Ahead.run` — so does a run, unless an overrun lies on the way;
* `State.not_overrunsWithin` — a run counts no more instructions than it makes moves.
-/
import StoryPack.Proofs.Script.Straight

namespace StoryPack.Script

namespace State

variable {s t : State}

/-- A state with another budget, and with something else left of it. -/
def withBudget (s : State) (budget left : Nat) : State := { s with budget := budget, left := left }

section

variable (s : State) (b l : Nat)

@[simp] theorem withBudget_heap : (s.withBudget b l).heap = s.heap := rfl
@[simp] theorem withBudget_stack : (s.withBudget b l).stack = s.stack := rfl
@[simp] theorem withBudget_mode : (s.withBudget b l).mode = s.mode := rfl
@[simp] theorem withBudget_slots : (s.withBudget b l).slots = s.slots := rfl
@[simp] theorem withBudget_counting : (s.withBudget b l).counting = s.counting := rfl
@[simp] theorem withBudget_budget : (s.withBudget b l).budget = b := rfl
@[simp] theorem withBudget_left : (s.withBudget b l).left = l := rfl

theorem ite_withBudget {c : Prop} [Decidable c] {u v u' v' : State} (hu : u' = u.withBudget b l)
    (hv : v' = v.withBudget b l) :
    (if c then u' else v') = (if c then u else v).withBudget b l := by
  split
  · exact hu
  · exact hv

/-! ### The parts of a move -/

theorem unwinding_withBudget (e : Failure) :
    (s.withBudget b l).unwinding e = (s.unwinding e).withBudget b l :=
  ite_withBudget b l rfl rfl

theorem nest_withBudget (t : Task) (o : Origin) (f : Value) (args : List Value) :
    (s.withBudget b l).nest t o f args = (s.nest t o f args).withBudget b l := by
  refine ite_withBudget b l rfl ?_
  exact ite_withBudget b l
    (unwinding_withBudget { s with stack := t :: s.stack, depth := s.depth + 1 } b l tooDeep) rfl

theorem follow_withBudget (o : Origin) (r : Run (List Value)) :
    (s.withBudget b l).follow o r = (s.follow o r).withBudget b l := by
  cases r with
  | done h vs => rfl
  | failed h e => rfl
  | call h f args rest =>
    cases o with
    | library c => exact nest_withBudget { s with heap := h } b l (.library c rest) _ f args
    | operation => exact nest_withBudget { s with heap := h } b l (.operation rest) _ f args

theorem perform_withBudget (o : Origin) (a : Action (List Value)) :
    (s.withBudget b l).perform o a = (s.perform o a).withBudget b l :=
  follow_withBudget { s with heap := {} } b l o (a s.heap)

theorem enterIfRoom_withBudget (r : Nat) (args : List Value) :
    (s.withBudget b l).enterIfRoom r args = (s.enterIfRoom r args).withBudget b l :=
  ite_withBudget b l rfl rfl

theorem call_withBudget (o : Origin) (f : Value) (args : List Value) :
    (s.withBudget b l).call o f args = (s.call o f args).withBudget b l := by
  unfold call
  split
  · exact enterIfRoom_withBudget s b l _ _
  · split
    · rfl
    · exact nest_withBudget s b l _ _ _ _
  · split
    · exact nest_withBudget s b l _ _ _ _
    · rfl
  · exact perform_withBudget s b l _ _
  · exact perform_withBudget s b l _ _
  · cases hthrough : calledThrough s.heap (slotLimit + 1 - s.slots) f args with
    | none =>
      simp only [withBudget_heap, withBudget_slots, hthrough]
      rfl
    | some p =>
      obtain ⟨g, args⟩ := p
      simp only [withBudget_heap, withBudget_slots, hthrough]
      cases g <;> rfl

theorem raised_withBudget (e : Failure) :
    (s.withBudget b l).raised e = (s.raised e).withBudget b l := by
  unfold raised
  rw [withBudget_stack]
  split
  · exact nest_withBudget { s with handlers := s.handlers + 1 } b l _ _ _ _
  · exact unwinding_withBudget s b l _

theorem operate_withBudget (f : Frame) (want : Want) (a : Action (List Value)) :
    (s.withBudget b l).operate f want a = (s.operate f want a).withBudget b l :=
  perform_withBudget { s with stack := .script { f with want := want } :: s.stack } b l _ a

theorem tailCallFrom_withBudget (f : Frame) (fn count : Nat) (more : Bool) :
    (s.withBudget b l).tailCallFrom f fn count more =
      (s.tailCallFrom f fn count more).withBudget b l := by
  unfold tailCallFrom
  rw [withBudget_heap]
  dsimp only
  split
  · rfl
  · rfl

/-- An instruction does not depend on the budget. -/
theorem execute_withBudget (f : Frame) (i : Instr) :
    (s.withBudget b l).execute f i = (s.execute f i).withBudget b l := by
  cases i with
  | move dst src => cases dst <;> rfl
  | freshBox _ _ | newTable _ _ _ | closure _ _ | not _ _ | jump _ | stash _ _ _ | test _ _ _ => rfl
  | call _ _ _ _ | ret _ _ _ | iterate _ _ => rfl
  | setList table first count offset more =>
    unfold execute
    dsimp only
    split
    · exact ite_withBudget b l rfl rfl
    · rfl
  | index dst object key =>
    unfold execute
    rw [withBudget_heap]
    dsimp only
    split
    · exact ite_withBudget b l (operate_withBudget s b l _ _ _) rfl
    · exact operate_withBudget s b l _ _ _
  | setIndex object key value =>
    unfold execute
    rw [withBudget_heap]
    dsimp only
    split
    · rfl
    · exact operate_withBudget s b l _ _ _
  | method dst object key => exact operate_withBudget s b l _ _ _
  | arith op dst x y =>
    unfold execute
    rw [withBudget_heap]
    dsimp only
    split
    · rfl
    · exact operate_withBudget s b l _ _ _
  | length dst x => exact operate_withBudget s b l _ _ _
  | concat dst first count => exact operate_withBudget s b l _ _ _
  | compare op x y sense target =>
    unfold execute
    rw [withBudget_heap]
    dsimp only
    split
    · rfl
    · exact operate_withBudget s b l _ _ _
  | varargs want => cases want <;> rfl
  | tailCall fn count more => exact tailCallFrom_withBudget s b l f fn count more
  | forPrepare base target =>
    unfold execute
    rw [withBudget_heap]
    dsimp only
    split
    · rfl
    · rfl
    · rfl
  | forLoop base target =>
    unfold execute
    dsimp only
    split
    · exact ite_withBudget b l rfl rfl
    · exact ite_withBudget b l rfl rfl
    · rfl
  | iterateLoop base target => exact ite_withBudget b l rfl rfl
  | markClose level x => exact ite_withBudget b l rfl (ite_withBudget b l rfl rfl)
  | close level =>
    unfold execute
    rw [withBudget_heap]
    dsimp only
    split
    · refine ite_withBudget b l ?_ rfl
      exact nest_withBudget
        { s with stack := .script { f with closing := _, want := .again } :: s.stack } b l _ _ _ _
    · rfl

theorem advance_withBudget (f : Frame) :
    step.advance (s.withBudget b l) f = (step.advance s f).withBudget b l := by
  unfold step.advance
  split
  · exact execute_withBudget s b l _ _
  · rfl

theorem resume_withBudget (f : Frame) (vs : List Value) :
    (s.withBudget b l).resume f vs = (s.resume f vs).withBudget b l := by
  unfold resume
  cases f.want <;> rfl

theorem closeNext_withBudget (e : Failure) (closing : List (Nat × Value)) :
    (s.withBudget b l).closeNext e closing = (s.closeNext e closing).withBudget b l := by
  cases closing with
  | nil => rfl
  | cons c rest => exact nest_withBudget s b l _ _ _ _

theorem deliver_withBudget (vs : List Value) :
    (s.withBudget b l).deliver vs = (s.deliver vs).withBudget b l := by
  unfold deliver
  rw [withBudget_stack]
  split
  · rfl
  · rename_i t rest _
    cases t with
    | script f => exact resume_withBudget { s with stack := rest, mode := .deliver [] } b l f vs
    | library c k =>
      exact perform_withBudget
        { s with stack := rest, mode := .deliver [], depth := s.depth - 1 } b l _ _
    | operation k =>
      exact perform_withBudget
        { s with stack := rest, mode := .deliver [], depth := s.depth - 1 } b l _ _
    | guard handler counting => rfl
    | handling =>
      exact unwinding_withBudget { s with
        stack := rest, mode := .deliver [], depth := s.depth - 1, handlers := s.handlers - 1 } b l _
    | closing e more =>
      exact closeNext_withBudget
        { s with stack := rest, mode := .deliver [], depth := s.depth - 1 } b l e more
    | root closes => rfl

theorem unwindTop_withBudget (e : Failure) :
    (s.withBudget b l).unwindTop e = (s.unwindTop e).withBudget b l := by
  unfold unwindTop
  rw [withBudget_stack]
  split
  · rfl
  · rename_i t rest _
    cases t with
    | script f => exact closeNext_withBudget { s with stack := rest, slots := _ } b l e f.closing
    | closing e' more =>
      exact closeNext_withBudget { s with stack := rest, depth := s.depth - 1 } b l e more
    | library _ _ | operation _ | guard _ _ | handling | root _ => rfl

theorem tidy_withBudget : (s.withBudget b l).tidy = s.tidy.withBudget b l := by
  unfold tidy
  rw [withBudget_mode]
  split
  · refine ite_withBudget b l ?_ rfl
    exact ite_withBudget b l
      (unwinding_withBudget { s with heap := s.heap.collected s.roots s.showsAll } b l .memory) rfl
  · rfl

end

/-! ### Moves -/

/-- The next move overruns the budget. -/
structure Overruns (s : State) : Prop where
  execute : ∃ f, s.mode = .execute f
  budget : s.budget ≠ 0
  counting : s.counting = true
  left : s.left ≤ 1

/-- What is left of the budget after a move that does not overrun it. -/
def leftAfter (s : State) : Nat :=
  match s.mode with
  | .execute _ => if s.budget != 0 && s.counting then s.left - 1 else s.left
  | _ => s.left

theorem leftAfter_mono {l : Nat} (hle : s.left ≤ l) {b : Nat} (hs : s.budget ≠ 0) :
    s.leftAfter ≤ (s.withBudget b l).leftAfter := by
  unfold leftAfter
  rw [withBudget_mode, withBudget_left]
  split
  · have hcount : (s.budget != 0) = true := by simpa using hs
    by_cases hcounting : s.counting = true
    · rw [hcount, hcounting]
      show s.left - 1 ≤ _
      split
      · omega
      · omega
    · have hnot : s.counting = false := by simpa using hcounting
      simpa [hnot] using hle
  · exact hle

/-- A move that does not overrun the budget is the same as without one, but for what it counts. -/
theorem step_eq (hs : ¬s.Overruns) :
    s.step = (s.withBudget 0 0).step.withBudget s.budget s.leftAfter := by
  rcases hmode : s.mode with f | ⟨o, f, args⟩ | vs | e | e | e
  · -- an instruction is counted, or it is not
    have hnone : (s.withBudget 0 0).step =
        step.advance ({ s with mode := .deliver [] }.withBudget 0 0) f := by
      unfold step
      rw [withBudget_mode, hmode]
      rfl
    have hadvance (l : Nat) : step.advance { s with left := l, mode := .deliver [] } f =
        (s.withBudget 0 0).step.withBudget s.budget l := by
      rw [hnone, advance_withBudget]
      exact advance_withBudget { s with mode := .deliver [] } s.budget l f
    unfold step leftAfter
    rw [hmode]
    dsimp only
    by_cases hcount : (s.budget != 0 && s.counting) = true
    · obtain ⟨hbudget, hcounting⟩ : s.budget ≠ 0 ∧ s.counting = true := by simpa using hcount
      have hleft : ¬s.left ≤ 1 := fun hle => hs ⟨⟨f, hmode⟩, hbudget, hcounting, hle⟩
      rw [if_pos hcount, if_pos hcount, if_neg hleft]
      exact hadvance (s.left - 1)
    · rw [if_neg hcount, if_neg hcount]
      exact hadvance s.left
  all_goals
    unfold step leftAfter
    rw [withBudget_mode, hmode]
    dsimp only
  · exact call_withBudget ({ s with mode := .deliver [] }.withBudget 0 0) s.budget s.left o f args
  · exact deliver_withBudget (s.withBudget 0 0) s.budget s.left vs
  · exact raised_withBudget (s.withBudget 0 0) s.budget s.left e
  · exact unwindTop_withBudget (s.withBudget 0 0) s.budget s.left e
  · rfl

/-- A run that overruns its budget is marked. -/
theorem tripped_step_of_overruns (hs : s.Overruns) : s.step.heap.tripped = true := by
  obtain ⟨⟨f, hmode⟩, hbudget, hcounting, hleft⟩ := hs
  unfold step
  rw [hmode]
  dsimp only
  rw [if_pos (by simpa using ⟨hbudget, hcounting⟩), if_pos hleft]
  rfl

@[simp] theorem budget_step (s : State) : s.step.budget = s.budget := by
  by_cases hs : s.Overruns
  · obtain ⟨⟨f, hmode⟩, hbudget, hcounting, hleft⟩ := hs
    unfold step
    rw [hmode]
    dsimp only
    rw [if_pos (by simpa using ⟨hbudget, hcounting⟩), if_pos hleft]
    rfl
  · rw [step_eq hs]
    rfl

@[simp] theorem budget_tidy (s : State) : s.tidy.budget = s.budget := by
  have htidy : s.tidy = s.tidy.withBudget s.budget s.left := tidy_withBudget s s.budget s.left
  rw [htidy, withBudget_budget]

theorem left_tidy (s : State) : s.tidy.left = s.left := by
  have htidy : s.tidy = s.tidy.withBudget s.budget s.left := tidy_withBudget s s.budget s.left
  rw [htidy, withBudget_left]

/-! ### Two states side by side -/

/-- A state in which the same goes on as in another one, with no less left of its budget. -/
inductive Ahead (s : State) : State → Prop
  | intro {b l : Nat} (h : b = 0 ∨ s.budget ≠ 0 ∧ s.left ≤ l) : Ahead s (s.withBudget b l)

namespace Ahead

theorem heap_eq (h : s.Ahead t) : t.heap = s.heap := by
  cases h
  rfl

/-- The state that is ahead does not overrun its budget before the other one does. -/
theorem overruns (h : s.Ahead t) (ht : t.Overruns) : s.Overruns := by
  obtain @⟨b, l, hnone | ⟨hbudget, hle⟩⟩ := h
  · exact absurd hnone ht.budget
  · exact ⟨ht.execute, hbudget, ht.counting, Nat.le_trans hle ht.left⟩

theorem tidy (h : s.Ahead t) : s.tidy.Ahead t.tidy := by
  obtain @⟨b, l, h⟩ := h
  rw [tidy_withBudget]
  refine .intro ?_
  rw [budget_tidy, left_tidy]
  exact h

/-- A move that does not overrun the budget leaves the other state ahead. -/
theorem step (h : s.Ahead t) (hs : ¬s.Overruns) : s.step.Ahead t.step := by
  have ht : ¬t.Overruns := fun ht => hs (h.overruns ht)
  obtain @⟨b, l, h⟩ := h
  have hleft : s.step.left = s.leftAfter := by
    rw [step_eq hs]
    rfl
  have hstep : (s.withBudget b l).step = s.step.withBudget b (s.withBudget b l).leftAfter := by
    rw [step_eq ht, step_eq hs]
    rfl
  rw [hstep]
  refine .intro ?_
  rw [budget_step, hleft]
  obtain hnone | ⟨hbudget, hle⟩ := h
  · exact .inl hnone
  · exact .inr ⟨hbudget, leftAfter_mono hle hbudget⟩

end Ahead

/-! ### Runs -/

/-- A run makes a move and goes on; a state that has ended makes none. -/
theorem run_eq_step (s : State) (n : Nat) : s.run (n + 1) = s.tidy.step.run n := by
  by_cases hended : ∃ e, s.mode = .ended e
  · obtain ⟨e, he⟩ := hended
    have hstay : s.tidy.step = s := by
      unfold tidy
      rw [he]
      dsimp only
      unfold step
      rw [he]
    rw [hstay, run_of_ended he, run_of_ended he]
  · exact run_succ (fun e he => hended ⟨e, he⟩) n

@[simp] theorem budget_run (s : State) (patience : Nat) : (s.run patience).budget = s.budget := by
  induction patience generalizing s with
  | zero => rfl
  | succ patience ih => rw [run_eq_step, ih, budget_step, budget_tidy]

/-- One of so many moves overruns the budget. -/
def OverrunsWithin : (patience : Nat) → State → Prop
  | 0, _ => False
  | patience + 1, s => s.tidy.Overruns ∨ OverrunsWithin patience s.tidy.step

/-- Two runs stay side by side, unless an overrun lies on the way. -/
theorem Ahead.run (h : s.Ahead t) {patience : Nat} (hs : ¬OverrunsWithin patience s) :
    (s.run patience).Ahead (t.run patience) := by
  induction patience generalizing s t with
  | zero => exact h
  | succ patience ih =>
    obtain ⟨hfirst, hrest⟩ := not_or.mp hs
    rw [run_eq_step, run_eq_step]
    exact ih (h.tidy.step hfirst) hrest

/-- The run that is ahead overruns its budget only if the other one does. -/
theorem Ahead.overrunsWithin (h : s.Ahead t) {patience : Nat} (ht : OverrunsWithin patience t) :
    OverrunsWithin patience s := by
  induction patience generalizing s t with
  | zero => exact ht
  | succ patience ih =>
    by_cases hfirst : s.tidy.Overruns
    · exact .inl hfirst
    · obtain hnow | hlater := ht
      · exact absurd (h.tidy.overruns hnow) hfirst
      · exact .inr (ih (h.tidy.step hfirst) hlater)

/-- Without a budget there is no overrun. -/
theorem not_overrunsWithin_of_budget (hs : s.budget = 0) (patience : Nat) :
    ¬OverrunsWithin patience s := by
  induction patience generalizing s with
  | zero => exact not_false
  | succ patience ih =>
    rintro (hnow | hlater)
    · exact hnow.budget ((budget_tidy s).trans hs)
    · exact ih (by rw [budget_step, budget_tidy, hs]) hlater

/-- A run counts no more instructions than it makes moves. -/
theorem not_overrunsWithin {patience : Nat} (hs : patience < s.left) :
    ¬OverrunsWithin patience s := by
  induction patience generalizing s with
  | zero => exact not_false
  | succ patience ih =>
    have hfirst : ¬s.tidy.Overruns := by
      intro hnow
      have hle := hnow.left
      rw [left_tidy] at hle
      omega
    rintro (hnow | hlater)
    · exact hfirst hnow
    · refine ih ?_ hlater
      have hleft : s.tidy.step.left = s.tidy.leftAfter := by
        rw [step_eq hfirst]
        rfl
      have hcount : s.tidy.left ≤ s.tidy.leftAfter + 1 := by
        unfold leftAfter
        split
        · split
          · omega
          · omega
        · omega
      rw [left_tidy] at hcount
      omega

end State

end StoryPack.Script
