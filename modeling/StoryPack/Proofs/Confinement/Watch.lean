/-
Nothing arrives at a protected call unnoticed.

Values reach the function that makes protected calls on two ways only.  The raw
call that it waits for has finished, and then they start on the way out of the
protected call; or they are on this way already.  Everything else that is put on
top of it while it waits is a guard or a message handler, and neither of them
hands on values as they are.

* `Stack.Covered`, `Stack.Ready` — what stands on top of protected calls;
* `State.Attended` — what may go on above a protected call;
* `State.Watched` — both of them;
* `State.Watched.step` — a move keeps a state watched.
-/
import StoryPack.Proofs.Confinement.Passage

namespace StoryPack.Script

variable {W : Ward}

/-! ### Stacks -/

/-- What may stand on top of a protected call: a guard, or a message handler. -/
def Task.Shields : Task → Prop
  | .guard _ _ | .handling => True
  | _ => False

namespace Stack

/-- A protected call is on top. -/
def TopMade (W : Ward) : List Task → Prop
  | .script f :: _ => f.Made W
  | _ => False

/-- Whatever stands on top of a protected call shields it. -/
def Covered (W : Ward) : List Task → Prop
  | [] => True
  | t :: stack => (TopMade W stack → t.Shields) ∧ Covered W stack

/-- Such a stack with no protected call on top: anything may go on above it. -/
structure Ready (W : Ward) (stack : List Task) : Prop where
  covered : Covered W stack
  top : ¬TopMade W stack

variable {stack : List Task} {t : Task}

/-- Anything may be put on a stack with no protected call on top. -/
theorem Ready.cons (h : Ready W stack) (t : Task) : Covered W (t :: stack) :=
  ⟨fun htop => absurd htop h.top, h.covered⟩

theorem Ready.push (h : Ready W stack) (ht : ¬TopMade W (t :: stack)) : Ready W (t :: stack) :=
  ⟨h.cons t, ht⟩

theorem Ready.script {f : Frame} (h : Ready W stack) (hf : ¬f.Made W) :
    Ready W (.script f :: stack) :=
  h.push hf

theorem Covered.guard (h : Covered W stack) (handler : Option Value) (counting : Bool) :
    Ready W (.guard handler counting :: stack) :=
  ⟨⟨fun _ => trivial, h⟩, id⟩

theorem Covered.handling (h : Covered W stack) : Ready W (.handling :: stack) :=
  ⟨⟨fun _ => trivial, h⟩, id⟩

/-- Under what does not shield there is no protected call. -/
theorem Covered.ready (h : Covered W (t :: stack)) (ht : ¬t.Shields) : Ready W stack :=
  ⟨h.2, fun htop => ht (h.1 htop)⟩

end Stack

/-- Registers that are written leave a call one of the same function. -/
theorem Frame.putAll_same (f : Frame) (r count : Nat) (vs : List Value) :
    (f.putAll r count vs).proto = f.proto ∧ (f.putAll r count vs).upvalues = f.upvalues := by
  induction count generalizing f r vs with
  | zero => exact ⟨rfl, rfl⟩
  | succ count ih =>
    cases vs with
    | nil => exact ih (f.put r .nil) (r + 1) []
    | cons v vs => exact ih (f.put r v) (r + 1) vs

/-! ### States -/

namespace State

variable {s t : State} {stack : List Task} {f : Frame} {vs : List Value} {e : Failure}

/-- What may go on above a protected call that waits. -/
inductive Attended (W : Ward) (s : State) : Prop
  /-- There is none on top, and one that is at work has not made its call yet. -/
  | plain (htop : ¬Stack.TopMade W s.stack)
      (hexecute : ∀ f, s.mode = .execute f → f.Made W → f.pc ≤ 3)
  | failing (h : s.Failing)
  /-- It calls a function that catches errors. -/
  | catching (o : Origin) (args : List Value) {callee : Value}
      (hcallee : callee = .builtin (.base .pcall) ∨ callee = .builtin (.base .xpcall))
      (hmode : s.mode = .call o callee args)
  /-- What the raw call has given is on its way. -/
  | passing (l : Option Nat) (vs : List Value) (rest : List Task) (n : Nat)
      (hrest : ¬Stack.TopMade W rest) (h : Guard.Passing W l vs rest n s)

/-- A state in which nothing arrives at a protected call unnoticed. -/
structure Watched (W : Ward) (s : State) : Prop where
  covered : Stack.Covered W s.stack
  attended : s.Attended W

/-- Something other than a function at work goes on above a stack whose top protects no call. -/
theorem watched_of_ready (h : Stack.Ready W s.stack) (hmode : ∀ f, s.mode ≠ .execute f) :
    s.Watched W :=
  ⟨h.covered, .plain h.top fun f hf => absurd hf (hmode f)⟩

theorem watched_of_failing (hc : Stack.Covered W s.stack) (h : s.Failing) : s.Watched W :=
  ⟨hc, .failing h⟩

theorem ite_watched {c : Prop} [Decidable c] {u v : State} (hu : u.Watched W) (hv : v.Watched W) :
    (if c then u else v).Watched W := by
  split
  · exact hu
  · exact hv

/-! ### What moves are made of -/

theorem go_watched (h : Stack.Ready W s.stack) (hf : f.Made W → f.pc ≤ 3) : (s.go f).Watched W := by
  refine ⟨h.covered, .plain h.top fun g hg => ?_⟩
  cases hg
  exact hf

theorem unwinding_watched (hc : Stack.Covered W s.stack) (e : Failure) :
    (s.unwinding e).Watched W :=
  watched_of_failing (unwinding_stack s e ▸ hc) (unwinding_failing s e)

theorem fail_watched (hc : Stack.Covered W s.stack) (o : Origin) (e : Raised) :
    (s.fail o e).Watched W :=
  watched_of_failing hc ⟨_, .inl rfl⟩

theorem nest_watched {t : Task} (h : Stack.Ready W (t :: s.stack)) (o : Origin) (f : Value)
    (args : List Value) : (s.nest t o f args).Watched W := by
  unfold nest
  dsimp only
  refine ite_watched (watched_of_failing h.covered ⟨_, .inl rfl⟩) (ite_watched ?_ ?_)
  · exact unwinding_watched
      (s := { s with stack := t :: s.stack, depth := s.depth + 1 }) h.covered _
  · exact watched_of_ready h nofun

theorem follow_watched (h : Stack.Ready W s.stack) (o : Origin) (r : Run (List Value)) :
    (s.follow o r).Watched W := by
  cases r with
  | done g vs => exact watched_of_ready h nofun
  | failed g e => exact fail_watched (s := { s with heap := g }) h.covered o e
  | call g f args rest =>
    cases o with
    | library b =>
      exact nest_watched (s := { s with heap := g }) (t := .library b rest) (h.push id) _ f args
    | operation =>
      exact nest_watched (s := { s with heap := g }) (t := .operation rest) (h.push id) _ f args

theorem perform_watched (h : Stack.Ready W s.stack) (o : Origin) (a : Action (List Value)) :
    (s.perform o a).Watched W :=
  follow_watched (s := { s with heap := {} }) h o (a s.heap)

theorem enter_watched (h : Stack.Ready W s.stack) (c : Closure) (args : List Value) :
    (s.enter c args).Watched W := by
  refine ⟨h.covered, .plain h.top fun g hg => ?_⟩
  cases hg
  exact fun _ => Nat.zero_le 3

theorem call_watched (h : Stack.Ready W s.stack) (o : Origin) (f : Value) (args : List Value) :
    (s.call o f args).Watched W := by
  unfold call
  split
  · exact ite_watched (fail_watched h.covered _ _) (enter_watched h _ _)
  · split
    · exact fail_watched h.covered _ _
    · exact nest_watched (h.covered.guard _ _) _ _ _
  · split
    · exact nest_watched (h.covered.guard _ _) _ _ _
    · exact fail_watched h.covered _ _
  · exact perform_watched h _ _
  · exact perform_watched h _ _
  · split
    · exact fail_watched h.covered _ _
    · exact watched_of_ready h nofun
    · exact watched_of_failing h.covered ⟨_, .inl rfl⟩

/-- A protected call calls a function that catches errors. -/
theorem call_catching (hc : Stack.Covered W s.stack) (o : Origin) {f : Value}
    (hf : f = .builtin (.base .pcall) ∨ f = .builtin (.base .xpcall)) (args : List Value) :
    (s.call o f args).Watched W := by
  obtain rfl | rfl := hf
  all_goals
    unfold call Value.builtin
    dsimp only
  · split
    · exact fail_watched hc _ _
    · exact nest_watched (hc.guard _ _) _ _ _
  · split
    · exact nest_watched (hc.guard _ _) _ _ _
    · exact fail_watched hc _ _

theorem raised_watched (hc : Stack.Covered W s.stack) (e : Failure) : (s.raised e).Watched W := by
  unfold raised
  split
  · exact nest_watched (s := { s with handlers := s.handlers + 1 }) hc.handling _ _ _
  · exact unwinding_watched hc _

theorem trip_watched (h : Stack.Ready W s.stack) (f : Frame) : (s.trip f).Watched W :=
  watched_of_failing (h.cons _) ⟨_, .inl rfl⟩

theorem closeNext_watched (h : Stack.Ready W s.stack) (e : Failure)
    (closing : List (Nat × Value)) : (s.closeNext e closing).Watched W := by
  cases closing with
  | nil => exact watched_of_failing h.covered ⟨e, .inr (.inl rfl)⟩
  | cons c rest => exact nest_watched (t := .closing e rest) (h.push id) _ _ _

/-! ### Instructions -/

section

variable (h : Stack.Ready W s.stack) (hf : ¬f.Made W)

include h hf

theorem operate_watched (want : Want) (a : Action (List Value)) :
    (s.operate f want a).Watched W :=
  perform_watched (s := { s with stack := .script { f with want := want } :: s.stack })
    (h.script hf) _ a

theorem same_watched {g : Frame} (hg : g.proto = f.proto ∧ g.upvalues = f.upvalues) :
    (s.go g).Watched W := by
  refine go_watched h fun hmade => absurd ?_ hf
  unfold Frame.Made at hmade ⊢
  rwa [hg.1, hg.2] at hmade

/-- An instruction of a function of a script. -/
theorem execute_watched (i : Instr) : (s.execute f i).Watched W := by
  -- the function goes on, with the heap as it is or with another one
  have hchange (g : Heap) (f' : Frame) (hf' : f'.proto = f.proto ∧ f'.upvalues = f.upvalues) :
      Watched W { s with heap := g, mode := .execute f' } :=
    same_watched (s := { s with heap := g }) h hf hf'
  have hgo (f' : Frame) (hf' : f'.proto = f.proto ∧ f'.upvalues = f.upvalues) :
      (s.go f').Watched W := hchange s.heap f' hf'
  have hfail (e : Raised) :
      Watched W (fail { s with stack := .script f :: s.stack } .operation e) :=
    fail_watched (s := { s with stack := .script f :: s.stack }) (h.cons _) _ _
  have hcall (f' : Frame) (hf' : f'.proto = f.proto ∧ f'.upvalues = f.upvalues) (g : Value)
      (args : List Value) :
      Watched W { s with stack := .script f' :: s.stack, mode := .call .operation g args } := by
    refine watched_of_ready (h.script fun hmade => hf ?_) nofun
    unfold Frame.Made at hmade ⊢
    rwa [hf'.1, hf'.2] at hmade
  cases i with
  | move dst src =>
    cases dst with
    | register r => exact hgo _ ⟨rfl, rfl⟩
    | box b => exact hchange _ _ ⟨rfl, rfl⟩
    | upvalue u => exact hchange _ _ ⟨rfl, rfl⟩
  | freshBox b src => exact hchange _ _ ⟨rfl, rfl⟩
  | newTable dst array slots => exact hchange _ _ ⟨rfl, rfl⟩
  | closure dst p => exact hchange _ _ ⟨rfl, rfl⟩
  | setList table first count offset more =>
    unfold execute
    dsimp only
    split
    · exact ite_watched (hchange _ _ ⟨rfl, rfl⟩) (hgo _ ⟨rfl, rfl⟩)
    · exact hgo _ ⟨rfl, rfl⟩
  | index dst object key =>
    unfold execute
    dsimp only
    split
    · exact ite_watched (operate_watched h hf _ _) (hgo _ ⟨rfl, rfl⟩)
    · exact operate_watched h hf _ _
  | setIndex object key value =>
    unfold execute
    dsimp only
    split
    · exact hchange _ _ ⟨rfl, rfl⟩
    · exact operate_watched h hf _ _
  | method dst object key => exact operate_watched (f := f.put (dst + 1) _) h hf _ _
  | arith op dst a b =>
    unfold execute
    dsimp only
    split
    · exact hgo _ ⟨rfl, rfl⟩
    · exact operate_watched h hf _ _
  | not dst a | jump target | stash first count more => exact hgo _ ⟨rfl, rfl⟩
  | length dst a | concat dst first count => exact operate_watched h hf _ _
  | test a sense target =>
    refine hgo _ ?_
    split
    · exact ⟨rfl, rfl⟩
    · exact ⟨rfl, rfl⟩
  | compare op a b sense target =>
    unfold execute
    dsimp only
    split
    · refine hgo _ ?_
      split
      · exact ⟨rfl, rfl⟩
      · exact ⟨rfl, rfl⟩
    · exact operate_watched h hf _ _
  | varargs want =>
    unfold execute
    dsimp only
    split
    · exact hgo _ (f.putAll_same _ _ _)
    · exact hgo _ ⟨rfl, rfl⟩
  | call fn count more want => exact hcall { f with want := want, hand := [] } ⟨rfl, rfl⟩ _ _
  | iterate base count =>
    exact hcall { f with want := .registers (base + 4) count } ⟨rfl, rfl⟩ _ _
  | tailCall fn count more =>
    show (s.tailCallFrom f fn count more).Watched W
    unfold tailCallFrom
    dsimp only
    split
    · exact enter_watched (s := { s with slots := s.slots - (f.proto.registers + 2) }) h _ _
    · exact hcall { f with want := .result, hand := [] } ⟨rfl, rfl⟩ _ _
  | ret first count more => exact watched_of_ready h nofun
  | forPrepare base target =>
    unfold execute
    dsimp only
    split
    · exact hfail _
    · exact hgo _ ⟨rfl, rfl⟩
    · exact hgo _ ⟨rfl, rfl⟩
  | forLoop base target =>
    unfold execute
    dsimp only
    split
    · exact ite_watched (hgo _ ⟨rfl, rfl⟩) (hgo _ ⟨rfl, rfl⟩)
    · exact ite_watched (hgo _ ⟨rfl, rfl⟩) (hgo _ ⟨rfl, rfl⟩)
    · exact hgo _ ⟨rfl, rfl⟩
  | iterateLoop base target =>
    unfold execute
    exact ite_watched (hgo _ ⟨rfl, rfl⟩) (hgo _ ⟨rfl, rfl⟩)
  | markClose level a =>
    unfold execute
    exact ite_watched (hgo _ ⟨rfl, rfl⟩) (ite_watched (hfail _) (hgo _ ⟨rfl, rfl⟩))
  | close level =>
    unfold execute
    dsimp only
    split
    · refine ite_watched ?_ (hgo _ ⟨rfl, rfl⟩)
      refine nest_watched (s := { s with stack := .script _ :: s.stack }) ?_ _ _ _
      exact Stack.Ready.push (h.script hf) id
    · exact hgo _ ⟨rfl, rfl⟩

theorem resume_watched (vs : List Value) : (s.resume f vs).Watched W := by
  unfold resume
  split
  · exact same_watched h hf ⟨rfl, rfl⟩
  · exact same_watched h hf (f.putAll_same _ _ _)
  · exact same_watched h hf ⟨rfl, rfl⟩
  · refine same_watched h hf ?_
    split
    · exact ⟨rfl, rfl⟩
    · exact ⟨rfl, rfl⟩
  · exact watched_of_ready h nofun
  · exact same_watched h hf ⟨rfl, rfl⟩

end

/-! ### The way out of a protected call -/

/-- The stack of the caller of a protected call that is on its way out. -/
theorem ready_of_passing {rest : List Task} {l : Option Nat} {n : Nat}
    (hc : Stack.Covered W s.stack)
    (hrest : ¬Stack.TopMade W rest) (h : Guard.Passing W l vs rest n s) : Stack.Ready W rest := by
  refine ⟨?_, hrest⟩
  cases h with
  | work f hf hmode hstack => exact hstack ▸ hc
  | call f hf hexpects callee args hmode hstack =>
    rw [hstack] at hc
    exact hc.2
  | receive f hf hexpects ws hmode hstack =>
    rw [hstack] at hc
    exact hc.2

/-- A state on the way out of a protected call. -/
theorem watched_of_passing {rest : List Task} {l : Option Nat} {n : Nat}
    (hrest : Stack.Ready W rest)
    (h : Guard.Passing W l vs rest n s) : s.Watched W := by
  refine ⟨?_, .passing l vs rest n hrest.top h⟩
  cases h with
  | work f hf hmode hstack => exact hstack ▸ hrest.covered
  | call f hf hexpects callee args hmode hstack => exact hstack ▸ hrest.cons _
  | receive f hf hexpects ws hmode hstack => exact hstack ▸ hrest.cons _

/-- The end of that way. -/
theorem watched_of_outcome {rest : List Task} (hrest : Stack.Ready W rest)
    (h : Guard.Outcome vs rest s) : s.Watched W := by
  cases h with
  | returned ws hws hstack hmode =>
    refine watched_of_ready (hstack ▸ hrest) fun f hf => ?_
    cases hmode.symm.trans hf
  | overrun hoverrun =>
    obtain ⟨f, e, hstack, hmode, -⟩ := hoverrun
    exact watched_of_failing (hstack ▸ hrest.cons _) ⟨e, .inl hmode⟩
  | tooMany hlong e f hstack hmode =>
    exact watched_of_failing (hstack ▸ hrest.cons _) ⟨e, .inl hmode⟩

/-- What arrives at a guard is what a raw call gives. -/
theorem exists_finishes (hs : s.Kept W) {handler : Option Value} {counting : Bool}
    (hstack : s.stack = .guard handler counting :: stack)
    (hmode : s.mode = .deliver vs ∨ s.mode = .unwind e) :
    ∃ f rest ws, Guard.Finishes s f rest ws := by
  have hkept := hs.stack
  rw [hstack] at hkept
  have hawaits := hkept.2.1
  unfold Awaits at hawaits
  split at hawaits
  · obtain hmode | hmode := hmode
    · exact ⟨_, _, _, .values hstack hmode rfl⟩
    · exact ⟨_, _, _, .error hstack hmode rfl⟩
  · exact hawaits.elim

theorem finishes_watched (hs : s.Kept W) (hc : Stack.Covered W s.stack)
    {handler : Option Value} {counting : Bool} (hstack : s.stack = .guard handler counting :: stack)
    (hmode : s.mode = .deliver vs ∨ s.mode = .unwind e) : s.step.Watched W := by
  obtain ⟨f, rest, ws, h⟩ := exists_finishes hs hstack hmode
  refine watched_of_passing (?_ : Stack.Ready W rest) (h.step hs).2
  cases h with
  | values heq =>
    rw [heq] at hc
    exact hc.2.ready id
  | error heq =>
    rw [heq] at hc
    exact hc.2.ready id

/-! ### Moves -/

/-- Values arrive where no protected call waits. -/
theorem deliver_watched (hs : s.Kept W) (h : Stack.Ready W s.stack) (hmode : s.mode = .deliver vs) :
    s.step.Watched W := by
  rcases hstack : s.stack with _ | ⟨t, rest⟩
  · rw [step_deliver hmode]
    unfold deliver
    rw [hstack]
    exact watched_of_ready ⟨trivial, id⟩ nofun
  · have hc := h.covered
    have htop := h.top
    rw [hstack] at hc htop
    -- all but the guard are taken off by the move itself
    have hstep : s.step = _ := step_deliver hmode
    unfold deliver at hstep
    rw [hstack] at hstep
    cases t with
    | guard handler counting =>
      exact finishes_watched (e := .memory) hs h.covered hstack (.inl hmode)
    | script f =>
      rw [hstep]
      exact resume_watched (s := { s with stack := rest, mode := .deliver [] }) (hc.ready id) htop _
    | library b k | operation k =>
      rw [hstep]
      exact perform_watched
        (s := { s with stack := rest, mode := .deliver [], depth := s.depth - 1 })
        (hc.ready id) _ _
    | handling =>
      rw [hstep]
      exact unwinding_watched
        (s := { s with
          stack := rest, mode := .deliver [], depth := s.depth - 1, handlers := s.handlers - 1 })
        hc.2 _
    | closing e more =>
      rw [hstep]
      exact closeNext_watched
        (s := { s with stack := rest, mode := .deliver [], depth := s.depth - 1 }) (hc.ready id) _ _
    | root closes =>
      rw [hstep]
      exact watched_of_ready (hc.ready id) nofun

/-- An error leaves the top of the stack. -/
theorem unwindTop_watched (hs : s.Kept W) (hc : Stack.Covered W s.stack)
    (hmode : s.mode = .unwind e) : s.step.Watched W := by
  rcases hstack : s.stack with _ | ⟨t, rest⟩
  · rw [step_unwind hmode]
    unfold unwindTop
    rw [hstack]
    exact watched_of_failing trivial ⟨e, .inr (.inr rfl)⟩
  · have hstep : s.step = _ := step_unwind hmode
    unfold unwindTop at hstep
    have hc' := hc
    rw [hstack] at hstep hc'
    cases t with
    | guard handler counting =>
      have hmode' : s.mode = .deliver [] ∨ s.mode = .unwind e := .inr hmode
      exact finishes_watched hs hc hstack hmode'
    | script f =>
      rw [hstep]
      exact closeNext_watched (s := { s with stack := rest, slots := _ }) (hc'.ready id) _ _
    | closing e' more =>
      rw [hstep]
      exact closeNext_watched (s := { s with stack := rest, depth := s.depth - 1 })
        (hc'.ready id) _ _
    | library b k | operation k | handling =>
      rw [hstep]
      exact watched_of_failing hc'.2 ⟨e, .inr (.inl hmode)⟩
    | root closes =>
      rw [hstep]
      exact watched_of_failing hc'.2 ⟨e, .inr (.inr rfl)⟩

/-- A protected call makes its call. -/
theorem advance_made_watched (h : Stack.Ready W s.stack) (hk : s.heap.Kept W)
    (hf : f.Guarded W s.heap.tables.size) (hpc : f.pc ≤ 3) : (step.advance s f).Watched W := by
  have hmove := advance_guarded hk hf
  generalize step.advance s f = t at hmove ⊢
  cases hmove with
  | go f' hf' hnext hplain => exact go_watched h fun _ => by omega
  | call f' hf' hnext hexpects callee args hargs hcallee =>
    refine ⟨h.cons _, .catching .operation args ?_ rfl⟩
    obtain ⟨-, hraw⟩ | ⟨hat, -⟩ | ⟨hat, -⟩ | ⟨hat, -⟩ | ⟨hat, -⟩ := hcallee
    · exact hraw
    all_goals omega
  | index f' hf' hat => omega
  | ret hat => omega

/-- A function at work that has no raw call behind it. -/
theorem execute_plain_watched (hs : s.Kept W) (h : Stack.Ready W s.stack)
    (hmode : s.mode = .execute f) (hpc : f.Made W → f.pc ≤ 3) : s.step.Watched W := by
  obtain hstep | ⟨left, hstep⟩ := Guard.step_execute_cases hmode
  · rw [hstep]
    exact trip_watched (s := { s with mode := .deliver [] }) h _
  · rw [hstep]
    by_cases hf : f.Made W
    · have hguarded := Guard.guarded_of_execute hs hmode hf
      exact advance_made_watched (s := { s with left := left, mode := .deliver [] }) h hs.heap
        hguarded (hpc hf)
    · unfold step.advance
      split
      · exact execute_watched (s := { s with left := left, mode := .deliver [] })
          (f := { f with pc := f.pc + 1 }) h hf _
      · exact watched_of_ready h nofun

namespace Watched

/-- A move keeps a state watched. -/
theorem step (hw : s.Watched W) (hs : s.Kept W) : s.step.Watched W := by
  have hc := hw.covered
  cases hw.attended with
  | plain htop hexecute =>
    have h : Stack.Ready W s.stack := ⟨hc, htop⟩
    cases hmode : s.mode with
    | execute f => exact execute_plain_watched hs h hmode (hexecute f hmode)
    | call o f args =>
      rw [step_call hmode]
      exact call_watched (s := { s with mode := .deliver [] }) h o f args
    | deliver vs => exact deliver_watched hs h hmode
    | raise e =>
      rw [step_raise hmode]
      exact raised_watched hc e
    | unwind e => exact unwindTop_watched hs hc hmode
    | ended e =>
      rw [step_ended hmode]
      exact hw
  | failing hfailing =>
    obtain ⟨e, hmode | hmode | hmode⟩ := hfailing
    · rw [step_raise hmode]
      exact raised_watched hc e
    · exact unwindTop_watched hs hc hmode
    · rw [step_ended hmode]
      exact hw
  | catching o args hcallee hmode =>
    rw [step_call hmode]
    exact call_catching (s := { s with mode := .deliver [] }) hc o hcallee args
  | passing l vs rest n hrest h =>
    have hready := ready_of_passing hc hrest h
    obtain ⟨m, -, hnext⟩ | hend := h.step hs
    · exact watched_of_passing hready hnext
    · exact watched_of_outcome hready hend

/-- So does the collector. -/
theorem tidy (hw : s.Watched W) : s.tidy.Watched W := by
  obtain heq | ⟨⟨f, hmode⟩, heq | ⟨-, heq⟩⟩ := s.tidy_eq_or
  · rwa [heq]
  · cases hw.attended with
    | plain htop hexecute =>
      rw [heq]
      exact ⟨hw.covered, .plain htop hexecute⟩
    | failing hfailing =>
      rw [heq]
      exact watched_of_failing (s := { s with heap := _ }) hw.covered hfailing
    | catching o args hcallee hcall => cases hmode.symm.trans hcall
    | passing l vs rest n hrest h =>
      have hready := ready_of_passing hw.covered hrest h
      obtain hnext | ⟨-, hmemory, hstack⟩ := h.tidy
      · exact watched_of_passing hready hnext
      · exact watched_of_failing (hstack ▸ hready.covered) ⟨.memory, .inr hmemory⟩
  · rw [heq]
    exact unwinding_watched (s := { s with heap := s.heap.collected s.roots s.showsAll })
      hw.covered _

end Watched

/-! ### Returns -/

/-- The next move takes values from a call to its caller: it returns them itself, or it hands on
what another function has returned in its place. -/
inductive Leaves (s : State) (f : Frame) (vs : List Value) : Prop
  | returns (hmode : s.mode = .execute f) (hstack : s.step.stack = s.stack)
      (hnext : s.step.mode = .deliver vs)
  | handsOn {ws : List Value} (hmode : s.mode = .deliver ws)
      (hstack : s.stack = .script f :: s.step.stack) (hnext : s.step.mode = .deliver vs)

/-- In a run that has overrun its budget no protected call returns. -/
theorem Watched.not_leaves (hw : s.Watched W) (hs : s.Kept W) (htripped : s.heap.tripped = true)
    (hf : f.Made W) : ¬s.Leaves f vs := by
  have hmark : s.step.heap.tripped = true := by
    obtain heq | ⟨-, hmark⟩ := (step_leads hs).tripped
    · exact heq.trans htripped
    · exact hmark
  -- on the way out of a protected call the mark is noticed
  have hpassing {l : Option Nat} {ws : List Value} {n : Nat}
      (h : Guard.Passing W l ws s.step.stack n s)
      (hnext : s.step.mode = .deliver vs) : False := by
    obtain ⟨m, -, hgoes⟩ | hend := h.step hs
    · exact hgoes.stack_ne hnext rfl
    · cases hend with
      | returned ws hws hstack hmode hclean => cases hclean.symm.trans hmark
      | overrun hoverrun =>
        obtain ⟨f, e, -, hmode, -⟩ := hoverrun
        cases hmode.symm.trans hnext
      | tooMany hlong e f hstack hmode => cases hmode.symm.trans hnext
  rintro (⟨hmode, hstack, hnext⟩ | ⟨hmode, hstack, hnext⟩)
  · -- the call is at work: before its raw call it has nothing to return
    cases hw.attended with
    | plain htop hexecute =>
      have hpc := hexecute f hmode hf
      have hguarded := Guard.guarded_of_execute hs hmode hf
      obtain hstep | ⟨left, hstep⟩ := Guard.step_execute_cases hmode
      · rw [hstep] at hnext
        cases hnext
      · have hmove := advance_guarded (s := { s with left := left, mode := .deliver [] }) hs.heap
          hguarded
        rw [← hstep] at hmove
        generalize s.step = t at hmove hnext
        cases hmove with
        | go f' => cases hnext
        | call f' => cases hnext
        | index f' hf' hat => omega
        | ret hat => omega
    | failing hfailing =>
      obtain ⟨e, h | h | h⟩ := hfailing
      all_goals cases hmode.symm.trans h
    | catching o args hcallee h => cases hmode.symm.trans h
    | passing l ws rest n hrest h =>
      cases h with
      | work f' hf' hmode' hstack' hpc hhand hcarries hlimit hn =>
        refine hpassing (.work f' hf' hmode' hstack.symm hpc hhand hcarries hlimit hn) hnext
      | call f' hf' hexpects callee args hmode' => cases hmode.symm.trans hmode'
      | receive f' hf' hexpects ws hmode' => cases hmode.symm.trans hmode'
  · -- values arrive at the call: only the way out brings any
    cases hw.attended with
    | plain htop hexecute =>
      rw [hstack] at htop
      exact htop hf
    | failing hfailing =>
      obtain ⟨e, h | h | h⟩ := hfailing
      all_goals cases hmode.symm.trans h
    | catching o args hcallee h => cases hmode.symm.trans h
    | passing l ws rest n hrest h =>
      cases h with
      | work f' hf' hmode' => cases hmode.symm.trans hmode'
      | call f' hf' hexpects callee args hmode' => cases hmode.symm.trans hmode'
      | receive f' hf' hexpects ws hmode' hstack' hgives hcarries hlimit hn =>
        -- the rest of the stack is that of its caller, where the way ends
        have htail := (List.cons.inj (hstack.symm.trans hstack')).2
        exact hpassing
          (.receive f' hf' hexpects ws hmode' (htail ▸ hstack') hgives hcarries hlimit hn) hnext

end State

end StoryPack.Script
