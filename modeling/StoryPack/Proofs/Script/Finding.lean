/-
What is only looked up.

Much of what scripts ask for changes nothing: the action leaves the heap as it is
and gives a result, and so do the library functions that it calls on its way.
Where the machine is asked for it, it comes to the result in a few moves.  A loop
over an iterator that only looks things up comes to the same pairs whenever it is
run.

* `Run.Finds` — the course of an action that only looks things up;
* `State.perform_finds` — the machine comes to what is found;
* `Heap.Traverses` — what a loop over an iterator comes to;
* `Run.Finds.unique`, `Heap.Traverses.unique` — both are determined.
-/
import StoryPack.Proofs.Script.Budget

namespace StoryPack.Script

/-- An action whose course leaves a heap as it is, and so do the library functions that it calls:
what it gives. The machine makes protected calls by itself. -/
inductive Run.Finds {α : Type} (h : Heap) : Run α → α → Prop
  | done (a : α) : Finds h (.done h a) a
  | call {f : Builtin} {args vs : List Value} {next : Heap → List Value → Run α} {a : α}
    (hpcall : f ≠ .base .pcall) (hxpcall : f ≠ .base .xpcall)
    (hrun : f.run args h = .done h vs) (hnext : Finds h (next h vs) a) :
    Finds h (.call h (.builtin f) args next) a

/-- There is one thing that is found. -/
theorem Run.Finds.unique {α : Type} {h : Heap} {r : Run α} {a b : α} (ha : r.Finds h a)
    (hb : r.Finds h b) : a = b := by
  induction ha with
  | done a =>
    cases hb
    rfl
  | call _ _ hrun _ ih =>
    cases hb with
    | call _ _ hrun' hnext' =>
      obtain ⟨-, rfl⟩ := Run.done.inj (hrun.symm.trans hrun')
      exact ih hnext'

namespace State

/-- The task that waits for the values of a call. -/
def waiting (o : Origin) (rest : Rest) : Task :=
  match o with
  | .library f => .library f rest
  | .operation => .operation rest

/-- A call that nests not too deeply is taken up. -/
theorem follow_call (s : State) (o : Origin) (h : Heap) (f : Value) (args : List Value)
    (rest : Rest) (hdepth : s.depth + 1 < depthLimit) :
    s.follow o (.call h f args rest) = { s with
      heap := h, stack := waiting o rest :: s.stack, depth := s.depth + 1
      mode := .call o f args } := by
  have hlimit : depthLimit = 200 := rfl
  have hroom : ¬(s.depth + 1 == depthLimit) = true := by
    rw [beq_iff_eq]
    omega
  have hshallow : ¬s.depth + 1 ≥ depthLimit * 11 / 10 := by omega
  show State.nest _ (waiting o rest) o f args = _
  unfold nest
  dsimp only
  rw [if_neg hroom, if_neg hshallow]

/-- What waits gets the values, one level up again. -/
theorem deliver_waiting (s : State) (o : Origin) (rest : Rest) (vs : List Value) :
    ({ s with stack := waiting o rest :: s.stack, depth := s.depth + 1 } : State).deliver vs =
      { s with heap := {}, mode := .deliver [] }.follow o (rest s.heap vs) := by
  cases o <;> rfl

/-- The machine comes to what is found. Each call takes two moves: one to run the library function,
and one to hand over its values. -/
theorem follow_finds {h : Heap} {r : Run (List Value)} {vs : List Value} (hr : r.Finds h vs)
    {s : State} (hdepth : s.depth + 1 < depthLimit) (o : Origin) :
    ∃ n, ∀ m, (s.follow o r).run (n + m) =
      ({ s with heap := h, mode := .deliver vs } : State).run m := by
  induction hr generalizing s with
  | done vs =>
    refine ⟨0, fun m => ?_⟩
    rw [Nat.zero_add]
    rfl
  | call hpcall hxpcall hrun hnext ih =>
    rename_i f args results next vs
    obtain ⟨n, hn⟩ := @ih { s with heap := {}, mode := .deliver [] } hdepth
    refine ⟨n + 2, fun m => ?_⟩
    let asked : State := { s with
      heap := h, stack := waiting o next :: s.stack, depth := s.depth + 1
      mode := .call o (.builtin f) args }
    let answered : State := { asked with mode := .deliver results }
    have hcall : asked.tidy.step = answered := by
      show ({ asked with mode := .deliver [] } : State).call o (.builtin f) args = _
      rw [call_builtin _ o hpcall hxpcall]
      show ({ asked with heap := {}, mode := .deliver [] } : State).follow _ (f.run args h) = _
      rw [hrun]
      rfl
    have hdeliver : answered.tidy.step =
        ({ s with heap := {}, mode := .deliver [] } : State).follow o (next h results) :=
      deliver_waiting { s with heap := h, mode := .deliver results } o next results
    have hfuel : n + 2 + m = (n + m) + 1 + 1 := by omega
    rw [follow_call s o h _ args next hdepth, hfuel, run_eq_step]
    show asked.tidy.step.run _ = _
    rw [hcall, run_eq_step, hdeliver]
    exact hn m

/-- Where the machine performs such an action, it comes to what is found, and nothing else has
changed. -/
theorem perform_finds {s : State} {a : Action (List Value)} {vs : List Value}
    (ha : (a s.heap).Finds s.heap vs) (hdepth : s.depth + 1 < depthLimit) (o : Origin) :
    ∃ n, ∀ m, (s.perform o a).run (n + m) = ({ s with mode := .deliver vs } : State).run m :=
  follow_finds ha (s := { s with heap := {} }) hdepth o

end State

/-! ### Loops -/

/-- What a loop over an iterator comes to from a control value on, up to its end. -/
inductive Heap.Traverses (h : Heap) (f : Builtin) (state : Value) :
    Value → List (Value × Value) → Prop
  | done {control : Value} (hrun : (f.run [state, control] h).Finds h [.nil]) :
    Traverses h f state control []
  | step {control k v : Value} {rest : List (Value × Value)}
    (hrun : (f.run [state, control] h).Finds h [k, v]) (hk : k.isNil = false)
    (hrest : Traverses h f state k rest) : Traverses h f state control ((k, v) :: rest)

/-- There is one sequence of pairs that a loop comes to. -/
theorem Heap.Traverses.unique {h : Heap} {f : Builtin} {state control : Value}
    {items items' : List (Value × Value)} (hitems : h.Traverses f state control items)
    (hitems' : h.Traverses f state control items') : items = items' := by
  induction hitems generalizing items' with
  | done hrun =>
    cases hitems' with
    | done _ => rfl
    | step hrun' hk _ =>
      obtain ⟨rfl, -⟩ := List.cons.inj (hrun.unique hrun')
      cases hk
  | step hrun hk _ ih =>
    cases hitems' with
    | done hrun' =>
      obtain ⟨rfl, -⟩ := List.cons.inj (hrun.unique hrun')
      cases hk
    | step hrun' _ hrest' =>
      obtain ⟨rfl, hvalue⟩ := List.cons.inj (hrun.unique hrun')
      obtain ⟨rfl, -⟩ := List.cons.inj hvalue
      rw [ih hrest']

end StoryPack.Script
