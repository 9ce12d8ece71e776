/-
Running the machine.

* `State.run` — makes moves until the run has ended;
* `State.start` — the start of a call from outside;
* `Heap.perform` — a whole call: the heap after it, and how it ended.
-/
import StoryPack.Script.Live

namespace StoryPack.Script

/-- How a call from outside ends. -/
inductive Conclusion where
  | values (vs : List Value)
  | failed (e : Failure)
  /-- It has not ended within the patience for it. -/
  | unfinished
deriving Inhabited

namespace State

/-- Runs the collector before an instruction when it is time to. -/
@[inline] def tidy (s : State) : State :=
  match s.mode with
  | .execute _ => if s.heap.isDue then s.collect else s
  | _ => s

/-- Makes moves until the run has ended. -/
def run : (patience : Nat) → State → State
  | 0, s => s
  | patience + 1, s =>
    match s.mode with
    | .ended _ => s
    | _ => run patience s.tidy.step

/-- How a run has ended. -/
def conclusion (s : State) : Conclusion :=
  match s.mode with
  | .ended (.values vs) => .values vs
  | .ended (.failed e) => .failed e
  | _ => .unfinished

/-- The start of a call. `closes` says whether an error closes variables that are to be closed. -/
def start (h : Heap) (closes : Bool) (budget : Option Nat) (held : List Value) (f : Value)
    (args : List Value) : State :=
  let budget := (budget.map (max 1)).getD 0
  { heap := h, stack := [.root closes], mode := .call (.library none) f args, budget := budget,
    left := budget, held := held }

end State

/-- How many moves a run may take: more than any run gets to. -/
def patience : Nat := 0x1000000000000000

/-- Calls a function from outside. -/
def Heap.perform (h : Heap) (patience : Nat) (closes : Bool) (budget : Option Nat)
    (held : List Value) (f : Value) (args : List Value) : Heap × Conclusion :=
  let s := (State.start h closes budget held f args).run patience
  (s.heap, s.conclusion)

end StoryPack.Script
