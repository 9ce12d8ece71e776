/-
The library on values whose references are renamed.

The readers of views look at backing tables, which correspond in both heaps.
Together with the other libraries this covers every library function that scripts
can get hold of, and the function that refuses writes.

* `Library.runView_renamed` — the readers of views;
* `Builtin.run_renamed` — all library functions that are called for scripts.
-/
import StoryPack.Proofs.Renaming.Library.Maths
import StoryPack.Proofs.Renaming.Library.Strings
import StoryPack.Proofs.Renaming.Library.Tables
import StoryPack.Script.Library

namespace StoryPack.Script

variable {σ : Renaming} (args : List Value)

namespace Library

theorem hostTable_renamed (n : Nat) :
    (hostTable args n).Renamed σ σ.table (hostTable (σ.values args) n) := by
  have hname := σ.hostTypeName_value (Argument.get args n)
  unfold hostTable
  rw [Argument.get_values]
  generalize Argument.get args n = v at hname ⊢
  cases v with
  | table r => exact .pure r
  | _ =>
    dsimp only [Renaming.value] at hname ⊢
    rw [hname]
    exact .fail _

/-- The readers of views, and the function that refuses writes. -/
theorem runView_renamed (f : ViewFunction) :
    (runView f args).Renamed σ σ.values (runView f (σ.values args)) := by
  have hlength (r : Nat) : Action.Renamed σ σ.values
      (Action.read fun h => [.int (Int64.ofNat (h.table (h.readThrough r)).length)])
      (Action.read fun h => [.int (Int64.ofNat (h.table (h.readThrough (σ.table r))).length)]) := by
    refine .read fun h h' hh => ?_
    rw [hh.readThrough, (hh.table _).length]
    rfl
  cases f with
  | next =>
    refine .bind (hostTable_renamed args 1) fun r => ?_
    refine .bind (.read fun _ _ hh => hh.readThrough r) fun r => ?_
    intro h h' hh
    have hnext := nextEntry_renamed r (Argument.get args 2) h h' hh
    dsimp only
    rw [Argument.get_values]
    generalize nextEntry r (Argument.get args 2) h = run at hnext ⊢
    generalize nextEntry (σ.table r) (σ.value (Argument.get args 2)) h' = run' at hnext ⊢
    cases hnext with
    | done hh a => exact .done hh a
    | failed hh e => cases e <;> exact .failed hh _
    | call hh g args hnext => exact .call hh g args hnext
  | rawget =>
    refine .bind (hostTable_renamed args 1) fun r => .read fun h h' hh => ?_
    rw [hh.readThrough, Argument.get_values, (hh.table _).getValue]
    rfl
  | rawlen =>
    have hname := σ.hostTypeName_value (Argument.get args 1)
    unfold runView
    dsimp only
    rw [Argument.get_values]
    generalize Argument.get args 1 = v at hname ⊢
    cases v with
    | table r => exact hlength r
    | str s => exact .pure [Value.int _]
    | _ =>
      dsimp only [Renaming.value] at hname ⊢
      rw [hname]
      exact .fail _
  | pairs =>
    exact .bind (hostTable_renamed args 1) fun r =>
      .pure [Value.builtin (.view .next), .table r, .nil]
  | length => exact .bind (hostTable_renamed args 1) hlength
  | deny => exact .fail _

end Library

/-- The library functions that are called for scripts, but for protected calls. -/
theorem Builtin.run_renamed {f : Builtin} (hf : f.isOpen = true ∨ f = .view .deny) :
    (f.run args).Renamed σ σ.values (f.run (σ.values args)) := by
  cases f with
  | base f =>
    have hopen : (Builtin.base f).isOpen = true := by
      rcases hf with hf | hf
      · exact hf
      · cases hf
    cases f
    case load | loadfile | dofile => cases hopen
    all_goals exact Library.runBase_renamed args hopen
  | string f => exact Library.runString_renamed args f
  | table f => exact Library.runTable_renamed args f
  | math f => exact Library.runMath_renamed args f
  | debug f =>
    rcases hf with hf | hf
    · cases hf
    · cases hf
  | view f => exact Library.runView_renamed args f
  | stringArith op => exact Library.stringArith_renamed args op
  | tripped =>
    refine .read fun h h' hh => ?_
    rw [hh.tripped]
    rfl

end StoryPack.Script
