/-
All that is done with values that are no tables.

Such values are read and written to, they are operands, they are shown, called
and iterated over, and strings have methods.  In heaps that are alike all of this
takes the same course: it has the same result, fails with the same error, or asks
for the same call.

* `Use`, `Use.run` — what is done with values;
* `Use.Suits` — the uses of values that are no tables;
* `Use.steady` — their courses are alike in heaps that are alike;
* `State.mode_call` — calls of such values go on in the same way.
-/
import StoryPack.Proofs.Primitives.Library
import StoryPack.Proofs.Script.Finding
import StoryPack.Proofs.Renaming.Machine

namespace StoryPack.Script

/-- What is done with values. -/
inductive Use where
  /-- Reading a key, also that of a method. -/
  | index (object key : Value)
  | setIndex (object key value : Value)
  | arith (op : Arith) (a b : Value)
  | compare (op : Comparison) (a b : Value)
  | concat (values : List Value)
  | length (v : Value)
  /-- A call of a library function. -/
  | apply (f : Builtin) (args : List Value)

/-- The action that a use of values is. -/
def Use.run : Use → Action (List Value)
  | .index object key => do return [← Operation.index object key]
  | .setIndex object key value => do
    Operation.setIndex object key value
    return []
  | .arith op a b => do return [← Operation.arith op a b]
  | .compare op a b => do return [.bool (← Operation.compare op a b)]
  | .concat values => do return [← Operation.concat values]
  | .length v => do return [← Operation.length v]
  | .apply f args => f.run args

/-- The uses of values that are no tables. Operands may be tables of which the metamethods are
known, what is read may be a table that is read alike, and keys and what is written may be
anything. -/
def Use.Suits (T : Known) : Use → Prop
  | .index object _ => object.Reads T
  | .setIndex object _ _ | .length object => ∀ r, object ≠ .table r
  | .arith _ a b | .compare _ a b => a.Suits T ∧ b.Suits T
  | .concat values => ∀ v ∈ values, v.Suits T
  | .apply f args => f.isPlain ∧ (∀ v ∈ args, v.Suits T) ∧
    (f.readsTable → ∀ v ∈ args, ∀ r, v ≠ .table r) ∧ (f.indexes → ∀ v ∈ args, v.Reads T)

variable {T : Known} {args : List Value}

/-- The library functions, those aside which give or set metatables, make tables or count bytes. -/
theorem Builtin.run_steady {f : Builtin} (hf : f.isPlain) (hargs : ∀ v ∈ args, v.Suits T)
    (htable : f.readsTable → ∀ v ∈ args, ∀ r, v ≠ .table r)
    (hread : f.indexes → ∀ v ∈ args, v.Reads T) : (f.run args).Steady T := by
  cases f with
  | base f =>
    cases f with
    | load => exact Library.load_steady hargs
    | loadfile => exact Library.loadfile_steady hargs
    | dofile => exact Library.dofile_steady hargs
    | _ => exact Library.runBase_steady hargs hf htable hread
  | string f =>
    refine Library.runString_steady hargs f fun hgsub => ?_
    subst hgsub
    exact Argument.get_reads (hread rfl) 3
  | table f => exact Library.runTable_steady (htable rfl) hf
  | math f => exact Library.runMath_steady hargs f
  | debug f =>
    cases f with
    | traceback => exact Library.traceback_steady args
    | _ => cases hf
  | view f => exact Library.runView_steady (htable rfl) f
  | stringArith op => exact Library.stringArith_steady hargs op
  | tripped => exact .read fun g h hgh => by rw [hgh.tripped]

/-- The uses of values that are no tables take the same course. -/
theorem Use.steady {u : Use} (hu : u.Suits T) : u.run.Steady T := by
  cases u with
  | index object key => exact .bind (Operation.index_steady hu key) fun v => .pure [v]
  | setIndex object key value =>
    exact .bind (Operation.setIndex_steady hu key value) fun _ => .pure []
  | arith op a b => exact .bind (Operation.arith_steady hu.1 hu.2 op) fun v => .pure [v]
  | compare op a b => exact .bind (Operation.compare_steady op hu.1 hu.2) fun v => .pure _
  | concat values => exact .bind (Operation.concat_steady hu) fun v => .pure [v]
  | length v => exact .bind (Operation.length_steady hu) fun v => .pure [v]
  | apply f args => exact Builtin.run_steady hu.1 hu.2.1 hu.2.2.1 hu.2.2.2

/-! ### Calls -/

namespace State

variable (s : State) {g h : Heap} (hgh : g.Alike T h) (o : Origin)

include hgh

theorem mode_enterIfRoom (r : Nat) (args : List Value) :
    ({ s with heap := h }.enterIfRoom r args).mode =
      ({ s with heap := g }.enterIfRoom r args).mode := by
  have hfull := mode_fail s hgh .operation (.operation "stack overflow".toUTF8)
  unfold enterIfRoom
  dsimp only
  rw [hgh.closures]
  split
  · rw [if_pos ‹_›]
    exact hfull
  · rw [if_neg ‹_›]
    rfl

/-- What is neither a table nor a function is called through no metatable. -/
theorem calledThrough_of_ne (args : List Value) {f : Value} (hf : ∀ r, f ≠ .table r)
    (hfun : ∀ b, f ≠ .function b) (room : Nat) :
    calledThrough g (room + 1) f args = some (f, args) ∧
      calledThrough h (room + 1) f args = some (f, args) := by
  obtain ⟨D, E, t, hD, hE⟩ := hgh.usual
  have hnil := f.usualField_eq_nil Event.call fun op => by cases op <;> decide
  have hg := hD.metafield f hf Event.call (by decide) (by decide)
  have hh := hE.metafield f hf Event.call (by decide) (by decide)
  rw [hnil] at hg hh
  unfold calledThrough
  cases f with
  | table r => exact absurd rfl (hf r)
  | function b => exact absurd rfl (hfun b)
  | _ =>
    dsimp only
    rw [hg, hh]
    exact ⟨rfl, rfl⟩

theorem mode_notCallable (f : Value) (hf : f.Suits T) :
    ({ s with heap := h }.notCallable o f).mode = ({ s with heap := g }.notCallable o f).mode := by
  unfold notCallable
  dsimp only
  rw [hgh.typeName hf]
  rfl

/-- A call of what is neither a table nor a function fails in the same way. -/
theorem mode_call_of_ne {f : Value} (hf : ∀ r, f ≠ .table r) (hfun : ∀ b, f ≠ .function b) :
    ({ s with heap := h }.call o f args).mode = ({ s with heap := g }.call o f args).mode := by
  have hcall (k : Heap) : { s with heap := k }.call o f args =
      { s with heap := k }.callReached o (calledThrough k (slotLimit + 1 - s.slots) f args) := by
    cases f with
    | table r => exact absurd rfl (hf r)
    | function b => exact absurd rfl (hfun b)
    | _ => rfl
  have hreached (k : Heap) : { s with heap := k }.callReached o (some (f, args)) =
      { s with heap := k }.notCallable o f := by
    cases f with
    | function b => exact absurd rfl (hfun b)
    | _ => rfl
  rw [hcall g, hcall h]
  cases hroom : slotLimit + 1 - s.slots with
  | zero => exact mode_fail s hgh o _
  | succ room =>
    obtain ⟨hg, hh⟩ := calledThrough_of_ne hgh args hf hfun room
    rw [hg, hh, hreached g, hreached h]
    exact mode_notCallable s hgh o f (Value.suits_of_ne hf)

/-- A protected call is begun in the same way. -/
theorem mode_call_xpcall (hargs : ∀ v ∈ args, v.Suits T) :
    ({ s with heap := h }.call o (.builtin (.base .xpcall)) args).mode =
      ({ s with heap := g }.call o (.builtin (.base .xpcall)) args).mode := by
  have hfail := mode_fail s hgh (.library (some (.base .xpcall)))
    (.argument 2 ("function expected, got ".toUTF8 ++ Argument.typeName g args 2))
  have hname := hgh.argumentName args 2 (Argument.suits_get hargs 2)
  unfold call Value.builtin
  dsimp only
  split
  · exact mode_nest s hgh _ _ rfl _ _ _
  · rw [hname]
    exact hfail

/-- A value that is no table is called in the same way: a function is entered or run, what catches
errors calls in turn, and any other value can not be called. -/
theorem mode_call {f : Value} (hf : ∀ r, f ≠ .table r) (hargs : ∀ v ∈ args, v.Suits T)
    (hbuiltin : ∀ b : Builtin, f = .builtin b → b ≠ .base .pcall → b ≠ .base .xpcall →
      (Use.apply b args).Suits T) :
    ({ s with heap := h }.call o f args).mode = ({ s with heap := g }.call o f args).mode := by
  have hperform (o : Origin) {a : Action (List Value)} (ha : a.Steady T) :
      ({ s with heap := h }.perform o a).mode = ({ s with heap := g }.perform o a).mode :=
    mode_follow { s with heap := {} } o (ha g h hgh)
  by_cases hfun : ∃ b, f = .function b
  · obtain ⟨b, rfl⟩ := hfun
    cases b with
    | closure r => exact mode_enterIfRoom s hgh r args
    | matcher r => exact hperform (.library none) (Library.nextMatch_steady r)
    | builtin b =>
      -- what catches errors is no action: it makes another call, and waits for it
      by_cases hpcall : b = .base .pcall
      · subst hpcall
        cases args with
        | nil => exact mode_fail s hgh _ _
        | cons f args => exact mode_nest s hgh _ _ rfl _ f args
      by_cases hxpcall : b = .base .xpcall
      · subst hxpcall
        exact mode_call_xpcall s hgh o hargs
      have hcall (k : Heap) := call_builtin { s with heap := k } o hpcall hxpcall args
      have happly := Use.steady (hbuiltin b rfl hpcall hxpcall)
      calc _ = _ := congrArg State.mode (hcall h)
        _ = _ := hperform (.library (some b)) happly
        _ = _ := (congrArg State.mode (hcall g)).symm
  · exact mode_call_of_ne s hgh o hf fun b hb => hfun ⟨b, hb⟩

end State

end StoryPack.Script
