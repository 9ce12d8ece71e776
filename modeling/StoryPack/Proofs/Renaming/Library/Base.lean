/-
The base library on values whose references are renamed.

The checks of arguments look at types and at numbers.  What they give is renamed
like the arguments, or is a number or a text.

* `Argument.table_renamed`, `Argument.integer_renamed`, … — taking arguments;
* `Library.runBase_renamed` — the base functions that scripts can get hold of.
-/
import StoryPack.Proofs.Renaming.Operation
import StoryPack.Proofs.Confinement.Ward
import StoryPack.Script.Library.Base

namespace StoryPack.Script

variable {σ : Renaming} {α : Type}

namespace Argument

@[simp] theorem get_values (args : List Value) (n : Nat) :
    get (σ.values args) n = σ.value (get args n) := σ.getD_values args _

@[simp] theorem given_values (args : List Value) (n : Nat) :
    given (σ.values args) n = given args n := by
  rw [given, σ.length_values, given]

theorem typeName_renamed {h h' : Heap} (hh : h.Renamed σ h') (args : List Value) (n : Nat) :
    typeName h' (σ.values args) n = typeName h args n := by
  unfold typeName
  rw [given_values, get_values, hh.metafield, σ.typeName_value]
  cases h.metafield (get args n) Event.name <;> rfl

variable (args : List Value) (n : Nat)

theorem wrongType_renamed (expected : String) {f : α → α} :
    (wrongType args n expected : Action α).Renamed σ f (wrongType (σ.values args) n expected) := by
  intro h h' hh
  unfold wrongType
  rw [typeName_renamed hh]
  exact .failed hh _

theorem present_renamed : (present args n).Renamed σ σ.value (present (σ.values args) n) := by
  unfold present
  rw [given_values, get_values]
  exact .ite (fun _ => .pure _) fun _ => .badArgument _ _

theorem table_renamed : (table args n).Renamed σ σ.table (table (σ.values args) n) := by
  have hwrong := wrongType_renamed (σ := σ) args n "table" (f := σ.table)
  unfold table
  rw [get_values]
  cases get args n with
  | table r => exact .pure r
  | _ => exact hwrong

theorem function_renamed : (function args n).Renamed σ σ.value (function (σ.values args) n) := by
  have hwrong := wrongType_renamed (σ := σ) args n "function" (f := σ.value)
  unfold function
  rw [get_values]
  cases get args n with
  | function f => exact .pure (Value.function f)
  | _ => exact hwrong

theorem integer_renamed : (integer args n).Renamed σ id (integer (σ.values args) n) := by
  have hwrong := wrongType_renamed (σ := σ) args n "number" (f := @id Int64)
  unfold integer
  rw [get_values, σ.ofValue?_value]
  cases Numeral.ofValue? (get args n) with
  | none => exact hwrong
  | some v =>
    cases v with
    | int i => exact .pure i
    | float x =>
      dsimp only
      cases Numeral.floatToInteger? x with
      | some i => exact .pure i
      | none => exact .badArgument _ _
    | _ => exact hwrong

theorem integerOr_renamed (default : Int64) :
    (integerOr args n default).Renamed σ id (integerOr (σ.values args) n default) := by
  unfold integerOr
  rw [get_values, σ.isNil_value]
  exact .ite (fun _ => .pure _) fun _ => integer_renamed args n

theorem number_renamed : (number args n).Renamed σ id (number (σ.values args) n) := by
  unfold number
  rw [get_values, σ.toFloat?_value]
  cases Numeral.toFloat? (get args n) with
  | some x => exact .pure x
  | none => exact wrongType_renamed args n _

theorem numberOr_renamed (default : Float) :
    (numberOr args n default).Renamed σ id (numberOr (σ.values args) n default) := by
  unfold numberOr
  rw [get_values, σ.isNil_value]
  exact .ite (fun _ => .pure _) fun _ => number_renamed args n

theorem string_renamed : (string args n).Renamed σ id (string (σ.values args) n) := by
  unfold string
  rw [get_values, σ.bytes?_value]
  cases Operation.bytes? (get args n) with
  | some s => exact .pure s
  | none => exact wrongType_renamed args n _

theorem stringOr_renamed (default : ByteArray) :
    (stringOr args n default).Renamed σ id (stringOr (σ.values args) n default) := by
  unfold stringOr
  rw [get_values, σ.isNil_value]
  exact .ite (fun _ => .pure _) fun _ => string_renamed args n

theorem check_renamed (condition : Bool) (message : String) :
    (check condition n message).Renamed σ id (check condition n message) :=
  .ite (fun _ => .pure _) fun _ => .badArgument _ _

end Argument

namespace Library

theorem throwValue_renamed (v : Value) (level : Int64) :
    (throwValue v level).Renamed σ σ.values (throwValue (σ.value v) level) := by
  cases v with
  | str s => exact .ite (fun _ => .fail _) fun _ => .fail (.value (.str s))
  | _ => exact .fail (.value _)

variable (args : List Value)

theorem tonumber_renamed : (tonumber args).Renamed σ σ.values (tonumber (σ.values args)) := by
  unfold tonumber
  rw [Argument.get_values, Argument.get_values, σ.isNil_value]
  refine .ite (fun _ => ?_) fun _ => ?_
  · have hother : Action.Renamed σ σ.values
        (do
          let _ ← Argument.present args 1
          pure [Value.nil])
        (do
          let _ ← Argument.present (σ.values args) 1
          pure [Value.nil]) :=
      .bind (Argument.present_renamed args 1) fun _ => .pure [Value.nil]
    cases Argument.get args 1 with
    | int i => exact .pure [Value.int i]
    | float x => exact .pure [Value.float x]
    | str s =>
      refine .pure_of_eq ?_
      cases hn : Numeral.number? s with
      | none => rfl
      | some n => exact congrArg (· :: []) (σ.value_of_ofValue? (.str s) hn)
    | _ => exact hother
  · refine .andThen (Argument.integer_renamed args 2) fun base => ?_
    have hwrong := Argument.wrongType_renamed (σ := σ) args 1 "string" (f := σ.values)
    cases Argument.get args 1 with
    | str s =>
      refine .andThen (Argument.check_renamed _ _ _) fun _ => .pure_of_eq ?_
      cases integerInBase? s base.toNatClampNeg <;> rfl
    | _ => exact hwrong

theorem select_renamed : (select args).Renamed σ σ.values (select (σ.values args)) := by
  have hnumber : (select.byNumber args (args.drop 1)).Renamed σ σ.values
      (select.byNumber (σ.values args) (σ.values (args.drop 1))) := by
    unfold select.byNumber
    refine .andThen (Argument.integer_renamed args 1) fun i => ?_
    dsimp only
    rw [σ.length_values, σ.drop_values]
    exact .andThen (Argument.check_renamed _ _ _) fun _ => .pure _
  unfold select
  dsimp only
  rw [Argument.get_values, σ.drop_values]
  cases Argument.get args 1 with
  | str s =>
    dsimp only [σ.value_str]
    rw [σ.length_values]
    exact .ite (fun _ => .pure [Value.int _]) fun _ => hnumber
  | _ => exact hnumber

/-- What is given for what comes after a key. -/
def followingEntry (h : Heap) : Table.Following → Run (List Value)
  | .entry k v => .done h [k.toValue, v]
  | .done => .done h [.nil]
  | .invalid => .failed h (.operation "invalid key to 'next'".toUTF8)

theorem nextEntry_nil (r : Nat) (h : Heap) :
    nextEntry r .nil h = followingEntry h ((h.table r).after none) := rfl

theorem nextEntry_of_ne_nil (r : Nat) {key : Value} (hkey : key ≠ .nil) (h : Heap) :
    nextEntry r key h = followingEntry h
      ((key.toKey?.map fun k => (h.table r).after (some k)).getD .invalid) := by
  cases key with
  | nil => exact absurd rfl hkey
  | _ =>
    simp only [nextEntry]
    cases Value.toKey? _ <;> rfl

theorem nextEntry_renamed (r : Nat) (key : Value) :
    (nextEntry r key).Renamed σ σ.values (nextEntry (σ.table r) (σ.value key)) := by
  intro h h' hh
  have hrest (following : Table.Following) : (followingEntry h following).Renamed σ σ.values
      (followingEntry h' (σ.following following)) := by
    cases following with
    | entry k v =>
      dsimp only [Renaming.following, followingEntry]
      rw [← σ.value_toValue]
      exact .done hh [k.toValue, v]
    | done => exact .done hh [Value.nil]
    | invalid => exact .failed hh _
  have hafter (k : Option Key) := (hh.table r).after k
  by_cases hkey : key = .nil
  · subst hkey
    rw [σ.value_nil, nextEntry_nil, nextEntry_nil,
      show (h'.table (σ.table r)).after none = _ from hafter none]
    exact hrest _
  · rw [nextEntry_of_ne_nil r hkey,
      nextEntry_of_ne_nil _ fun hnil => hkey ((σ.value_eq_nil_iff key).mp hnil), σ.toKey?_value]
    cases key.toKey? with
    | none => exact hrest .invalid
    | some k =>
      show (followingEntry h _).Renamed σ σ.values (followingEntry h' ((h'.table (σ.table r)).after
        (some (σ.key k))))
      rw [show (h'.table (σ.table r)).after (some (σ.key k)) = _ from hafter (some k)]
      exact hrest _

theorem setmetatable_renamed :
    (setmetatable args).Renamed σ σ.values (setmetatable (σ.values args)) := by
  refine .bind (Argument.table_renamed args 1) fun r => ?_
  have hrest (m : Option Nat) : Action.Renamed σ σ.values
      (do
        let protection ← Action.read fun h => h.metafield (.table r) Event.metatable
        if !protection.isNil then Action.raise "cannot change a protected metatable"
        else
          Action.modify fun h => h.setMetatable r m
          pure [.table r])
      (do
        let protection ← Action.read fun h => h.metafield (.table (σ.table r)) Event.metatable
        if !protection.isNil then Action.raise "cannot change a protected metatable"
        else
          Action.modify fun h => h.setMetatable (σ.table r) (m.map σ.table)
          pure [.table (σ.table r)]) := by
    refine .bind (f := σ.value) (.read fun _ _ hh => hh.metafield (.table r) _) fun protection => ?_
    rw [σ.isNil_value]
    refine .ite (fun _ => .raise _) fun _ => ?_
    exact .andThen (.modify fun _ _ hh => hh.setMetatable r m) fun _ => .pure [Value.table r]
  have hwrong := Argument.wrongType_renamed (σ := σ) args 2 "nil or table" (f := Option.map σ.table)
  rw [Argument.get_values, Argument.given_values]
  cases Argument.get args 2 with
  | table m => exact .bind (f := Option.map σ.table) (.pure (some m)) hrest
  | nil =>
    refine .ite (fun _ => ?_) fun _ => .bind hwrong hrest
    exact .bind (f := Option.map σ.table) (.pure none) hrest
  | _ => exact .bind hwrong hrest

/-- What is shown of a metatable: the value that it has for that, or else the metatable. -/
def shownMetatable (m : Nat) : Value → List Value
  | .nil => [.table m]
  | shown => [shown]

theorem getmetatable_renamed (v : Value) :
    (getmetatable v).Renamed σ σ.values (getmetatable (σ.value v)) := by
  refine .read fun h h' hh => ?_
  have hmeta := hh.metatable? v
  have hshown (m : Nat) :
      shownMetatable (σ.table m) (h'.getKey (σ.table m) (.str Event.metatable)) =
        σ.values (shownMetatable m (h.getKey m (.str Event.metatable))) := by
    rw [hh.getStr]
    cases h.getKey m (.str Event.metatable) <;> rfl
  cases v with
  | fault r => rfl
  | _ =>
    dsimp only [Renaming.value] at hmeta ⊢
    rw [hmeta]
    generalize Heap.metatable? h _ = m
    cases m with
    | none => rfl
    | some m => exact hshown m

/-- The base functions that scripts can get hold of. -/
theorem runBase_renamed {f : BaseFunction} (hf : (Builtin.base f).isOpen = true) :
    (runBase f args).Renamed σ σ.values (runBase f (σ.values args)) := by
  cases f with
  | collectgarbage | dofile | load | loadfile | pcall | print | rawget | rawlen | rawset | warn |
    xpcall => cases hf
  | assert =>
    unfold runBase
    dsimp only
    rw [Argument.get_values, σ.truthy_value]
    refine .ite (fun _ => .pure args) fun _ => .bind (Argument.present_renamed args 1) fun _ => ?_
    have hmessage : (σ.values args).getD 1 (.ofString "assertion failed!") =
        σ.value (args.getD 1 (.ofString "assertion failed!")) := by
      match args with
      | [] | [_] | _ :: _ :: _ => rfl
    rw [hmessage]
    exact throwValue_renamed _ 1
  | error =>
    refine .andThen (Argument.integerOr_renamed args 2 1) fun level => ?_
    rw [Argument.get_values]
    exact throwValue_renamed _ level
  | getmetatable => exact .bind (Argument.present_renamed args 1) getmetatable_renamed
  | ipairs =>
    exact .bind (Argument.present_renamed args 1) fun v =>
      .pure [.builtin (.base .ipairsStep), v, .int 0]
  | ipairsStep =>
    refine .andThen (Argument.integer_renamed args 2) fun i => ?_
    rw [Argument.get_values]
    refine .bind (Operation.index_renamed _ (.int (i + 1))) fun v => .pure_of_eq ?_
    rw [σ.isNil_value]
    split <;> rfl
  | next =>
    refine .bind (Argument.table_renamed args 1) fun r => ?_
    rw [Argument.get_values]
    exact nextEntry_renamed r _
  | pairs =>
    refine .bind (Argument.present_renamed args 1) fun v => ?_
    refine .bind (f := σ.value) (.read fun _ _ hh => hh.metafield v Event.pairs) fun f => ?_
    have hcall : Action.Renamed σ σ.values
        (do
          let vs ← Action.call f [v]
          pure [vs.getD 0 .nil, vs.getD 1 .nil, vs.getD 2 .nil])
        (do
          let vs ← Action.call (σ.value f) (σ.values [v])
          pure [vs.getD 0 .nil, vs.getD 1 .nil, vs.getD 2 .nil]) := by
      refine .bind (.call f [v]) fun vs => .pure_of_eq ?_
      simp only [σ.getD_values, σ.values_cons, σ.values_nil]
    cases f with
    | nil => exact .pure [.builtin (.base .next), v, .nil]
    | _ => exact hcall
  | rawequal =>
    refine .bind (Argument.present_renamed args 1) fun a => ?_
    refine .bind (Argument.present_renamed args 2) fun b => .pure_of_eq ?_
    rw [σ.rawEqual_value]
    rfl
  | select => exact select_renamed args
  | setmetatable => exact setmetatable_renamed args
  | tonumber => exact tonumber_renamed args
  | tostring =>
    refine .bind (Argument.present_renamed args 1) fun v => ?_
    exact .andThen (Operation.shown_renamed v) .stringResult
  | type =>
    refine .bind (Argument.present_renamed args 1) fun v => .pure_of_eq ?_
    rw [σ.typeName_value]
    rfl

end Library

end StoryPack.Script
