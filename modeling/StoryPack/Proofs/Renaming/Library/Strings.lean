/-
The string library on values whose references are renamed.

Formats and patterns are read without looking at references, and give strings and
numbers.  The address of an object can be shown, and is the same in both heaps.
Scripts are called in three places: to show a value of a format, to replace a
match, and for arithmetic on what does not spell a number.

* `Format.apply_renamed`, `Packing.pack_renamed`, `Packing.unpack_renamed` —
  formats;
* `Library.runString_renamed` — the functions of the string library;
* `Library.nextMatch_renamed`, `Library.stringArith_renamed` — the step of a
  search, and the metamethods of strings.
-/
import StoryPack.Proofs.Renaming.Library.Base
import StoryPack.Proofs.Confinement.Library.Strings

namespace StoryPack.Script

variable {σ : Renaming} (args : List Value)

namespace Format

theorem literal_renamed (v : Value) (n : Nat) :
    (literal v n).Renamed σ id (literal (σ.value v) n) := by
  cases v with
  | table | function | fault => exact .badArgument _ _
  | _ => exact .pure _

theorem directive_renamed (n : Nat) (spec : ByteArray) (letter : UInt8) :
    (directive args n spec letter).Renamed σ id (directive (σ.values args) n spec letter) := by
  have htake {k k' : Directive → Action ByteArray} (allowed : List UInt8) (precise : Bool)
      (hk : ∀ d, (k d).Renamed σ id (k' d)) :
      (demanded spec allowed precise >>= k).Renamed σ id
      (demanded spec allowed precise >>= k') := by
    refine .andThen ?_ hk
    unfold demanded
    cases parse? spec allowed precise with
    | some d => exact .pure d
    | none => exact .fail _
  have hinteger := Argument.integer_renamed (σ := σ) args n
  unfold directive
  refine .ite (fun _ => ?_) fun _ => .ite (fun _ => ?_) fun _ => .ite (fun _ => ?_) fun _ =>
    .ite (fun _ => ?_) fun _ => .ite (fun _ => ?_) fun _ => .ite (fun _ => ?_) fun _ => .fail _
  · exact .andThen hinteger fun i => htake _ _ fun d => .pure _
  · exact .andThen hinteger fun i => htake _ _ fun d => .pure _
  · exact .andThen (Argument.number_renamed args n) fun x => htake _ _ fun d => .pure _
  · refine htake _ _ fun d => ?_
    dsimp only
    rw [Argument.get_values]
    refine .andThen (.read fun _ _ hh => hh.place _) fun place => ?_
    cases Argument.get args n <;> exact .pure _
  · rw [Argument.get_values]
    exact .ite (fun _ => .raise _) fun _ => literal_renamed _ n
  · rw [Argument.get_values]
    refine .andThen (Operation.shown_renamed _) fun s => .ite (fun _ => .pure _) fun _ => ?_
    refine .andThen (Argument.check_renamed _ _ _) fun _ => htake _ _ fun d => ?_
    exact .ite (fun _ => .pure _) fun _ => .pure _

theorem go_renamed (f : ByteArray) (fuel i n : Nat) (acc : ByteArray) :
    (go args f fuel i n acc).Renamed σ id (go (σ.values args) f fuel i n acc) := by
  induction fuel generalizing i n acc with
  | zero => exact .pure acc
  | succ fuel ih =>
    unfold go
    dsimp only
    rw [σ.length_values]
    refine .ite (fun _ => .pure acc) fun _ => .ite (fun _ => ih _ _ _) fun _ => ?_
    refine .ite (fun _ => ih _ _ _) fun _ => .ite (fun _ => .badArgument _ _) fun _ => ?_
    refine .ite (fun _ => .raise _) fun _ => ?_
    exact .andThen (directive_renamed args _ _ _) fun piece => ih _ _ _

theorem apply_renamed : (apply args).Renamed σ σ.values (apply (σ.values args)) :=
  .andThen (Argument.string_renamed args 1) fun f =>
    .andThen (go_renamed args f _ _ _ _) .stringResult

end Format

/-- Values that are taken out of packed data, with their references renamed, and the bytes that are
passed over after them. -/
def Renaming.taken (σ : Renaming) (r : List Value × Nat) : List Value × Nat := (σ.values r.1, r.2)

namespace Packing

theorem integerSize_renamed (f : ByteArray) (i default : Nat) :
    (integerSize f i default).Renamed σ id (integerSize f i default) :=
  .ite (fun _ => .pure _) fun _ => .raise _

theorem option_renamed (f : ByteArray) (i : Nat) (l : Layout) :
    (option f i l).Renamed σ id (option f i l) := by
  have hsized (i default : Nat) (k : Nat × Nat → Field × Nat × Nat × Layout) :
      Action.Renamed σ id (do return k (← integerSize f i default))
        (do return k (← integerSize f i default)) :=
    .andThen (integerSize_renamed f i default) fun _ => .pure _
  unfold option
  dsimp only
  split
  all_goals first
    | exact .pure _
    | exact hsized _ _ _
    | exact .fail _
    | split
      · exact .pure _
      · exact .raise _

theorem detail_renamed (f : ByteArray) (i total : Nat) (l : Layout) :
    (detail f i total l).Renamed σ id (detail f i total l) := by
  refine .andThen (option_renamed f i l) fun r => ?_
  obtain ⟨k, size, next, l⟩ := r
  have hrest (r : Nat × Nat × Layout) :
      (aligned k size total r).Renamed σ id (aligned k size total r) :=
    .ite (fun _ => .pure _) fun _ => .ite (fun _ => .badArgument _ _) fun _ => .pure _
  refine .ite (fun _ => .ite (fun _ => .andThen (.badArgument _ _) hrest) fun _ => ?_)
    fun _ => .andThen (.pure _) hrest
  refine .andThen (option_renamed f next l) fun r => ?_
  exact .ite (fun _ => .andThen (.badArgument _ _) hrest) fun _ => .andThen (.pure _) hrest

theorem packField_renamed (n : Nat) (d : Detail) :
    (packField args n d).Renamed σ id (packField (σ.values args) n d) := by
  have hinteger := Argument.integer_renamed (σ := σ) args n
  have hnumber := Argument.number_renamed (σ := σ) args n
  have hstring := Argument.string_renamed (σ := σ) args n
  have hcheck (c : Bool) (m : String) := Argument.check_renamed (σ := σ) n c m
  unfold packField
  dsimp only
  cases d.field with
  | signed | unsigned =>
    refine .andThen hinteger fun i => ?_
    exact .ite (fun _ => .andThen (hcheck _ _) fun _ => .pure _) fun _ => .pure _
  | float | double => exact .andThen hnumber fun x => .pure _
  | chars =>
    exact .andThen hstring fun s => .andThen (hcheck _ _) fun _ => .andThen (.reserve _ _) fun _ =>
      .pure _
  | counted | terminated => exact .andThen hstring fun s => .andThen (hcheck _ _) fun _ => .pure _
  | padding | alignment | nothing => exact .pure _

theorem packFrom_renamed (f : ByteArray) (fuel i n : Nat) (l : Layout) (acc : ByteArray) :
    (packFrom args f fuel i n l acc).Renamed σ id (packFrom (σ.values args) f fuel i n l acc) := by
  induction fuel generalizing i n l acc with
  | zero => exact .pure acc
  | succ fuel ih =>
    refine .ite (fun _ => .pure acc) fun _ => .andThen (detail_renamed f i _ l) fun d => ?_
    exact .andThen (packField_renamed args _ d) fun piece => ih _ _ _ _

theorem pack_renamed : (pack args).Renamed σ σ.values (pack (σ.values args)) :=
  .andThen (Argument.string_renamed args 1) fun f =>
    .andThen (packFrom_renamed args f _ _ _ _ _) .stringResult

theorem sizeFrom_renamed (f : ByteArray) (fuel i total : Nat) (l : Layout) :
    (sizeFrom f fuel i total l).Renamed σ id (sizeFrom f fuel i total l) := by
  induction fuel generalizing i total l with
  | zero => exact .pure total
  | succ fuel ih =>
    refine .ite (fun _ => .pure total) fun _ => .andThen (detail_renamed f i total l) fun d => ?_
    refine .andThen (Argument.check_renamed _ _ _) fun _ => ?_
    exact .andThen (Argument.check_renamed _ _ _) fun _ => ih _ _ _

theorem size_renamed : (size args).Renamed σ σ.values (size (σ.values args)) :=
  .andThen (Argument.string_renamed args 1) fun f =>
    .andThen (sizeFrom_renamed f _ _ _ _) fun _ => .pure [Value.int _]

theorem integerAt_renamed (b : ByteArray) (i size : Nat) (little signed : Bool) :
    (integerAt b i size little signed).Renamed σ σ.value (integerAt b i size little signed) :=
  .ite (fun _ => .pure (Value.int _)) fun _ => .raise _

theorem unpackFrom_renamed (f data : ByteArray) (fuel i pos : Nat) (l : Layout)
    (acc : List Value) :
    (unpackFrom f data fuel i pos l acc).Renamed σ σ.values
      (unpackFrom f data fuel i pos l (σ.values acc)) := by
  induction fuel generalizing i pos l acc with
  | zero => exact .pure (Value.int _ :: acc)
  | succ fuel ih =>
    refine .ite (fun _ => .pure (Value.int _ :: acc)) fun _ => ?_
    refine .andThen (detail_renamed f i pos l) fun d => ?_
    refine .andThen (Argument.check_renamed _ _ _) fun _ => ?_
    have hrest (r : List Value × Nat) : Action.Renamed σ σ.values
        (unpackFrom f data fuel d.next (pos + d.gap + d.size + r.2) d.layout (r.1 ++ acc))
        (unpackFrom f data fuel d.next (pos + d.gap + d.size + r.2) d.layout
          (σ.values r.1 ++ σ.values acc)) := by
      rw [← σ.values_append]
      exact ih _ _ _ _
    have hinteger := integerAt_renamed (σ := σ) data (pos + d.gap) d.size d.layout.little
      (d.field == .signed)
    dsimp only
    split
    · exact .bind hinteger fun v => .bind (f := σ.taken) (.pure ([v], 0)) hrest
    · exact .bind hinteger fun v => .bind (f := σ.taken) (.pure ([v], 0)) hrest
    · exact .bind (f := σ.taken) (.pure ([Value.float _], 0)) hrest
    · exact .bind (f := σ.taken) (.pure ([Value.float _], 0)) hrest
    · exact .bind (.string _) fun v => .bind (f := σ.taken) (.pure ([v], 0)) hrest
    · refine .andThen (Argument.check_renamed _ _ _) fun _ => .bind (.string _) fun v => ?_
      exact .bind (f := σ.taken) (.pure ([v], _)) hrest
    · split
      · exact .bind (.string _) fun v => .bind (f := σ.taken) (.pure ([v], _)) hrest
      · exact .bind (f := σ.taken) (.badArgument _ _) hrest
    · exact .bind (f := σ.taken) (.pure ([], 0)) hrest

/-- Unpacked values. -/
theorem unpack_renamed : (unpack args).Renamed σ σ.values (unpack (σ.values args)) := by
  refine .andThen (Argument.string_renamed args 1) fun f => ?_
  refine .andThen (Argument.string_renamed args 2) fun data => ?_
  refine .andThen (Argument.integerOr_renamed args 3 1) fun i => ?_
  refine .andThen (Argument.check_renamed _ _ _) fun _ => ?_
  refine .bind (unpackFrom_renamed f data _ _ _ _ []) fun vs => ?_
  exact .pure_of_eq (σ.reverse_values vs).symm

end Packing

namespace Library

variable (src : ByteArray)

theorem ofPattern_renamed {α : Type} (r : Except Pattern.Fault α) :
    (ofPattern r).Renamed σ id (ofPattern r) := by
  cases r with
  | ok a => exact .pure a
  | error f => exact .raise _

theorem heldValue_renamed (p : Pattern.Held) : (heldValue p).Renamed σ σ.value (heldValue p) := by
  cases p with
  | piece b => exact .string b
  | position i => exact .pure (Value.int _)

theorem captureValues_renamed (s e : Nat) (caps : Array Pattern.Capture) (whole : Bool) :
    (captureValues src s e caps whole).Renamed σ σ.values (captureValues src s e caps whole) :=
  .andThen (ofPattern_renamed _) fun held => .mapM held fun p _ => heldValue_renamed p

theorem find_renamed (places : Bool) :
    (find args places).Renamed σ σ.values (find (σ.values args) places) := by
  refine .andThen (Argument.string_renamed args 1) fun src => ?_
  refine .andThen (Argument.string_renamed args 2) fun p => ?_
  refine .andThen (Argument.integerOr_renamed args 3 1) fun i => ?_
  dsimp only
  rw [Argument.get_values, σ.truthy_value]
  refine .ite (fun _ => .pure [Value.nil]) fun _ => .ite (fun _ => ?_) fun _ => ?_
  · split
    · exact .pure [Value.int _, Value.int _]
    · exact .pure [Value.nil]
  · refine .andThen (ofPattern_renamed _) fun r => ?_
    split
    · exact .pure [Value.nil]
    · rename_i s e caps
      refine .ite (fun _ => ?_) fun _ => captureValues_renamed src s e caps true
      exact .bind (captureValues_renamed src s e caps false) fun vs =>
        .pure (Value.int _ :: Value.int _ :: vs)

/-- The step of a search. -/
theorem nextMatch_renamed (r : Nat) :
    (nextMatch r).Renamed σ σ.values (nextMatch (σ.search r)) := by
  refine .andThen (.read fun h h' hh => by rw [hh.search]; rfl) fun st => ?_
  refine .ite (fun _ => .pure []) fun _ => .andThen (ofPattern_renamed _) fun found => ?_
  cases found with
  | none => exact .pure []
  | some m =>
    exact .andThen (.modify fun _ _ hh => hh.setSearch r _) fun _ => captureValues_renamed _ _ _ _ _

theorem gmatch_renamed : (gmatch args).Renamed σ σ.values (gmatch (σ.values args)) := by
  refine .andThen (Argument.string_renamed args 1) fun src => ?_
  refine .andThen (Argument.string_renamed args 2) fun p => ?_
  refine .andThen (Argument.integerOr_renamed args 3 1) fun i => ?_
  exact .bind (.update fun _ _ hh => hh.newSearch _) fun r => .pure [Value.function (.matcher r)]

theorem expand_renamed (s e : Nat) (caps : Array Pattern.Capture) (text : ByteArray)
    (fuel i : Nat) (acc : ByteArray) :
    (expand src s e caps text fuel i acc).Renamed σ id (expand src s e caps text fuel i acc) := by
  induction fuel generalizing i acc with
  | zero => exact .pure acc
  | succ fuel ih =>
    refine .ite (fun _ => .pure acc) fun _ => .ite (fun _ => ih _ _) fun _ => ?_
    refine .ite (fun _ => ih _ _) fun _ => .ite (fun _ => ih _ _) fun _ => ?_
    refine .ite (fun _ => ?_) fun _ => .raise _
    refine .andThen (ofPattern_renamed _) fun held => ?_
    cases held with
    | piece b => exact ih _ _
    | position n => exact ih _ _

theorem finish_renamed (whole : ByteArray) (v : Value) :
    (replacement.finish whole v).Renamed σ id (replacement.finish whole (σ.value v)) := by
  have hbytes := σ.bytes?_value v
  have hname := σ.typeName_value v
  unfold replacement.finish
  cases v with
  | nil => exact .pure whole
  | bool b =>
    cases b with
    | false => exact .pure whole
    | true => exact .raise _
  | _ =>
    dsimp only [Renaming.value] at hbytes hname ⊢
    rw [hbytes, hname]
    split
    · exact .pure _
    · exact .raise _

/-- The text that replaces a match. Values that are no texts leave the match as it is. -/
def expanded (src : ByteArray) (s e : Nat) (caps : Array Pattern.Capture) (v : Value) :
    Action ByteArray :=
  match Operation.bytes? v with
  | some text => expand src s e caps text (text.size + 1) 0 ByteArray.empty
  | none => pure (src.extract s e)

theorem replacement_renamed (s e : Nat) (caps : Array Pattern.Capture) (v : Value) :
    (replacement src s e caps v).Renamed σ id (replacement src s e caps (σ.value v)) := by
  have htext (v : Value) :
      (expanded src s e caps v).Renamed σ id (expanded src s e caps v) := by
    unfold expanded
    split
    · exact expand_renamed src s e caps _ _ _ _
    · exact .pure _
  cases v with
  | table r =>
    refine .andThen (ofPattern_renamed _) fun held => .bind (heldValue_renamed held) fun key => ?_
    exact .bind (Operation.index_renamed (.table r) key) fun v => finish_renamed _ v
  | function f =>
    refine .bind (captureValues_renamed src s e caps true) fun vs => ?_
    exact .bind (.call1 (.function f) vs) fun v => finish_renamed _ v
  | int i => exact htext (.int i)
  | float x => exact htext (.float x)
  | str b => exact htext (.str b)
  | nil | bool | fault => exact .pure _

theorem replaceFrom_renamed (p : ByteArray) (v : Value) (most : Option Nat) (anchored : Bool)
    (fuel s n : Nat) (last : Option Nat) (acc : ByteArray) :
    (replaceFrom src p v most anchored fuel s n last acc).Renamed σ id
      (replaceFrom src p (σ.value v) most anchored fuel s n last acc) := by
  induction fuel generalizing s n last acc with
  | zero =>
    unfold replaceFrom
    exact .pure _
  | succ fuel ih =>
    have hskip (s n : Nat) (last : Option Nat) (acc : ByteArray) :
        (replaceFrom.skip src p v most anchored fuel s n last acc).Renamed σ id
          (replaceFrom.skip src p (σ.value v) most anchored fuel s n last acc) := by
      unfold replaceFrom.skip
      refine .ite (fun _ => ?_) fun _ => .pure _
      exact .ite (fun _ => .pure _) fun _ => ih _ _ _ _
    unfold replaceFrom
    refine .ite (fun _ => .pure _) fun _ => .andThen (ofPattern_renamed _) fun found => ?_
    cases found with
    | none => exact hskip _ _ _ _
    | some m =>
      obtain ⟨e, caps⟩ := m
      refine .ite (fun _ => hskip _ _ _ _) fun _ => ?_
      refine .andThen (replacement_renamed src s e caps v) fun b => ?_
      refine .andThen (.reserve _ _) fun _ => ?_
      exact .ite (fun _ => .pure _) fun _ => ih _ _ _ _

theorem gsub_renamed : (gsub args).Renamed σ σ.values (gsub (σ.values args)) := by
  refine .andThen (Argument.string_renamed args 1) fun src => ?_
  refine .andThen (Argument.string_renamed args 2) fun p => ?_
  have hrest (suited : Bool) (v : Value) (most : Option Nat) : Action.Renamed σ σ.values
      (if !suited then Argument.wrongType args 3 "string/function/table"
      else do
        let r ← replaceFrom src p v most (Bytes.byte p 0 == 94) (2 * src.size + 3) 0 0 none
          ByteArray.empty
        pure [← Action.string r.1, .int (Int64.ofNat r.2)])
      (if !suited then Argument.wrongType (σ.values args) 3 "string/function/table"
      else do
        let r ← replaceFrom src p (σ.value v) most (Bytes.byte p 0 == 94) (2 * src.size + 3) 0 0
          none
          ByteArray.empty
        pure [← Action.string r.1, .int (Int64.ofNat r.2)]) := by
    refine .ite (fun _ => Argument.wrongType_renamed args 3 _) fun _ => ?_
    refine .andThen (replaceFrom_renamed src p v most _ _ _ _ _ _) fun r => ?_
    exact .bind (.string _) fun b => .pure [b, Value.int _]
  have hmost (most : Option Nat) : Action.Renamed σ id (pure most) (pure most) := .pure _
  dsimp only
  rw [Argument.get_values, Argument.get_values, σ.isNil_value]
  generalize Argument.get args 3 = v
  refine .ite (fun _ => ?_) fun _ => .andThen (Argument.integer_renamed args 4) fun n => ?_
  · cases v <;> exact .andThen (hmost none) (hrest _ _)
  · cases v <;> exact .andThen (hmost _) (hrest _ _)

theorem rep_renamed : (rep args).Renamed σ σ.values (rep (σ.values args)) := by
  refine .andThen (Argument.string_renamed args 1) fun s => ?_
  refine .andThen (Argument.integer_renamed args 2) fun n => ?_
  refine .andThen (Argument.stringOr_renamed args 3 _) fun sep => ?_
  refine .ite (fun _ => .pure [Value.str _]) fun _ => .ite (fun _ => .raise _) fun _ => ?_
  refine .andThen (.reserve _ _) fun _ => ?_
  exact .ite (fun _ => .stringResult _) fun _ => .stringResult _

/-- The functions of the string library. -/
theorem runString_renamed (f : StringFunction) :
    (runString f args).Renamed σ σ.values (runString f (σ.values args)) := by
  have hstring := Argument.string_renamed (σ := σ) args
  cases f with
  | byte =>
    refine .andThen (hstring 1) fun s => ?_
    refine .andThen (Argument.integerOr_renamed args 2 1) fun i => ?_
    refine .andThen (Argument.integerOr_renamed args 3 i) fun j => ?_
    refine .ite (fun _ => .pure []) fun _ => .pure_of_eq ?_
    simp [Renaming.values]
  | char =>
    unfold runString
    dsimp only
    rw [σ.length_values]
    refine .bind (f := List.map id) (.mapM _ fun k _ => ?_) fun bytes => ?_
    · refine .andThen (Argument.integer_renamed args _) fun i => ?_
      exact .andThen (Argument.check_renamed _ _ _) fun _ => .pure _
    · rw [List.map_id]
      exact .stringResult _
  | dump =>
    refine .bind (Argument.function_renamed args 1) fun v => ?_
    cases v with
    | function f =>
      cases f with
      | closure r => exact .stringResult _
      | _ => exact .raise _
    | _ => exact .raise _
  | find => exact find_renamed args true
  | format => exact Format.apply_renamed args
  | gmatch => exact gmatch_renamed args
  | gsub => exact gsub_renamed args
  | len => exact .andThen (hstring 1) fun s => .pure [Value.int _]
  | lower | reverse | upper => exact .andThen (hstring 1) fun s => .stringResult _
  | «match» => exact find_renamed args false
  | pack => exact Packing.pack_renamed args
  | packsize => exact Packing.size_renamed args
  | rep => exact rep_renamed args
  | sub =>
    refine .andThen (hstring 1) fun s => .andThen (Argument.integer_renamed args 2) fun i => ?_
    exact .andThen (Argument.integerOr_renamed args 3 (-1)) fun j => .stringResult _
  | unpack => exact Packing.unpack_renamed args

/-- The arithmetic metamethods of strings. -/
theorem stringArith_renamed (op : Arith) :
    (stringArith op args).Renamed σ σ.values (stringArith op (σ.values args)) := by
  unfold stringArith
  dsimp only
  rw [Argument.get_values, Argument.get_values, σ.ofValue?_value, σ.ofValue?_value]
  generalize Argument.get args 1 = a
  generalize Argument.get args 2 = b
  have hother : Action.Renamed σ σ.values
      (do
        let h ← Action.heap
        arithThrough op a b (h.metafield b op.event))
      (do
        let h ← Action.heap
        arithThrough op (σ.value a) (σ.value b) (h.metafield (σ.value b) op.event)) := by
    intro h h' hh
    have hfield := hh.metafield b op.event
    have hcall (f : Value) : Action.Renamed σ σ.values (do pure [← Action.call1 f [a, b]])
        (do pure [← Action.call1 (σ.value f) [σ.value a, σ.value b]]) :=
      .bind (.call1 f [a, b]) fun v => .pure [v]
    simp only [Action.bind_apply, Action.heap, Run.andThen, arithThrough]
    rw [hfield, σ.typeName_value, σ.typeName_value]
    generalize h.metafield b op.event = f
    cases b with
    | str s => exact .failed hh _
    | _ =>
      cases f with
      | nil => exact .failed hh _
      | _ => exact hcall _ h h' hh
  cases hx : Numeral.ofValue? a with
  | none => exact hother
  | some x =>
    cases hy : Numeral.ofValue? b with
    | none => exact hother
    | some y =>
      have harith := Operation.arith_renamed (σ := σ) op x y
      rw [σ.value_of_ofValue? a hx, σ.value_of_ofValue? b hy] at harith
      exact .bind harith fun v => .pure [v]

end Library

end StoryPack.Script
