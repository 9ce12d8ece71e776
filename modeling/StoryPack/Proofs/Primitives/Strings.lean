/-
The string library in heaps that are alike.

What is called as a method of a string takes the same course in heaps that are
alike.  The checks of arguments look at types, at numbers, and at the names that
metatables give to types.  Formats, patterns and packed data are read without
looking at the heap at all.  A replacement may be asked of a function, or be looked
up in a table that is read alike.

* `Argument.integer_steady`, `Argument.string_steady`, … — taking arguments;
* `Format.apply_steady`, `Packing.pack_steady`, `Packing.unpack_steady` — formats;
* `Library.runString_steady` — the functions of the string library;
* `Library.nextMatch_steady`, `Library.stringArith_steady` — the step of a search,
  and the metamethods of strings.
-/
import StoryPack.Proofs.Primitives.Operation
import StoryPack.Proofs.Confinement.Library.Strings

namespace StoryPack.Script

variable {T : Known} {α : Type} {args : List Value}

/-- An argument that is not there reads as nil. -/
theorem Argument.get_of_forall {P : Value → Prop} (hnil : P .nil) (hargs : ∀ v ∈ args, P v)
    (n : Nat) :
    P (get args n) := by
  unfold get
  rw [List.getD_eq_getElem?_getD]
  cases hv : args[n - 1]? with
  | none => exact hnil
  | some v => exact hargs v (List.mem_of_getElem? hv)

variable (hargs : ∀ v ∈ args, v.Suits T)

namespace Argument

include hargs

variable (n : Nat)

theorem suits_get : (get args n).Suits T := get_of_forall nofun hargs n

theorem wrongType_steady (expected : String) :
    (wrongType args n expected : Action α).Steady T := by
  intro g h hgh
  unfold wrongType
  rw [hgh.argumentName args n (suits_get hargs n)]
  exact .failed hgh _

omit hargs in
theorem present_steady : (present args n).Steady T :=
  .ite (fun _ => .pure _) fun _ => .badArgument _ _

theorem table_steady : (table args n).Steady T := by
  unfold table
  split
  · exact .pure _
  · exact wrongType_steady hargs n _

theorem function_steady : (function args n).Steady T := by
  unfold function
  split
  · exact .pure _
  · exact wrongType_steady hargs n _

theorem integer_steady : (integer args n).Steady T := by
  unfold integer
  split
  · exact .pure _
  · split
    · exact .pure _
    · exact .badArgument _ _
  · exact wrongType_steady hargs n _

theorem integerOr_steady (default : Int64) : (integerOr args n default).Steady T :=
  .ite (fun _ => .pure _) fun _ => integer_steady hargs n

theorem number_steady : (number args n).Steady T := by
  unfold number
  split
  · exact .pure _
  · exact wrongType_steady hargs n _

theorem string_steady : (string args n).Steady T := by
  unfold string
  split
  · exact .pure _
  · exact wrongType_steady hargs n _

theorem stringOr_steady (default : ByteArray) : (stringOr args n default).Steady T :=
  .ite (fun _ => .pure _) fun _ => string_steady hargs n

omit hargs in
theorem check_steady (condition : Bool) (message : String) :
    (check condition n message).Steady T := .ite (fun _ => .pure _) fun _ => .badArgument _ _

end Argument

namespace Format

theorem literal_steady (v : Value) (n : Nat) : (literal v n).Steady T := by
  cases v with
  | table | function | fault => exact .badArgument _ _
  | _ => exact .pure _

include hargs

theorem directive_steady (n : Nat) (spec : ByteArray) (letter : UInt8) :
    (directive args n spec letter).Steady T := by
  have htake {k : Directive → Action ByteArray} (allowed : List UInt8) (precise : Bool)
      (hk : ∀ d, (k d).Steady T) : (demanded spec allowed precise >>= k).Steady T := by
    refine .bind ?_ hk
    unfold demanded
    cases parse? spec allowed precise with
    | some d => exact .pure d
    | none => exact .fail _
  have hinteger := Argument.integer_steady hargs n
  unfold directive
  refine .ite (fun _ => ?_) fun _ => .ite (fun _ => ?_) fun _ => .ite (fun _ => ?_) fun _ =>
    .ite (fun _ => ?_) fun _ => .ite (fun _ => ?_) fun _ => .ite (fun _ => ?_) fun _ => .fail _
  · exact .bind hinteger fun i => htake _ _ fun d => .pure _
  · exact .bind hinteger fun i => htake _ _ fun d => .pure _
  · exact .bind (Argument.number_steady hargs n) fun x => htake _ _ fun d => .pure _
  · refine htake _ _ fun d => .bind (.read fun _ _ hgh => by rw [hgh.place]) fun place => ?_
    exact .pure _
  · exact .ite (fun _ => .raise _) fun _ => literal_steady _ n
  · refine .bind (Operation.shown_steady (Argument.suits_get hargs n)) fun s => ?_
    refine .ite (fun _ => .pure _) fun _ => .bind (Argument.check_steady _ _ _) fun _ => ?_
    exact htake _ _ fun d => .ite (fun _ => .pure _) fun _ => .pure _

theorem go_steady (f : ByteArray) (fuel i n : Nat) (acc : ByteArray) :
    (go args f fuel i n acc).Steady T := by
  induction fuel generalizing i n acc with
  | zero => exact .pure acc
  | succ fuel ih =>
    unfold go
    dsimp only
    refine .ite (fun _ => .pure acc) fun _ => .ite (fun _ => ih _ _ _) fun _ => ?_
    refine .ite (fun _ => ih _ _ _) fun _ => .ite (fun _ => .badArgument _ _) fun _ => ?_
    refine .ite (fun _ => .raise _) fun _ => ?_
    exact .bind (directive_steady hargs _ _ _) fun piece => ih _ _ _

theorem apply_steady : (apply args).Steady T :=
  .bind (Argument.string_steady hargs 1) fun f => .bind (go_steady hargs f _ _ _ _) .stringResult

end Format

namespace Packing

theorem integerSize_steady (f : ByteArray) (i default : Nat) :
    (integerSize f i default).Steady T := .ite (fun _ => .pure _) fun _ => .raise _

theorem option_steady (f : ByteArray) (i : Nat) (l : Layout) : (option f i l).Steady T := by
  have hsized (i default : Nat) (k : Nat × Nat → Field × Nat × Nat × Layout) :
      Action.Steady T (do return k (← integerSize f i default)) :=
    .bind (integerSize_steady f i default) fun _ => .pure _
  unfold option
  dsimp only
  split
  all_goals first
    | exact .pure _
    | exact hsized _ _ _
    | exact .fail _
    | split
      · exact .pure _
      · exact .raise _

theorem detail_steady (f : ByteArray) (i total : Nat) (l : Layout) :
    (detail f i total l).Steady T := by
  refine .bind (option_steady f i l) fun r => ?_
  obtain ⟨k, size, next, l⟩ := r
  have hrest (r : Nat × Nat × Layout) : (aligned k size total r).Steady T :=
    .ite (fun _ => .pure _) fun _ => .ite (fun _ => .badArgument _ _) fun _ => .pure _
  refine .ite (fun _ => .ite (fun _ => .bind (.badArgument _ _) hrest) fun _ => ?_)
    fun _ => .bind (.pure _) hrest
  refine .bind (option_steady f next l) fun r => ?_
  exact .ite (fun _ => .bind (.badArgument _ _) hrest) fun _ => .bind (.pure _) hrest

include hargs in
theorem packField_steady (n : Nat) (d : Detail) : (packField args n d).Steady T := by
  have hinteger := Argument.integer_steady hargs n
  have hnumber := Argument.number_steady hargs n
  have hstring := Argument.string_steady hargs n
  have hcheck (c : Bool) (m : String) := Argument.check_steady (T := T) n c m
  unfold packField
  dsimp only
  cases d.field with
  | signed | unsigned =>
    refine .bind hinteger fun i => ?_
    exact .ite (fun _ => .bind (hcheck _ _) fun _ => .pure _) fun _ => .pure _
  | float | double => exact .bind hnumber fun x => .pure _
  | chars =>
    exact .bind hstring fun s => .bind (hcheck _ _) fun _ => .bind (.reserve _) fun _ => .pure _
  | counted | terminated => exact .bind hstring fun s => .bind (hcheck _ _) fun _ => .pure _
  | padding | alignment | nothing => exact .pure _

include hargs in
theorem packFrom_steady (f : ByteArray) (fuel i n : Nat) (l : Layout) (acc : ByteArray) :
    (packFrom args f fuel i n l acc).Steady T := by
  induction fuel generalizing i n l acc with
  | zero => exact .pure acc
  | succ fuel ih =>
    refine .ite (fun _ => .pure acc) fun _ => .bind (detail_steady f i _ l) fun d => ?_
    exact .bind (packField_steady hargs _ d) fun piece => ih _ _ _ _

include hargs in
theorem pack_steady : (pack args).Steady T :=
  .bind (Argument.string_steady hargs 1) fun f =>
    .bind (packFrom_steady hargs f _ _ _ _ _) .stringResult

theorem sizeFrom_steady (f : ByteArray) (fuel i total : Nat) (l : Layout) :
    (sizeFrom f fuel i total l).Steady T := by
  induction fuel generalizing i total l with
  | zero => exact .pure total
  | succ fuel ih =>
    refine .ite (fun _ => .pure total) fun _ => .bind (detail_steady f i total l) fun d => ?_
    refine .bind (Argument.check_steady _ _ _) fun _ => ?_
    exact .bind (Argument.check_steady _ _ _) fun _ => ih _ _ _

include hargs in
theorem size_steady : (size args).Steady T :=
  .bind (Argument.string_steady hargs 1) fun f => .bind (sizeFrom_steady f _ _ _ _) fun _ => .pure _

theorem integerAt_steady (b : ByteArray) (i size : Nat) (little signed : Bool) :
    (integerAt b i size little signed).Steady T := .ite (fun _ => .pure _) fun _ => .raise _

theorem unpackFrom_steady (f data : ByteArray) (fuel i pos : Nat) (l : Layout)
    (acc : List Value) : (unpackFrom f data fuel i pos l acc).Steady T := by
  induction fuel generalizing i pos l acc with
  | zero => exact .pure _
  | succ fuel ih =>
    refine .ite (fun _ => .pure _) fun _ => .bind (detail_steady f i pos l) fun d => ?_
    refine .bind (Argument.check_steady _ _ _) fun _ => ?_
    have hrest (r : List Value × Nat) : Action.Steady T
        (unpackFrom f data fuel d.next (pos + d.gap + d.size + r.2) d.layout (r.1 ++ acc)) :=
      ih _ _ _ _
    have hinteger := integerAt_steady (T := T) data (pos + d.gap) d.size d.layout.little
      (d.field == .signed)
    dsimp only
    split
    · exact .bind hinteger fun v => .bind (.pure ([v], 0)) hrest
    · exact .bind hinteger fun v => .bind (.pure ([v], 0)) hrest
    · exact .bind (.pure _) hrest
    · exact .bind (.pure _) hrest
    · exact .bind (.string _) fun v => .bind (.pure ([v], 0)) hrest
    · refine .bind (Argument.check_steady _ _ _) fun _ => .bind (.string _) fun v => ?_
      exact .bind (.pure ([v], _)) hrest
    · split
      · exact .bind (.string _) fun v => .bind (.pure ([v], _)) hrest
      · exact .bind (.badArgument _ _) hrest
    · exact .bind (.pure ([], 0)) hrest

include hargs in
theorem unpack_steady : (unpack args).Steady T := by
  refine .bind (Argument.string_steady hargs 1) fun f => ?_
  refine .bind (Argument.string_steady hargs 2) fun data => ?_
  refine .bind (Argument.integerOr_steady hargs 3 1) fun i => ?_
  refine .bind (Argument.check_steady _ _ _) fun _ => ?_
  exact .bind (unpackFrom_steady f data _ _ _ _ []) fun vs => .pure _

end Packing

namespace Library

variable (src : ByteArray)

theorem ofPattern_steady (r : Except Pattern.Fault α) : (ofPattern r).Steady T := by
  cases r with
  | ok a => exact .pure a
  | error f => exact .raise _

theorem heldValue_steady (p : Pattern.Held) : (heldValue p).Steady T := by
  cases p with
  | piece b => exact .string b
  | position i => exact .pure _

theorem captureValues_steady (s e : Nat) (caps : Array Pattern.Capture) (whole : Bool) :
    (captureValues src s e caps whole).Steady T :=
  .bind (ofPattern_steady _) fun held => .mapM held fun p _ => heldValue_steady p

include hargs in
theorem find_steady (places : Bool) : (find args places).Steady T := by
  refine .bind (Argument.string_steady hargs 1) fun src => ?_
  refine .bind (Argument.string_steady hargs 2) fun p => ?_
  refine .bind (Argument.integerOr_steady hargs 3 1) fun i => ?_
  refine .ite (fun _ => .pure _) fun _ => .ite (fun _ => ?_) fun _ => ?_
  · split
    · exact .pure _
    · exact .pure _
  · refine .bind (ofPattern_steady _) fun r => ?_
    split
    · exact .pure _
    · refine .ite (fun _ => ?_) fun _ => captureValues_steady src _ _ _ true
      exact .bind (captureValues_steady src _ _ _ false) fun vs => .pure _

/-- The step of a search. -/
theorem nextMatch_steady (r : Nat) : (nextMatch r).Steady T := by
  refine .bind (.read fun g h hgh => by rw [hgh.searches]) fun st => ?_
  refine .ite (fun _ => .pure []) fun _ => .bind (ofPattern_steady _) fun found => ?_
  cases found with
  | none => exact .pure []
  | some m =>
    exact .bind (.modify fun _ _ hgh => hgh.setSearch r _) fun _ => captureValues_steady _ _ _ _ _

include hargs in
theorem gmatch_steady : (gmatch args).Steady T := by
  refine .bind (Argument.string_steady hargs 1) fun src => ?_
  refine .bind (Argument.string_steady hargs 2) fun p => ?_
  refine .bind (Argument.integerOr_steady hargs 3 1) fun i => ?_
  exact .bind (.update fun _ _ hgh => hgh.newSearch _) fun r => .pure _

theorem expand_steady (s e : Nat) (caps : Array Pattern.Capture) (text : ByteArray)
    (fuel i : Nat) (acc : ByteArray) : (expand src s e caps text fuel i acc).Steady T := by
  induction fuel generalizing i acc with
  | zero => exact .pure acc
  | succ fuel ih =>
    refine .ite (fun _ => .pure acc) fun _ => .ite (fun _ => ih _ _) fun _ => ?_
    refine .ite (fun _ => ih _ _) fun _ => .ite (fun _ => ih _ _) fun _ => ?_
    refine .ite (fun _ => ?_) fun _ => .raise _
    refine .bind (ofPattern_steady _) fun held => ?_
    cases held with
    | piece b => exact ih _ _
    | position n => exact ih _ _

theorem finish_steady (whole : ByteArray) (v : Value) :
    Action.Steady T (replacement.finish whole v) := by
  unfold replacement.finish
  split
  · exact .pure whole
  · exact .pure whole
  · split
    · exact .pure _
    · exact .raise _

/-- A replacement that is looked up, computed, or spelled out. -/
theorem replacement_steady (s e : Nat) (caps : Array Pattern.Capture) {v : Value}
    (hv : v.Reads T) : (replacement src s e caps v).Steady T := by
  unfold replacement
  split
  · refine .bind (ofPattern_steady _) fun p => .bind (heldValue_steady p) fun key => ?_
    exact .bind (Operation.index_steady hv key) fun v => finish_steady _ v
  · refine .bind (captureValues_steady src s e caps true) fun vs => ?_
    exact .bind (.call1 _ vs) fun v => finish_steady _ v
  · split
    · exact expand_steady src s e caps _ _ _ _
    · exact .pure _

theorem replaceFrom_steady (p : ByteArray) {v : Value} (hv : v.Reads T)
    (most : Option Nat) (anchored : Bool) (fuel s n : Nat) (last : Option Nat)
    (acc : ByteArray) : (replaceFrom src p v most anchored fuel s n last acc).Steady T := by
  induction fuel generalizing s n last acc with
  | zero =>
    unfold replaceFrom
    exact .pure _
  | succ fuel ih =>
    have hskip (s n : Nat) (last : Option Nat) (acc : ByteArray) :
        Action.Steady T (replaceFrom.skip src p v most anchored fuel s n last acc) := by
      unfold replaceFrom.skip
      refine .ite (fun _ => ?_) fun _ => .pure _
      exact .ite (fun _ => .pure _) fun _ => ih _ _ _ _
    unfold replaceFrom
    refine .ite (fun _ => .pure _) fun _ => .bind (ofPattern_steady _) fun found => ?_
    cases found with
    | none => exact hskip _ _ _ _
    | some m =>
      obtain ⟨e, caps⟩ := m
      refine .ite (fun _ => hskip _ _ _ _) fun _ => ?_
      refine .bind (replacement_steady src s e caps hv) fun b => .bind (.reserve _) fun _ => ?_
      exact .ite (fun _ => .pure _) fun _ => ih _ _ _ _

include hargs in
theorem gsub_steady (htable : (Argument.get args 3).Reads T) : (gsub args).Steady T := by
  refine .bind (Argument.string_steady hargs 1) fun src => ?_
  refine .bind (Argument.string_steady hargs 2) fun p => ?_
  have hrest (suited : Bool) (most : Option Nat) : Action.Steady T
      (if !suited then Argument.wrongType args 3 "string/function/table"
      else do
        let r ← replaceFrom src p (Argument.get args 3) most (Bytes.byte p 0 == 94)
          (2 * src.size + 3) 0 0 none ByteArray.empty
        pure [← Action.string r.1, .int (Int64.ofNat r.2)]) := by
    refine .ite (fun _ => Argument.wrongType_steady hargs 3 _) fun _ => ?_
    refine .bind (replaceFrom_steady src p htable most _ _ _ _ _ _) fun r => ?_
    exact .bind (.string _) fun b => .pure _
  exact .ite (fun _ => .bind (.pure none) (hrest _)) fun _ =>
    .bind (Argument.integer_steady hargs 4) fun n => .bind (.pure _) (hrest _)

include hargs in
theorem rep_steady : (rep args).Steady T := by
  refine .bind (Argument.string_steady hargs 1) fun s => ?_
  refine .bind (Argument.integer_steady hargs 2) fun n => ?_
  refine .bind (Argument.stringOr_steady hargs 3 _) fun sep => ?_
  refine .ite (fun _ => .pure _) fun _ => .ite (fun _ => .raise _) fun _ => ?_
  refine .bind (.reserve _) fun _ => ?_
  exact .ite (fun _ => .stringResult _) fun _ => .stringResult _

include hargs in
/-- The functions of the string library. A replacement may be looked up in a table. -/
theorem runString_steady (f : StringFunction)
    (htable : f = .gsub → (Argument.get args 3).Reads T) : (runString f args).Steady T := by
  have hstring := Argument.string_steady hargs
  cases f with
  | byte =>
    refine .bind (hstring 1) fun s => .bind (Argument.integerOr_steady hargs 2 1) fun i => ?_
    refine .bind (Argument.integerOr_steady hargs 3 i) fun j => ?_
    exact .ite (fun _ => .pure _) fun _ => .pure _
  | char =>
    refine .bind (.mapM _ fun k _ => ?_) fun bytes => .stringResult _
    refine .bind (Argument.integer_steady hargs _) fun i => ?_
    exact .bind (Argument.check_steady _ _ _) fun _ => .pure _
  | dump =>
    refine .bind (Argument.function_steady hargs 1) fun v => ?_
    split
    · exact .stringResult _
    · exact .raise _
  | find => exact find_steady hargs true
  | format => exact Format.apply_steady hargs
  | gmatch => exact gmatch_steady hargs
  | gsub => exact gsub_steady hargs (htable rfl)
  | len => exact .bind (hstring 1) fun s => .pure _
  | lower | reverse | upper => exact .bind (hstring 1) fun s => .stringResult _
  | «match» => exact find_steady hargs false
  | pack => exact Packing.pack_steady hargs
  | packsize => exact Packing.size_steady hargs
  | rep => exact rep_steady hargs
  | sub =>
    refine .bind (hstring 1) fun s => .bind (Argument.integer_steady hargs 2) fun i => ?_
    exact .bind (Argument.integerOr_steady hargs 3 (-1)) fun j => .stringResult _
  | unpack => exact Packing.unpack_steady hargs

/-- A number holds no table. -/
theorem suits_of_ofValue? {v n : Value} (h : Numeral.ofValue? v = some n) : n.Suits T := by
  refine Value.suits_of_ne fun r hr => ?_
  subst hr
  cases v with
  | str s =>
    simp only [Numeral.ofValue?, Numeral.number?] at h
    split at h
    · cases h
    · obtain ⟨x, -, hx⟩ := Option.map_eq_some_iff.mp h
      cases hx
  | _ => cases h

theorem arithThrough_steady (op : Arith) (a b f : Value) : (arithThrough op a b f).Steady T := by
  unfold arithThrough
  split
  · exact .raise _
  · exact .raise _
  · exact .bind (.call1 _ [a, b]) fun v => .pure [v]

include hargs in
/-- The arithmetic metamethods of strings. -/
theorem stringArith_steady (op : Arith) : (stringArith op args).Steady T := by
  have hb := Argument.suits_get hargs 2
  have hother : Action.Steady T (do
      let h ← Action.heap
      arithThrough op (Argument.get args 1) (Argument.get args 2)
        (h.metafield (Argument.get args 2) op.event)) := by
    intro g h hgh
    simp only [Action.bind_apply, Action.heap, Run.andThen]
    rw [hgh.metafield hb op.event op.event_ne.1 op.event_ne_metatable]
    exact arithThrough_steady op _ _ _ g h hgh
  unfold stringArith
  dsimp only
  split
  · rename_i hx hy
    exact .bind (Operation.arith_steady (suits_of_ofValue? hx) (suits_of_ofValue? hy) op) fun v =>
      .pure [v]
  · exact hother

end Library

end StoryPack.Script
