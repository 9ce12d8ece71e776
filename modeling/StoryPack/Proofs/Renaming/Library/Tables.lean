/-
The table library on values whose references are renamed.

Lists are read and written by the operators, so their functions do the same to
lists whose references are renamed.  Loops are handled by induction on what
bounds them.

* `Library.runTable_renamed` — the functions of the table library.
-/
import StoryPack.Proofs.Renaming.Library.Base
import StoryPack.Script.Library.Tables

namespace StoryPack.Script

/-- A list and its length, with the reference of the list renamed. -/
def Renaming.sized (σ : Renaming) (r : Value × Int64) : Value × Int64 := (σ.value r.1, r.2)

/-- A place and the item that lies there, with its reference renamed. -/
def Renaming.found (σ : Renaming) (r : Int64 × Value) : Int64 × Value := (r.1, σ.value r.2)

namespace Library

variable {σ : Renaming}

section

variable (args : List Value)

theorem list_renamed (i : Nat) (u : Use) :
    (list args i u).Renamed σ σ.value (list (σ.values args) i u) := by
  intro h h' hh
  have hwrong := Argument.wrongType_renamed args i "table" (f := σ.value) h h' hh
  have hmeta := hh.metatable? (Argument.get args i)
  have hfield (event : ByteArray) :
      (h'.metafield (σ.value (Argument.get args i)) event).isNil =
        (h.metafield (Argument.get args i) event).isNil := by
    rw [hh.metafield, σ.isNil_value]
  unfold list
  dsimp only
  rw [Argument.get_values]
  generalize Argument.get args i = v at hmeta hfield ⊢
  cases v with
  | table r => exact .done hh (Value.table r)
  | _ =>
    dsimp only [Renaming.value] at hmeta hfield ⊢
    simp only [hmeta, Option.isSome_map, hfield]
    split
    · exact .done hh _
    · exact hwrong

theorem lengthOf_renamed (v : Value) : (lengthOf v).Renamed σ id (lengthOf (σ.value v)) := by
  refine .bind (Operation.length_renamed v) fun n => ?_
  cases n with
  | int i => exact .pure i
  | float x =>
    dsimp only [σ.value_float]
    cases Numeral.floatToInteger? x with
    | some i => exact .pure i
    | none => exact .raise _
  | str s =>
    dsimp only [σ.value_str]
    cases Numeral.toInteger? (.str s) with
    | some i => exact .pure i
    | none => exact .raise _
  | _ => exact .raise _

theorem sizedList_renamed (i : Nat) (u : Use) :
    (sizedList args i u).Renamed σ σ.sized (sizedList (σ.values args) i u) :=
  .bind (list_renamed args i _) fun v => .andThen (lengthOf_renamed v) fun n => .pure (v, n)

end

theorem item_renamed (t : Value) (i : Int64) :
    (item t i).Renamed σ σ.value (item (σ.value t) i) := Operation.index_renamed t (.int i)

theorem setItem_renamed (t : Value) (i : Int64) (v : Value) :
    (setItem t i v).Renamed σ id (setItem (σ.value t) i (σ.value v)) :=
  Operation.setIndex_renamed t (.int i) v

theorem setItems_renamed (t : Value) (i j : Int64) (a b : Value) :
    (setItems t i j a b).Renamed σ id (setItems (σ.value t) i j (σ.value a) (σ.value b)) :=
  .andThen (setItem_renamed t i a) fun _ => setItem_renamed t j b

theorem shiftUp_renamed (t : Value) (stop : Int64) (fuel : Nat) (i : Int64) :
    (shiftUp t stop fuel i).Renamed σ id (shiftUp (σ.value t) stop fuel i) := by
  induction fuel generalizing i with
  | zero => exact .pure _
  | succ fuel ih =>
    refine .ite (fun _ => ?_) fun _ => .pure _
    exact .bind (item_renamed t _) fun v => .andThen (setItem_renamed t i v) fun _ => ih _

theorem shiftDown_renamed (t : Value) (stop : Int64) (fuel : Nat) (i : Int64) :
    (shiftDown t stop fuel i).Renamed σ id (shiftDown (σ.value t) stop fuel i) := by
  induction fuel generalizing i with
  | zero => exact .pure _
  | succ fuel ih =>
    refine .ite (fun _ => ?_) fun _ => .pure _
    exact .bind (item_renamed t _) fun v => .andThen (setItem_renamed t i v) fun _ => ih _

theorem copyUp_renamed (a b : Value) (n : Nat) (f t : Int64) :
    (copyUp a b n f t).Renamed σ id (copyUp (σ.value a) (σ.value b) n f t) := by
  induction n generalizing f t with
  | zero => exact .pure _
  | succ n ih =>
    exact .bind (item_renamed a f) fun v => .andThen (setItem_renamed b t v) fun _ => ih _ _

theorem copyDown_renamed (a b : Value) (n : Nat) (f t : Int64) :
    (copyDown a b n f t).Renamed σ id (copyDown (σ.value a) (σ.value b) n f t) := by
  induction n generalizing f t with
  | zero => exact .pure _
  | succ n ih =>
    exact .bind (item_renamed a f) fun v => .andThen (setItem_renamed b t v) fun _ => ih _ _

theorem joinFrom_renamed (t : Value) (sep : ByteArray) (j : Int64) (fuel : Nat) (i : Int64)
    (acc : ByteArray) :
    (joinFrom t sep j fuel i acc).Renamed σ id (joinFrom (σ.value t) sep j fuel i acc) := by
  induction fuel generalizing i acc with
  | zero => exact .pure _
  | succ fuel ih =>
    refine .bind (item_renamed t i) fun v => ?_
    rw [σ.bytes?_value]
    cases Operation.bytes? v with
    | some b =>
      exact .ite (fun _ => .andThen (.reserve _ _) fun _ => ih _ _) fun _ => .pure _
    | none => exact .fail _

theorem itemsFrom_renamed (t : Value) (n : Nat) (i : Int64) (acc : List Value) :
    (itemsFrom t n i acc).Renamed σ σ.values (itemsFrom (σ.value t) n i (σ.values acc)) := by
  induction n generalizing i acc with
  | zero => exact .pure_of_eq (σ.reverse_values acc).symm
  | succ n ih => exact .bind (item_renamed t i) fun v => ih _ (v :: acc)

/-! ### Sorting -/

section

variable (t less : Value)

theorem before_renamed (a b : Value) :
    (before less a b).Renamed σ id (before (σ.value less) (σ.value a) (σ.value b)) := by
  unfold before
  rw [σ.isNil_value]
  refine .ite (fun _ => Operation.less_renamed a b) fun _ => ?_
  exact .bind (.call1 less [a, b]) fun v => .pure_of_eq (σ.truthy_value v).symm

theorem scanUp_renamed (pivot : Value) (up : Int64) (fuel : Nat) (i : Int64) :
    (scanUp t less pivot up fuel i).Renamed σ σ.found
      (scanUp (σ.value t) (σ.value less) (σ.value pivot) up fuel i) := by
  induction fuel generalizing i with
  | zero => exact .raise _
  | succ fuel ih =>
    refine .bind (item_renamed t _) fun v => ?_
    refine .andThen (before_renamed less v pivot) fun c => ?_
    exact .ite (fun _ => .ite (fun _ => .raise _) fun _ => ih _) fun _ => .pure (_, v)

theorem scanDown_renamed (pivot : Value) (i : Int64) (fuel : Nat) (j : Int64) :
    (scanDown t less pivot i fuel j).Renamed σ σ.found
      (scanDown (σ.value t) (σ.value less) (σ.value pivot) i fuel j) := by
  induction fuel generalizing j with
  | zero => exact .raise _
  | succ fuel ih =>
    refine .bind (item_renamed t _) fun v => ?_
    refine .andThen (before_renamed less pivot v) fun c => ?_
    exact .ite (fun _ => .ite (fun _ => .raise _) fun _ => ih _) fun _ => .pure (_, v)

theorem partition_renamed (pivot : Value) (lo up : Int64) (fuel : Nat) (i j : Int64) :
    (partition t less pivot lo up fuel i j).Renamed σ id
      (partition (σ.value t) (σ.value less) (σ.value pivot) lo up fuel i j) := by
  induction fuel generalizing i j with
  | zero => exact .raise _
  | succ fuel ih =>
    refine .bind (scanUp_renamed t less pivot up _ i) fun r => ?_
    obtain ⟨i, a⟩ := r
    refine .bind (scanDown_renamed t less pivot i _ j) fun r => ?_
    obtain ⟨j, b⟩ := r
    refine .ite (fun _ => ?_) fun _ => ?_
    · exact .andThen (setItems_renamed t _ _ a pivot) fun _ => .pure _
    · exact .andThen (setItems_renamed t _ _ b a) fun _ => ih _ _

theorem orderEnds_renamed (lo up : Int64) :
    (orderEnds t less lo up).Renamed σ id (orderEnds (σ.value t) (σ.value less) lo up) := by
  refine .bind (item_renamed t lo) fun a => ?_
  refine .bind (item_renamed t up) fun b => ?_
  refine .andThen (before_renamed less b a) fun c => ?_
  exact .ite (fun _ => setItems_renamed t lo up b a) fun _ => .pure _

theorem orderMiddle_renamed (lo up p : Int64) :
    (orderMiddle t less lo up p).Renamed σ id
      (orderMiddle (σ.value t) (σ.value less) lo up p) := by
  refine .bind (item_renamed t p) fun v => ?_
  refine .bind (item_renamed t lo) fun a => ?_
  refine .andThen (before_renamed less v a) fun c => ?_
  refine .ite (fun _ => setItems_renamed t p lo a v) fun _ => ?_
  refine .bind (item_renamed t up) fun b => ?_
  refine .andThen (before_renamed less b v) fun c => ?_
  exact .ite (fun _ => setItems_renamed t p up b v) fun _ => .pure _

theorem sortAround_renamed (lo up p : Int64) {sort sort' : Int64 → Int64 → Action PUnit}
    (hsort : ∀ lo up, (sort lo up).Renamed σ id (sort' lo up)) :
    (sortAround t less lo up p sort).Renamed σ id
      (sortAround (σ.value t) (σ.value less) lo up p sort') := by
  refine .bind (item_renamed t p) fun pivot => ?_
  refine .bind (item_renamed t _) fun last => ?_
  refine .andThen (setItems_renamed t _ _ last pivot) fun _ => ?_
  refine .andThen (partition_renamed t less pivot lo up _ _ _) fun p => ?_
  refine .ite (fun _ => ?_) fun _ => ?_
  · exact .andThen (hsort _ _) fun _ => hsort _ _
  · exact .andThen (hsort _ _) fun _ => hsort _ _

theorem sortRange_renamed (fuel : Nat) (lo up : Int64) :
    (sortRange t less fuel lo up).Renamed σ id
      (sortRange (σ.value t) (σ.value less) fuel lo up) := by
  induction fuel generalizing lo up with
  | zero => exact .pure _
  | succ fuel ih =>
    refine .ite (fun _ => .pure _) fun _ => ?_
    refine .andThen (orderEnds_renamed t less lo up) fun _ => .ite (fun _ => .pure _) fun _ => ?_
    refine .andThen (orderMiddle_renamed t less lo up _) fun _ => ?_
    refine .ite (fun _ => .pure _) fun _ => ?_
    exact sortAround_renamed t less lo up _ ih

end

/-! ### The functions -/

section

variable (args : List Value)

theorem insert_renamed : (insert args).Renamed σ σ.values (insert (σ.values args)) := by
  refine .bind (sizedList_renamed args 1 _) fun r => ?_
  obtain ⟨t, n⟩ := r
  dsimp only [Renaming.sized]
  rw [σ.length_values, Argument.get_values, Argument.get_values]
  split
  · exact .andThen (setItem_renamed t _ _) fun _ => .pure []
  · refine .andThen (Argument.integer_renamed args 2) fun pos => ?_
    refine .andThen (Argument.check_renamed _ _ _) fun _ => ?_
    refine .andThen (shiftUp_renamed t pos _ _) fun _ => ?_
    exact .andThen (setItem_renamed t pos _) fun _ => .pure []
  · exact .raise _

theorem remove_renamed : (remove args).Renamed σ σ.values (remove (σ.values args)) := by
  refine .bind (sizedList_renamed args 1 _) fun r => ?_
  obtain ⟨t, size⟩ := r
  refine .andThen (Argument.integerOr_renamed args 2 size) fun pos => ?_
  have hrest (_ : PUnit) : Action.Renamed σ σ.values
      (do
        let v ← item t pos
        shiftDown t size (size - pos).toUInt64.toNat pos
        setItem t (max pos size) .nil
        pure [v])
      (do
        let v ← item (σ.value t) pos
        shiftDown (σ.value t) size (size - pos).toUInt64.toNat pos
        setItem (σ.value t) (max pos size) .nil
        pure [v]) := by
    refine .bind (item_renamed t pos) fun v => ?_
    refine .andThen (shiftDown_renamed t size _ pos) fun _ => ?_
    exact .andThen (setItem_renamed t _ .nil) fun _ => .pure [v]
  exact .ite (fun _ => .andThen (Argument.check_renamed _ _ _) hrest) fun _ => hrest ⟨⟩

theorem concat_renamed : (concat args).Renamed σ σ.values (concat (σ.values args)) := by
  refine .bind (sizedList_renamed args 1 _) fun r => ?_
  obtain ⟨t, n⟩ := r
  refine .andThen (Argument.stringOr_renamed args 2 _) fun sep => ?_
  refine .andThen (Argument.integerOr_renamed args 3 1) fun i => ?_
  refine .andThen (Argument.integerOr_renamed args 4 n) fun j => ?_
  refine .ite (fun _ => .stringResult _) fun _ => ?_
  exact .andThen (joinFrom_renamed t sep j _ i _) .stringResult

theorem unpack_renamed : (unpack args).Renamed σ σ.values (unpack (σ.values args)) := by
  refine .andThen (Argument.integerOr_renamed args 2 1) fun i => ?_
  have hrest (j : Int64) : Action.Renamed σ σ.values
      (if j < i then pure []
      else
        let n := (j.toInt - i.toInt).toNat + 1
        if n ≥ 1000000 then Action.raise "too many results to unpack"
        else itemsFrom (Argument.get args 1) n i [])
      (if j < i then pure []
      else
        let n := (j.toInt - i.toInt).toNat + 1
        if n ≥ 1000000 then Action.raise "too many results to unpack"
        else itemsFrom (Argument.get (σ.values args) 1) n i []) := by
    rw [Argument.get_values]
    refine .ite (fun _ => .pure []) fun _ => ?_
    exact .ite (fun _ => .raise _) fun _ => itemsFrom_renamed _ _ i []
  have hlength := lengthOf_renamed (σ := σ) (Argument.get args 1)
  rw [← Argument.get_values] at hlength
  dsimp only
  rw [Argument.get_values args 3, σ.isNil_value]
  exact .ite (fun _ => .andThen hlength hrest)
    fun _ => .andThen (Argument.integer_renamed args 3) hrest

theorem move_renamed : (move args).Renamed σ σ.values (move (σ.values args)) := by
  refine .andThen (Argument.integer_renamed args 2) fun f => ?_
  refine .andThen (Argument.integer_renamed args 3) fun e => ?_
  refine .andThen (Argument.integer_renamed args 4) fun t => ?_
  dsimp only
  rw [Argument.get_values, σ.isNil_value]
  generalize (if (Argument.get args 5).isNil then 1 else 5) = target
  refine .bind (list_renamed args 1 _) fun a => ?_
  refine .bind (list_renamed args target _) fun b => ?_
  refine .ite (fun _ => ?_) fun _ => .pure [b]
  refine .andThen (Argument.check_renamed _ _ _) fun _ => ?_
  refine .andThen (Argument.check_renamed _ _ _) fun _ => ?_
  have hrest (same : Bool) : Action.Renamed σ σ.values
      (do
        if (e < t || t ≤ f) || !same then copyUp a b ((e.toInt - f.toInt).toNat + 1) f t
        else
          copyDown a b ((e.toInt - f.toInt).toNat + 1)
            (f + Int64.ofNat ((e.toInt - f.toInt).toNat + 1 - 1))
            (t + Int64.ofNat ((e.toInt - f.toInt).toNat + 1 - 1))
        pure [b])
      (do
        if (e < t || t ≤ f) || !same then
          copyUp (σ.value a) (σ.value b) ((e.toInt - f.toInt).toNat + 1) f t
        else
          copyDown (σ.value a) (σ.value b) ((e.toInt - f.toInt).toNat + 1)
            (f + Int64.ofNat ((e.toInt - f.toInt).toNat + 1 - 1))
            (t + Int64.ofNat ((e.toInt - f.toInt).toNat + 1 - 1))
        pure [σ.value b]) := by
    refine .ite (fun _ => ?_) fun _ => ?_
    · exact .andThen (copyUp_renamed a b _ f t) fun _ => .pure [b]
    · exact .andThen (copyDown_renamed a b _ _ _) fun _ => .pure [b]
  exact .ite (fun _ => .andThen (.pure _) hrest)
    fun _ => .andThen (Operation.equal_renamed a b) hrest

theorem sort_renamed : (sort args).Renamed σ σ.values (sort (σ.values args)) := by
  refine .bind (sizedList_renamed args 1 _) fun r => ?_
  obtain ⟨t, n⟩ := r
  refine .ite (fun _ => ?_) fun _ => .pure []
  refine .andThen (Argument.check_renamed _ _ _) fun _ => ?_
  have hrest (less : Value) : Action.Renamed σ σ.values
      (do
        sortRange t less n.toNatClampNeg 1 n
        pure [])
      (do
        sortRange (σ.value t) (σ.value less) n.toNatClampNeg 1 n
        pure []) :=
    .andThen (sortRange_renamed t less _ _ _) fun _ => .pure []
  dsimp only
  rw [Argument.get_values, σ.isNil_value]
  exact .ite (fun _ => .bind (f := σ.value) (.pure Value.nil) hrest)
    fun _ => .bind (Argument.function_renamed args 2) hrest

theorem packed_renamed : (packed args).Renamed σ σ.values (packed (σ.values args)) := by
  have htable : Table.Renamed σ
      (((Table.sized args.length 1).setFrom 0 args).set (.str "n".toUTF8)
        (.int (Int64.ofNat args.length)))
      (((Table.sized (σ.values args).length 1).setFrom 0 (σ.values args)).set (.str "n".toUTF8)
        (.int (Int64.ofNat (σ.values args).length))) := by
    rw [σ.length_values]
    exact ((Table.renamed_sized args.length 1).setFrom 0 args).set (.str "n".toUTF8) (.int _)
  exact .bind (.newTable htable) fun r => .pure [Value.table r]

/-- The functions of the table library. -/
theorem runTable_renamed (f : TableFunction) :
    (runTable f args).Renamed σ σ.values (runTable f (σ.values args)) := by
  cases f with
  | concat => exact concat_renamed args
  | insert => exact insert_renamed args
  | move => exact move_renamed args
  | pack => exact packed_renamed args
  | remove => exact remove_renamed args
  | sort => exact sort_renamed args
  | unpack => exact unpack_renamed args

end

end Library

end StoryPack.Script
