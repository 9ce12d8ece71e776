/-
Operators on values whose references are renamed.

An operator looks at the types of its operands, at plain values, and at what the
heap has in metatables, and does the same to values that differ only in their
references.

* `Operation.index_renamed`, `Operation.setIndex_renamed` — reading and writing;
* `Operation.arith_renamed`, `Operation.concat_renamed`, … — the other operators;
* `Operation.shown_renamed` — the text of a value.
-/
import StoryPack.Proofs.Renaming.Action
import StoryPack.Script.Operation

namespace StoryPack.Script

variable {σ : Renaming} {α : Type}

namespace Operation

open Action.Renamed (call1)

theorem wrongType_renamed (verb : String) (v : Value) (which : Option Nat) {f : α → α} :
    (wrongType verb v which : Action α).Renamed σ f (wrongType verb (σ.value v) which) := by
  intro h h' hh
  unfold wrongType
  rw [hh.typeName]
  cases which with
  | some n => exact .failed hh _
  | none => exact .failed hh _

theorem indexFrom_renamed (fuel : Nat) (which : Option Nat) (object key : Value) :
    (indexFrom fuel which object key).Renamed σ σ.value
      (indexFrom fuel which (σ.value object) (σ.value key)) := by
  induction fuel generalizing which object with
  | zero => exact .fail _
  | succ fuel ih =>
    intro h h' hh
    have hfield := hh.metafield object Event.index
    have hwrong := wrongType_renamed "index" object which (f := σ.value) h h' hh
    have hcall (f : Function) := call1 (.function f) [object, key] h h' hh
    unfold indexFrom
    cases object with
    | table r =>
      dsimp only [σ.value_table]
      rw [(hh.table r).getValue, σ.isNil_value, (hh.table r).metatable]
      split
      · exact .done hh _
      · cases (h.table r).metatable with
        | none => exact .done hh Value.nil
        | some m =>
          dsimp only [Option.map_some]
          rw [hh.getStr]
          cases h.getKey m (.str Event.index) with
          | nil => exact .done hh Value.nil
          | function f => exact hcall f
          | _ => exact ih none _ h h' hh
    | _ =>
      dsimp only [Renaming.value] at hfield ⊢
      rw [hfield]
      generalize Heap.metafield h _ Event.index = f
      cases f with
      | nil => exact hwrong
      | function f => exact hcall f
      | _ => exact ih none _ h h' hh

theorem index_renamed (object key : Value) :
    (index object key).Renamed σ σ.value (index (σ.value object) (σ.value key)) :=
  indexFrom_renamed chainLimit (some 0) object key

theorem rawSet_renamed (r : Nat) (key value : Value) :
    (rawSet r key value).Renamed σ id (rawSet (σ.table r) (σ.value key) (σ.value value)) := by
  intro h h' hh
  unfold rawSet
  rw [σ.toKey?_value]
  cases key.toKey? with
  | some k => exact .done (hh.setKey r k value) _
  | none => cases key <;> exact .failed hh _

theorem setIndexFrom_renamed (fuel : Nat) (which : Option Nat) (object key value : Value) :
    (setIndexFrom fuel which object key value).Renamed σ id
      (setIndexFrom fuel which (σ.value object) (σ.value key) (σ.value value)) := by
  induction fuel generalizing which object with
  | zero => exact .fail _
  | succ fuel ih =>
    intro h h' hh
    have hfield := hh.metafield object Event.newindex
    have hwrong := wrongType_renamed "index" object which (f := @id PUnit) h h' hh
    have hcall (f : Function) : Run.Renamed σ (@id PUnit)
        ((Action.call (.function f) [object, key, value] h).andThen fun _ h => .done h ⟨⟩)
        ((Action.call (σ.value (.function f)) (σ.values [object, key, value]) h').andThen
          fun _ h => .done h ⟨⟩) :=
      (Action.Renamed.call (.function f) [object, key, value] h h' hh).andThen
        fun _ _ _ hh => .done hh _
    unfold setIndexFrom
    cases object with
    | table r =>
      have hraw := rawSet_renamed r key value h h' hh
      dsimp only [σ.value_table]
      rw [(hh.table r).getValue, σ.isNil_value, (hh.table r).metatable]
      cases (h.table r).metatable with
      | none => exact hraw
      | some m =>
        dsimp only [Option.map_some]
        split
        · exact hraw
        · rw [hh.getStr]
          cases h.getKey m (.str Event.newindex) with
          | nil => exact hraw
          | function f => exact hcall f
          | _ => exact ih none _ h h' hh
    | _ =>
      dsimp only [Renaming.value] at hfield ⊢
      rw [hfield]
      generalize Heap.metafield h _ Event.newindex = f
      cases f with
      | nil => exact hwrong
      | function f => exact hcall f
      | _ => exact ih none _ h h' hh

theorem setIndex_renamed (object key value : Value) :
    (setIndex object key value).Renamed σ id
      (setIndex (σ.value object) (σ.value key) (σ.value value)) :=
  setIndexFrom_renamed chainLimit (some 0) object key value

theorem binaryHandler_renamed {h h' : Heap} (hh : h.Renamed σ h') (event : ByteArray)
    (a b : Value) :
    binaryHandler h' event (σ.value a) (σ.value b) = σ.value (binaryHandler h event a b) := by
  unfold binaryHandler
  rw [hh.metafield, hh.metafield]
  cases h.metafield a event <;> rfl

theorem arithFailure_renamed (op : Arith) (a b : Value) :
    (arithFailure op a b).Renamed σ σ.value (arithFailure op (σ.value a) (σ.value b)) := by
  unfold arithFailure
  rw [σ.kind_value, σ.kind_value, σ.integral?_value]
  split
  · split
    · exact .fail _
    · exact wrongType_renamed _ _ _
    · exact wrongType_renamed _ _ _
  · split
    · exact wrongType_renamed _ _ _
    · exact wrongType_renamed _ _ _

theorem arith_renamed (op : Arith) (a b : Value) :
    (arith op a b).Renamed σ σ.value (arith op (σ.value a) (σ.value b)) := by
  unfold arith
  rw [σ.arithmetic_value]
  cases hresult : arithmetic op a b with
  | value v => exact .pure_of_eq (σ.value_of_arithmetic a b hresult)
  | divisionByZero => exact .fail _
  | remainderByZero => exact .fail _
  | unsuited =>
    intro h h' hh
    dsimp only
    rw [binaryHandler_renamed hh]
    cases binaryHandler h op.event a b with
    | nil => exact arithFailure_renamed op a b h h' hh
    | _ => exact call1 _ [a, b] h h' hh

theorem concatPairs_renamed (before : List Value) (last : Value) :
    (concatPairs before last).Renamed σ σ.value
      (concatPairs (σ.values before) (σ.value last)) := by
  induction before generalizing last with
  | nil =>
    rw [σ.values_nil, concatPairs, concatPairs]
    exact .pure last
  | cons a before ih =>
    have hhandler (bad : Value) (which : Nat) :
        Action.Renamed σ σ.value (concatPairs.byHandler before a last bad which)
          (concatPairs.byHandler (σ.values before) (σ.value a) (σ.value last) (σ.value bad)
            which) := by
      intro h h' hh
      unfold concatPairs.byHandler
      rw [binaryHandler_renamed hh]
      cases binaryHandler h Event.concat a last with
      | nil => exact wrongType_renamed _ _ _ h h' hh
      | _ => exact (call1 _ [a, last] h h' hh).andThen fun v h h' hh => ih v h h' hh
    intro h h' hh
    rw [σ.values_cons]
    unfold concatPairs
    rw [σ.bytes?_value, σ.bytes?_value, σ.length_values]
    cases bytes? a with
    | none => exact hhandler _ _ h h' hh
    | some x =>
      cases bytes? last with
      | none => exact hhandler _ _ h h' hh
      | some y => exact ih _ _ _ (hh.countString _)

theorem mapM_bytes?_values (vs : List Value) : (σ.values vs).mapM bytes? = vs.mapM bytes? := by
  induction vs with
  | nil => rfl
  | cons v vs ih => rw [σ.values_cons, List.mapM_cons, List.mapM_cons, σ.bytes?_value, ih]

theorem concat_renamed (values : List Value) :
    (concat values).Renamed σ σ.value (concat (σ.values values)) := by
  unfold concat
  rw [mapM_bytes?_values]
  cases values.mapM bytes? with
  | some parts => exact .andThen (.reserve _ _) fun _ => .string _
  | none =>
    dsimp only
    rw [σ.reverse_values]
    cases values.reverse with
    | nil => exact .string _
    | cons last before => exact concatPairs_renamed before last

theorem length_renamed (v : Value) : (length v).Renamed σ σ.value (length (σ.value v)) := by
  intro h h' hh
  have hfield := hh.metafield v Event.len
  have hwrong := wrongType_renamed "get length of" v (some 0) (f := σ.value) h h' hh
  have hcall (f : Value) := call1 f [v, v] h h' hh
  unfold length
  cases v with
  | str s => exact .done hh _
  | table r =>
    dsimp only [σ.value_table] at hfield ⊢
    rw [hfield, (hh.table r).length]
    cases h.metafield (.table r) Event.len with
    | nil => exact .done hh _
    | _ => exact hcall _
  | _ =>
    dsimp only [Renaming.value] at hfield ⊢
    rw [hfield]
    generalize Heap.metafield h _ Event.len = f
    cases f with
    | nil => exact hwrong
    | _ => exact hcall _

/-- What is made of the truth of a metamethod's result. -/
theorem truth_renamed {h h' : Heap} (hh : h.Renamed σ h') (f : Value) (args : List Value)
    (p : Bool → Bool) : Run.Renamed σ id
      ((Action.call1 f args h).andThen fun v h => .done h (p v.truthy))
      ((Action.call1 (σ.value f) (σ.values args) h').andThen fun v h => .done h (p v.truthy)) :=
  (call1 f args h h' hh).andThen fun v _ _ hh => by
    rw [σ.truthy_value]
    exact .done hh _

theorem equal_renamed (a b : Value) : (equal a b).Renamed σ id (equal (σ.value a) (σ.value b)) := by
  intro h h' hh
  have hhandler := binaryHandler_renamed hh Event.eq a b
  unfold equal
  rw [σ.rawEqual_value]
  split
  · exact .done hh _
  · cases a with
    | table r =>
      cases b with
      | table r' =>
        dsimp only [σ.value_table] at hhandler ⊢
        rw [hhandler]
        cases binaryHandler h Event.eq (.table r) (.table r') with
        | nil => exact .done hh _
        | _ => exact truth_renamed hh _ [.table r, .table r'] id
      | _ => exact .done hh _
    | _ => exact .done hh _

theorem noOrder_renamed (a b : Value) {f : α → α} :
    (noOrder a b : Action α).Renamed σ f (noOrder (σ.value a) (σ.value b)) := by
  intro h h' hh
  unfold noOrder
  rw [hh.typeName, hh.typeName]
  exact .failed hh _

theorem compareBy_renamed (event : ByteArray) (a b : Value) :
    (compareBy event a b).Renamed σ id (compareBy event (σ.value a) (σ.value b)) := by
  intro h h' hh
  unfold compareBy
  rw [binaryHandler_renamed hh]
  cases binaryHandler h event a b with
  | nil => exact noOrder_renamed a b h h' hh
  | _ => exact truth_renamed hh _ [a, b] id

theorem notGreater_renamed (a b : Value) :
    (notGreater a b).Renamed σ id (notGreater (σ.value a) (σ.value b)) := by
  intro h h' hh
  unfold notGreater
  rw [binaryHandler_renamed hh, binaryHandler_renamed hh]
  cases binaryHandler h Event.le a b with
  | nil =>
    cases binaryHandler h Event.lt b a with
    | nil => exact noOrder_renamed a b h h' hh
    | _ => exact truth_renamed hh _ [b, a] not
  | _ => exact truth_renamed hh _ [a, b] id

theorem less_renamed (a b : Value) : (less a b).Renamed σ id (less (σ.value a) (σ.value b)) := by
  unfold less
  rw [σ.lessThan?_value]
  cases lessThan? a b with
  | some r => exact .pure _
  | none =>
    have hby := compareBy_renamed (σ := σ) Event.lt a b
    cases a with
    | str s =>
      cases b with
      | str t => exact .pure _
      | _ => exact hby
    | _ => exact hby

theorem lessOrEqual_renamed (a b : Value) :
    (lessOrEqual a b).Renamed σ id (lessOrEqual (σ.value a) (σ.value b)) := by
  unfold lessOrEqual
  rw [σ.lessEqual?_value]
  cases lessEqual? a b with
  | some r => exact .pure _
  | none =>
    have hby := notGreater_renamed (σ := σ) a b
    cases a with
    | str s =>
      cases b with
      | str t => exact .pure _
      | _ => exact hby
    | _ => exact hby

theorem compare_renamed (op : Comparison) (a b : Value) :
    (compare op a b).Renamed σ id (compare op (σ.value a) (σ.value b)) := by
  cases op with
  | eq => exact equal_renamed a b
  | lt => exact less_renamed a b
  | le => exact lessOrEqual_renamed a b

theorem objectText_renamed {h h' : Heap} (hh : h.Renamed σ h') (v : Value) :
    objectText h' (σ.value v) = objectText h v := by
  unfold objectText
  rw [hh.metafield, hh.place, σ.typeName_value]
  cases h.metafield v Event.name <;> rfl

theorem plainText_renamed {h h' : Heap} (hh : h.Renamed σ h') (v : Value) :
    plainText h' (σ.value v) = plainText h v := by
  have hplain : (Numeral.printed? (σ.value v)).getD (objectText h' (σ.value v)) =
      (Numeral.printed? v).getD (objectText h v) := by
    rw [σ.printed?_value, objectText_renamed hh]
  cases v with
  | bool b => cases b <;> rfl
  | fault r =>
    dsimp only [σ.value_fault, plainText]
    rw [hh.fault]
  | nil | str => rfl
  | _ => exact hplain

theorem shown_renamed (v : Value) : (shown v).Renamed σ id (shown (σ.value v)) := by
  intro h h' hh
  unfold shown
  rw [hh.metafield, plainText_renamed hh]
  cases h.metafield v Event.tostring with
  | nil => exact .done hh _
  | _ =>
    refine (call1 _ [v] h h' hh).andThen fun t h h' hh => ?_
    rw [σ.bytes?_value]
    cases bytes? t with
    | some s => exact .done hh _
    | none => exact .failed hh _

end Operation

end StoryPack.Script
