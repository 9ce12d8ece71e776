/-
The other libraries in heaps that are alike.

A library function that is called with values that are no tables takes the same
course in heaps that are alike.  Functions on tables fail in the same way, or read
a string like its library.  Left out are the functions that give or set
metatables, that make a table, and that tell how many bytes are in use.  (What
makes a table is the packing of values, which looks at none of them.)

* `Library.runBase_steady`, `Library.load_steady` — the base library;
* `Library.runMath_steady` — the math library;
* `Library.runTable_steady`, `Library.runView_steady` — functions on tables.
-/
import StoryPack.Proofs.Primitives.Strings

namespace StoryPack.Script

variable {T : Known} {α β : Type} {args : List Value}

namespace Builtin

/-- The library functions that neither give metatables nor set them, that make no tables, and that
do not tell how many bytes are in use. -/
def isPlain : Builtin → Bool
  | .base .getmetatable | .base .setmetatable | .base .collectgarbage => false
  | .table .pack | .debug .getmetatable | .debug .setmetatable => false
  | _ => true

/-- The library functions that look into a table which they are given. -/
def readsTable : Builtin → Bool
  | .base .next | .base .rawget | .base .rawlen | .base .rawset | .table _ | .view _ => true
  | _ => false

/-- The library functions that read a table which they are given through its metatable. -/
def indexes : Builtin → Bool
  | .base .ipairsStep | .string .gsub => true
  | _ => false

end Builtin

namespace Argument

theorem get_ne_table (hargs : ∀ v ∈ args, ∀ r, v ≠ .table r) (n : Nat) :
    ∀ r, get args n ≠ .table r := get_of_forall nofun hargs n

theorem get_reads (hargs : ∀ v ∈ args, v.Reads T) (n : Nat) : (get args n).Reads T :=
  get_of_forall nofun hargs n

/-- What follows the check that there is an argument gets this argument. -/
theorem present_bind_steady {n : Nat} {k : Value → Action β} (hk : (k (get args n)).Steady T) :
    (present args n >>= k).Steady T := by
  unfold present
  split
  · exact hk
  · exact fun g h hgh => .failed hgh _

/-- Nothing follows an argument of the wrong type. -/
theorem wrongType_bind_steady (hargs : ∀ v ∈ args, v.Suits T) {n : Nat} {expected : String}
    {k : α → Action β} : (wrongType args n expected >>= k).Steady T := by
  intro g h hgh
  show Run.Alike T (.failed g (.argument n (_ ++ typeName g args n)))
    (.failed h (.argument n (_ ++ typeName h args n)))
  rw [hgh.argumentName args n (suits_get hargs n)]
  exact .failed hgh _

/-- Nothing follows the check for a table when the argument is none. -/
theorem table_bind_steady {n : Nat} {k : Nat → Action β}
    (hargs : ∀ v ∈ args, ∀ r, v ≠ .table r) : (table args n >>= k).Steady T := by
  unfold table
  split
  · exact absurd ‹_› (get_ne_table hargs n _)
  · exact wrongType_bind_steady fun v hv => Value.suits_of_ne (hargs v hv)

end Argument

namespace Library

/-! ### The base library -/

theorem throwValue_steady (v : Value) (level : Int64) : (throwValue v level).Steady T := by
  unfold throwValue
  split
  · exact .ite (fun _ => .fail _) fun _ => .fail _
  · exact .fail _

section

variable (hargs : ∀ v ∈ args, v.Suits T)

include hargs

theorem tonumber_steady : (tonumber args).Steady T := by
  refine .ite (fun _ => ?_) fun _ => .bind (Argument.integer_steady hargs 2) fun base => ?_
  · split
    · exact .pure _
    · exact .pure _
    · exact .pure _
    · exact .bind (Argument.present_steady _) fun _ => .pure _
  · split
    · exact .bind (Argument.check_steady _ _ _) fun _ => .pure _
    · exact Argument.wrongType_steady hargs 1 _

theorem select_steady : (select args).Steady T := by
  have hnumber (rest : List Value) : (select.byNumber args rest).Steady T :=
    .bind (Argument.integer_steady hargs 1) fun i =>
      .bind (Argument.check_steady _ _ _) fun _ => .pure _
  unfold select
  dsimp only
  split
  · exact .ite (fun _ => .pure _) fun _ => hnumber _
  · exact hnumber _

theorem pairs_steady : (runBase .pairs args).Steady T := by
  refine Argument.present_bind_steady (.bind (.read fun _ _ hgh => ?_) fun f => ?_)
  · exact hgh.metafield (Argument.suits_get hargs 1) Event.pairs (by decide) (by decide)
  · split
    · exact .pure _
    · exact .bind (.call _ _) fun vs => .pure _

theorem tostring_steady : (runBase .tostring args).Steady T :=
  Argument.present_bind_steady
    (.bind (Operation.shown_steady (Argument.suits_get hargs 1)) .stringResult)

end

theorem ipairsStep_steady (hargs : ∀ v ∈ args, v.Suits T) (hread : (Argument.get args 1).Reads T) :
    (runBase .ipairsStep args).Steady T := by
  refine .bind (Argument.integer_steady hargs 2) fun i => ?_
  exact .bind (Operation.index_steady hread _) fun v => .pure _

/-- The functions of the base library. Those that load code have their own. -/
theorem runBase_steady (hargs : ∀ v ∈ args, v.Suits T) {f : BaseFunction}
    (hf : (Builtin.base f).isPlain)
    (htable : (Builtin.base f).readsTable → ∀ v ∈ args, ∀ r, v ≠ .table r)
    (hread : (Builtin.base f).indexes → ∀ v ∈ args, v.Reads T) : (runBase f args).Steady T := by
  cases f with
  | assert =>
    exact .ite (fun _ => .pure _) fun _ =>
      .bind (Argument.present_steady _) fun _ => throwValue_steady _ 1
  | collectgarbage | getmetatable | setmetatable => cases hf
  | error => exact .bind (Argument.integerOr_steady hargs 2 1) fun level =>
      throwValue_steady _ level
  | ipairs => exact Argument.present_bind_steady (.pure _)
  | ipairsStep => exact ipairsStep_steady hargs (Argument.get_reads (hread rfl) 1)
  | load | loadfile | dofile | pcall | xpcall => exact .pure _
  | next | rawget | rawset => exact Argument.table_bind_steady (htable rfl)
  | pairs => exact pairs_steady hargs
  | print => exact .bind (.forIn _ fun v hv => Operation.shown_steady (hargs v hv)) fun _ => .pure _
  | rawequal =>
    exact .bind (Argument.present_steady _) fun a =>
      .bind (Argument.present_steady _) fun b => .pure _
  | rawlen =>
    unfold runBase
    dsimp only
    split
    · exact absurd ‹_› (Argument.get_ne_table (htable rfl) 1 _)
    · exact .pure _
    · exact Argument.wrongType_steady hargs 1 _
  | select => exact select_steady hargs
  | tonumber => exact tonumber_steady hargs
  | tostring => exact tostring_steady hargs
  | type => exact .bind (Argument.present_steady _) fun v => .pure _
  | warn =>
    refine .bind (Argument.string_steady hargs 1) fun _ => ?_
    exact .bind (.forIn _ fun i _ => Argument.string_steady hargs _) fun _ => .pure _

/-! ### Loading -/

theorem pieces_steady (f : Value) (fuel : Nat) (acc : ByteArray) :
    (pieces f fuel acc).Steady T := by
  induction fuel generalizing acc with
  | zero => exact .pure _
  | succ fuel ih =>
    unfold pieces
    refine .bind (.call1 _ _) fun v => ?_
    split
    · exact .pure _
    · exact .ite (fun _ => .pure _) fun _ => ih _
    · exact .pure _

theorem loadSource_steady (source chunk mode : ByteArray) (env : Value) :
    (loadSource source chunk mode env).Steady T := by
  have hrefuse (m : ByteArray) : Action.Steady T (do
      return [Value.nil, ← Action.string m]) := .bind (.string m) fun v => .pure _
  unfold loadSource
  dsimp only
  refine .ite (fun _ => hrefuse _) fun _ => .ite (fun _ => hrefuse _) fun _ => ?_
  split
  · exact hrefuse _
  · rename_i p _
    refine .bind (.update fun g h hgh => ?_) fun f => .pure _
    obtain ⟨hcell, href⟩ := hgh.newCell env
    rw [href]
    exact hcell.newClosure _

section

variable (hargs : ∀ v ∈ args, v.Suits T)

include hargs

theorem load_steady : (load args).Steady T := by
  refine .bind (Argument.stringOr_steady hargs 3 _) fun mode => ?_
  dsimp only
  split
  · exact .bind (Argument.stringOr_steady hargs 2 _) fun chunk => loadSource_steady _ _ _ _
  · refine .bind (Argument.stringOr_steady hargs 2 _) fun chunk => ?_
    refine .bind (pieces_steady _ _ _) fun source => ?_
    cases source with
    | some source => exact loadSource_steady _ _ _ _
    | none => exact .bind (.string _) fun v => .pure _
  · exact Argument.wrongType_steady hargs 1 _

theorem loadfile_steady : (loadfile args).Steady T := by
  refine .bind (Argument.stringOr_steady hargs 2 _) fun mode => ?_
  refine .ite (fun _ => loadSource_steady _ _ _ _) fun _ => ?_
  exact .bind (Argument.string_steady hargs 1) fun name => .bind (.string _) fun v => .pure _

theorem dofile_steady : (dofile args).Steady T := by
  refine .bind (loadfile_steady fun v hv => hargs v (List.mem_of_mem_take hv)) fun vs => ?_
  split
  · exact .fail _
  · exact .call _ _

omit hargs in
theorem traceback_steady (args : List Value) : (runDebug .traceback args).Steady T := by
  unfold runDebug
  dsimp only
  split
  · exact .bind (.string _) fun m => .pure _
  · exact .bind (.string _) fun m => .pure _
  · exact .pure _

/-! ### The math library -/

theorem unary_steady (F : Float → Float) : (unary args F).Steady T :=
  .bind (Argument.number_steady hargs 1) fun _ => .pure _

theorem rounded_steady (round : Float → Option Int) : (rounded args round).Steady T := by
  unfold rounded
  split
  · exact .pure _
  · exact .bind (Argument.number_steady hargs 1) fun x => .pure _

/-- The best of the arguments is one of them, so that it can be compared with the next one. -/
theorem extreme_steady {replaces : Value → Value → Action Bool}
    (hreplaces : ∀ v best, v.Suits T → best.Suits T → (replaces v best).Steady T) :
    (extreme args replaces).Steady T := by
  have hfold (as : List Value) (has : ∀ v ∈ as, v.Suits T) {best : Value} (hbest : best.Suits T) :
      Action.Steady T (as.foldlM (fun best v => do
        if ← replaces v best then pure v else pure best) best) := by
    induction as generalizing best with
    | nil => exact .pure _
    | cons v as ih =>
      have hv := has v List.mem_cons_self
      have hrest := fun w hw => has w (List.mem_cons_of_mem v hw)
      rw [List.foldlM_cons, bind_assoc]
      refine (hreplaces v best hv hbest).bind fun b => ?_
      cases b with
      | true => exact ih hrest hv
      | false => exact ih hrest hbest
  refine Argument.present_bind_steady (.bind (hfold _ (fun v hv => ?_) ?_) fun best => .pure _)
  · exact hargs v (List.mem_of_mem_drop hv)
  · exact Argument.suits_get hargs 1

theorem fmod_steady : (fmod args).Steady T := by
  unfold fmod
  split
  · exact .ite (fun _ => .badArgument _ _) fun _ => .ite (fun _ => .pure _) fun _ => .pure _
  · exact .bind (Argument.number_steady hargs 1) fun x =>
      .bind (Argument.number_steady hargs 2) fun y => .pure _

theorem logarithm_steady : (logarithm args).Steady T := by
  refine .bind (Argument.number_steady hargs 1) fun x => .ite (fun _ => .pure _) fun _ => ?_
  exact .bind (Argument.number_steady hargs 2) fun base => .pure _

theorem random_steady : (random args).Steady T := by
  unfold random
  split
  · exact .pure _
  · refine .bind (Argument.integer_steady hargs 1) fun up => .ite (fun _ => .pure _) fun _ => ?_
    exact .bind (Argument.check_steady _ _ _) fun _ => .pure _
  · refine .bind (Argument.integer_steady hargs 1) fun low => ?_
    refine .bind (Argument.integer_steady hargs 2) fun up => ?_
    exact .bind (Argument.check_steady _ _ _) fun _ => .pure _
  · exact .raise _

/-- The functions of the math library. -/
theorem runMath_steady (f : MathFunction) : (runMath f args).Steady T := by
  have hnumber := Argument.number_steady hargs
  have hinteger := Argument.integer_steady hargs
  cases f with
  | abs =>
    unfold runMath
    dsimp only
    split
    · exact .pure _
    · exact unary_steady hargs _
  | atan =>
    refine .bind (hnumber 1) fun y => .bind ?_ fun x => .pure _
    exact .ite (fun _ => .pure _) fun _ => hnumber 2
  | ceil | floor => exact rounded_steady hargs _
  | fmod => exact fmod_steady hargs
  | frexp => exact .bind (hnumber 1) fun x => .pure _
  | ldexp => exact .bind (hnumber 1) fun x => .bind (hinteger 2) fun e => .pure _
  | log => exact logarithm_steady hargs
  | max => exact extreme_steady hargs fun v best hv hbest => Operation.less_steady hbest hv
  | min => exact extreme_steady hargs fun v best hv hbest => Operation.less_steady hv hbest
  | modf =>
    unfold runMath
    dsimp only
    split
    · exact .pure _
    · exact .bind (hnumber 1) fun x => .pure _
  | pow => exact .bind (hnumber 1) fun x => .bind (hnumber 2) fun y => .pure _
  | random => exact random_steady hargs
  | randomseed =>
    refine .ite (fun _ => .pure _) fun _ => .bind (hnumber 1) fun n => ?_
    exact .bind (Argument.integerOr_steady hargs 2 0) fun m => .pure _
  | tointeger | type => exact .bind (Argument.present_steady _) fun v => .pure _
  | ult => exact .bind (hinteger 1) fun a => .bind (hinteger 2) fun b => .pure _
  | _ => exact unary_steady hargs _

end

/-! ### Functions on tables -/

variable {D : Nat → Prop} {t : Table} {h : Heap}

/-- A value that is no table can not be written to as a list, and has no length as a list. -/
theorem list_eq_wrongType (hh : h.Usual D t) {n : Nat} (hv : ∀ r, Argument.get args n ≠ .table r)
    {u : Use} (hu : u.writes || u.length) :
    list args n u h = Argument.wrongType args n "table" h := by
  have hnone (event : ByteArray) (hop : ∀ op : Arith, op.event ≠ event)
      (hindex : event ≠ Event.index)
      (hmeta : event ≠ Event.metatable) : h.metafield (Argument.get args n) event = .nil := by
    rw [hh.metafield _ hv event hindex hmeta, Value.usualField_eq_nil _ event hop]
  have hwrite := hnone Event.newindex (fun op => op.event_ne.2) (by decide) (by decide)
  have hlen := hnone Event.len (fun op => by cases op <;> decide) (by decide) (by decide)
  unfold list
  dsimp only
  split
  · exact absurd ‹_› (hv _)
  · rw [if_neg]
    rw [hwrite, hlen]
    revert hu
    cases u.writes <;> cases u.length <;> simp [Value.isNil]

/-- A string can be read as a list, other values that are no tables can not. -/
theorem list_reads (hh : h.Usual D t) {n : Nat} (hv : ∀ r, Argument.get args n ≠ .table r) :
    list args n { reads := true } h = if (Argument.get args n).kind = .string
      then .done h (Argument.get args n) else Argument.wrongType args n "table" h := by
  obtain ⟨r, -, hindex⟩ := hh.index
  have hfield := hindex _ hv
  unfold list
  dsimp only
  split
  · exact absurd ‹_› (hv _)
  · split at hfield
    · rename_i hstring
      have hsome : (h.metatable? (Argument.get args n)).isSome := by
        cases hm : h.metatable? (Argument.get args n) with
        | some m => rfl
        | none =>
          rw [Heap.metafield, hm] at hfield
          cases hfield
      rw [if_pos hstring, if_pos (by simp [hsome, hfield, Value.isNil])]
    · rename_i hstring
      rw [if_neg hstring, if_neg (by simp [hfield, Value.isNil])]

section

variable (hargs : ∀ v ∈ args, ∀ r, v ≠ .table r)

include hargs

theorem list_bind_steady {n : Nat} {u : Use} (hu : u.writes || u.length) {k : Value → Action β} :
    (list args n u >>= k).Steady T := by
  intro g h hgh
  obtain ⟨D, E, t, hD, hE⟩ := hgh.usual
  have hv := Argument.get_ne_table hargs n
  rw [Action.bind_apply, Action.bind_apply, list_eq_wrongType hD hv hu, list_eq_wrongType hE hv hu]
  exact Argument.wrongType_bind_steady (k := k) (fun v hv => Value.suits_of_ne (hargs v hv)) g h hgh

theorem list_reads_steady (n : Nat) : (list args n { reads := true }).Steady T := by
  intro g h hgh
  obtain ⟨D, E, t, hD, hE⟩ := hgh.usual
  have hv := Argument.get_ne_table hargs n
  rw [list_reads hD hv, list_reads hE hv]
  split
  · exact .done hgh _
  · exact Argument.wrongType_steady (fun v hv => Value.suits_of_ne (hargs v hv)) n _ g h hgh

theorem sizedList_bind_steady {n : Nat} {u : Use} {k : Value × Int64 → Action β} :
    (sizedList args n u >>= k).Steady T := by
  unfold sizedList
  rw [bind_assoc]
  exact list_bind_steady hargs (by simp)

theorem lengthOf_steady (n : Nat) : (lengthOf (Argument.get args n)).Steady T := by
  refine .bind (Operation.length_steady (Argument.get_ne_table hargs n)) fun v => ?_
  split
  · exact .pure _
  · split
    · exact .pure _
    · exact .raise _
  · split
    · exact .pure _
    · exact .raise _
  · exact .raise _

theorem itemsFrom_steady (m n : Nat) (i : Int64) (acc : List Value) :
    (itemsFrom (Argument.get args m) n i acc).Steady T := by
  induction n generalizing i acc with
  | zero => exact .pure _
  | succ n ih =>
    have hread := Value.reads_of_ne (T := T) (Argument.get_ne_table hargs m)
    exact .bind (Operation.index_steady hread _) fun v => ih _ _

theorem unpack_steady : (unpack args).Steady T := by
  have hsuits (v : Value) (hv : v ∈ args) : v.Suits T := Value.suits_of_ne (hargs v hv)
  refine .bind (Argument.integerOr_steady hsuits 2 1) fun i => ?_
  have hrest (j : Int64) : Action.Steady T (if j < i then pure []
      else if (j.toInt - i.toInt).toNat + 1 ≥ 1000000 then Action.raise "too many results to unpack"
      else itemsFrom (Argument.get args 1) ((j.toInt - i.toInt).toNat + 1) i []) :=
    .ite (fun _ => .pure _) fun _ => .ite (fun _ => .raise _) fun _ =>
    itemsFrom_steady hargs 1 _ _ _
  exact .ite (fun _ => .bind (lengthOf_steady hargs 1) hrest)
    fun _ => .bind (Argument.integer_steady hsuits 3) hrest

/-- The functions of the table library on values that are no tables. -/
theorem runTable_steady {f : TableFunction} (hf : (Builtin.table f).isPlain) :
    (runTable f args).Steady T := by
  cases f with
  | concat | insert | remove | sort => exact sizedList_bind_steady hargs
  | move =>
    have hinteger := Argument.integer_steady (T := T) fun v hv => Value.suits_of_ne (hargs v hv)
    refine .bind (hinteger 2) fun f => .bind (hinteger 3) fun e => .bind (hinteger 4) fun t => ?_
    exact .bind (list_reads_steady hargs 1) fun a => list_bind_steady hargs rfl
  | pack => cases hf
  | unpack => exact unpack_steady hargs

theorem hostTable_bind_steady {n : Nat} {k : Nat → Action β} :
    (hostTable args n >>= k).Steady T := by
  unfold hostTable
  split
  · exact absurd ‹_› (Argument.get_ne_table hargs n _)
  · exact fun g h hgh => .failed hgh _

/-- The readers of views on values that are no tables. -/
theorem runView_steady (f : ViewFunction) : (runView f args).Steady T := by
  cases f with
  | next | rawget | pairs | length => exact hostTable_bind_steady hargs
  | rawlen =>
    unfold runView
    dsimp only
    split
    · exact absurd ‹_› (Argument.get_ne_table hargs 1 _)
    · exact .pure _
    · exact .fail _
  | deny => exact .fail _

end

end Library

end StoryPack.Script
