/-
Operators in heaps that are alike.

An operator first looks at its operands and then at their metamethods.  Both are
the same in heaps that are alike, so that the operator takes the same course.
Reading and writing look at the metatable of one operand, which is no table here;
all others only need operands with the same metamethods.

* `Operation.index_steady`, `Operation.setIndex_steady` — reading and writing;
* `Operation.arith_steady`, `Operation.concat_steady`, … — the other operators;
* `Operation.shown_steady` — the text of a value.
-/
import StoryPack.Proofs.Primitives.Action

namespace StoryPack.Script

variable {T : Known} {α : Type}

theorem Arith.event_ne_metatable (op : Arith) : op.event ≠ Event.metatable := by
  cases op <;> decide

namespace Operation

open StoryPack.Script.Action.Steady (call1)

theorem wrongType_steady (verb : String) {v : Value} (hv : v.Suits T) (which : Option Nat) :
    (wrongType verb v which : Action α).Steady T := by
  intro g h hgh
  unfold wrongType
  rw [hgh.typeName hv]
  cases which with
  | some n => exact .failed hgh _
  | none => exact .failed hgh _

/-- Strings are read like the same library; other values that are no tables can not be read. -/
theorem index_steady {v : Value} (hv : v.Reads T) (key : Value) : (index v key).Steady T := by
  intro g h hgh
  by_cases htable : ∃ r, v = .table r
  · obtain ⟨r, rfl⟩ := htable
    obtain ⟨D, E, t, hD, hE⟩ := hgh.reads r (hv r rfl)
    -- the chain of metatables may have 2000 links, of which a view takes two
    have hg : index (.table r) key g = .done g (t.getValue key) := hD.indexFrom 1998 none key
    have hh : index (.table r) key h = .done h (t.getValue key) := hE.indexFrom 1998 none key
    rw [hg, hh]
    exact .done hgh _
  replace hv : ∀ r, v ≠ .table r := fun r hr => htable ⟨r, hr⟩
  have hwrong := wrongType_steady "index" (Value.suits_of_ne hv) (some 0) (α := Value) g h hgh
  obtain ⟨D, E, t, hD, hE⟩ := hgh.usual
  by_cases hstr : v.kind = .string
  · cases v with
    | str s =>
      rw [hD.index_str, hE.index_str]
      exact .done hgh _
    | _ => cases hstr
  · rw [hD.index_of_ne hv hstr, hE.index_of_ne hv hstr]
    exact hwrong

theorem setIndex_steady {v : Value} (hv : ∀ r, v ≠ .table r) (key value : Value) :
    (setIndex v key value).Steady T := by
  intro g h hgh
  obtain ⟨D, E, t, hD, hE⟩ := hgh.usual
  rw [hD.setIndex_of_ne hv, hE.setIndex_of_ne hv]
  exact wrongType_steady "index" (Value.suits_of_ne hv) (some 0) g h hgh

section

variable {a b : Value} (ha : a.Suits T) (hb : b.Suits T)

include ha hb

theorem binaryHandler_alike {g h : Heap} (hgh : g.Alike T h) (event : ByteArray)
    (hindex : event ≠ Event.index) (hmeta : event ≠ Event.metatable) :
    binaryHandler h event a b = binaryHandler g event a b := by
  unfold binaryHandler
  rw [hgh.metafield ha event hindex hmeta, hgh.metafield hb event hindex hmeta]

theorem arithFailure_steady (op : Arith) : (arithFailure op a b).Steady T := by
  unfold arithFailure
  split
  · split
    · exact .fail _
    · exact wrongType_steady _ hb _
    · exact wrongType_steady _ ha _
  · split
    · exact wrongType_steady _ hb _
    · exact wrongType_steady _ ha _

theorem arith_steady (op : Arith) : (arith op a b).Steady T := by
  unfold arith
  split
  · exact .pure _
  · exact .fail _
  · exact .fail _
  · intro g h hgh
    dsimp only
    rw [binaryHandler_alike ha hb hgh op.event op.event_ne.1 op.event_ne_metatable]
    split
    · exact arithFailure_steady ha hb op g h hgh
    · exact call1 _ [a, b] g h hgh

theorem noOrder_steady : (noOrder a b : Action α).Steady T := by
  intro g h hgh
  unfold noOrder
  rw [hgh.typeName ha, hgh.typeName hb]
  exact .failed hgh _

end

/-- What is made of the truth of a metamethod's result. -/
theorem truth_alike {g h : Heap} (hgh : g.Alike T h) (f : Value) (args : List Value)
    (p : Bool → Bool) : Run.Alike T
      ((Action.call1 f args g).andThen fun v h => .done h (p v.truthy))
      ((Action.call1 f args h).andThen fun v h => .done h (p v.truthy)) :=
  (call1 f args g h hgh).andThen fun _ _ _ hgh => .done hgh _

theorem compareBy_steady {event : ByteArray} (hindex : event ≠ Event.index)
    (hmeta : event ≠ Event.metatable) {a b : Value} (ha : a.Suits T) (hb : b.Suits T) :
    (compareBy event a b).Steady T := by
  intro g h hgh
  unfold compareBy
  rw [binaryHandler_alike ha hb hgh event hindex hmeta]
  split
  · exact noOrder_steady ha hb g h hgh
  · exact truth_alike hgh _ [a, b] id

theorem notGreater_steady {a b : Value} (ha : a.Suits T) (hb : b.Suits T) :
    (notGreater a b).Steady T := by
  intro g h hgh
  unfold notGreater
  rw [binaryHandler_alike ha hb hgh Event.le (by decide) (by decide),
    binaryHandler_alike hb ha hgh Event.lt (by decide) (by decide)]
  split
  · exact noOrder_steady ha hb g h hgh
  · exact truth_alike hgh _ [b, a] not
  · exact truth_alike hgh _ [a, b] id

theorem equal_steady {a b : Value} (ha : a.Suits T) (hb : b.Suits T) : (equal a b).Steady T := by
  intro g h hgh
  unfold equal
  rw [binaryHandler_alike ha hb hgh Event.eq (by decide) (by decide)]
  split
  · exact .done hgh _
  · split
    · split
      · exact .done hgh _
      · exact truth_alike hgh _ [_, _] id
    · exact .done hgh _

theorem less_steady {a b : Value} (ha : a.Suits T) (hb : b.Suits T) : (less a b).Steady T := by
  unfold less
  split
  · exact .pure _
  · split
    · exact .pure _
    · exact compareBy_steady (by decide) (by decide) ha hb

theorem lessOrEqual_steady {a b : Value} (ha : a.Suits T) (hb : b.Suits T) :
    (lessOrEqual a b).Steady T := by
  unfold lessOrEqual
  split
  · exact .pure _
  · split
    · exact .pure _
    · exact notGreater_steady ha hb

theorem compare_steady (op : Comparison) {a b : Value} (ha : a.Suits T) (hb : b.Suits T) :
    (compare op a b).Steady T := by
  cases op with
  | eq => exact equal_steady ha hb
  | lt => exact less_steady ha hb
  | le => exact lessOrEqual_steady ha hb

theorem concatPairs_steady {before : List Value} (hbefore : ∀ v ∈ before, v.Suits T) {last : Value}
    (hlast : last.Suits T) : (concatPairs before last).Steady T := by
  induction before generalizing last with
  | nil =>
    rw [concatPairs]
    exact .pure last
  | cons a before ih =>
    obtain ⟨ha, hbefore⟩ := List.forall_mem_cons.mp hbefore
    have hhandler {bad : Value} (hbad : bad.Suits T) (which : Nat) :
        Action.Steady T (concatPairs.byHandler before a last bad which) := by
      intro g h hgh
      unfold concatPairs.byHandler
      rw [binaryHandler_alike ha hlast hgh Event.concat (by decide) (by decide)]
      split
      · exact wrongType_steady _ hbad _ g h hgh
      · -- the metamethod's result is the next operand, whatever it is
        refine .call hgh _ [a, last] fun g h vs hgh hvs => ?_
        refine ih hbefore ?_ g h hgh
        cases vs with
        | nil => exact Value.suits_of_ne fun r hr => by cases hr
        | cons v vs => exact hvs v List.mem_cons_self
    intro g h hgh
    unfold concatPairs
    split
    · exact ih hbefore (Value.suits_str _) _ _ (hgh.countString _)
    · exact hhandler hlast _ g h hgh
    · exact hhandler ha _ g h hgh

theorem concat_steady {values : List Value} (hvalues : ∀ v ∈ values, v.Suits T) :
    (concat values).Steady T := by
  unfold concat
  split
  · exact .bind (.reserve _) fun _ => .string _
  · split
    · exact .string _
    · rename_i last before hreverse
      have hmem (v : Value) (hv : v ∈ last :: before) : v.Suits T :=
        hvalues v (List.mem_reverse.mp (hreverse ▸ hv))
      obtain ⟨hlast, hbefore⟩ := List.forall_mem_cons.mp hmem
      exact concatPairs_steady hbefore hlast

/-- The length of a string, or the metamethod that a value has for it. -/
theorem length_steady {v : Value} (hv : ∀ r, v ≠ .table r) : (length v).Steady T := by
  have hsuits : v.Suits T := Value.suits_of_ne hv
  intro g h hgh
  unfold length
  cases v with
  | str s => exact .done hgh _
  | table r => exact absurd rfl (hv r)
  | _ =>
    dsimp only
    rw [hgh.metafield hsuits Event.len (by decide) (by decide)]
    split
    · exact wrongType_steady _ hsuits _ g h hgh
    · exact call1 _ _ g h hgh

theorem shown_steady {v : Value} (hv : v.Suits T) : (shown v).Steady T := by
  intro g h hgh
  unfold shown
  rw [hgh.metafield hv Event.tostring (by decide) (by decide), hgh.plainText hv]
  split
  · exact .done hgh _
  · refine (call1 _ [v] g h hgh).andThen fun t g h hgh => ?_
    split
    · exact .done hgh _
    · exact .failed hgh _

end Operation

end StoryPack.Script
