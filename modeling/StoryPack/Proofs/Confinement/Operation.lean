/-
The operators keep what is fixed.

Reading through a view is the one operation that looks at a table that scripts
may not hold: it takes a value out of the backing table and does not give the
table away.  Writing along a chain of metatables ends at a table that is not
fixed, or in a call of the function that refuses writes.

* `Operation.index_obeys`, `Operation.setIndex_obeys` — reading and writing;
* `Operation.arith_obeys`, `Operation.concat_obeys`, … — the other operators.
-/
import StoryPack.Proofs.Confinement.Action
import StoryPack.Script.Operation

namespace StoryPack.Script

variable {W : Ward} {n : Nat} {α : Type}

/-- The values that reading goes through: those that scripts may hold, and backing tables. -/
def Value.Readable (W : Ward) (n : Nat) (v : Value) : Prop :=
  v.Ok W n ∨ ∃ r m b, v = .table b ∧ W.views r = some (m, b)

namespace Operation

theorem wrongType_obeys (verb : String) (v : Value) (which : Option Nat) {Q : Nat → α → Prop} :
    (wrongType verb v which : Action α).Obeys W n Q := by
  intro h hn hk
  unfold wrongType
  split
  · exact ⟨.refl hk, trivial⟩
  · exact ⟨.refl hk, trivial⟩

theorem indexFrom_obeys (fuel : Nat) (which : Option Nat) {object key : Value}
    (hobject : object.Readable W n) (hkey : key.Ok W n) :
    (indexFrom fuel which object key).Obeys W n fun k v => v.Ok W k := by
  induction fuel generalizing n which object with
  | zero => exact .fail trivial
  | succ fuel ih =>
    intro h hn hk
    have hkey' := hkey.mono hn
    -- what is found in a metatable is called, or the reading goes on there
    have hnext {v : Value} (hv : v.Ok W h.tables.size) :
        (h.metafield v Event.index).Readable W h.tables.size := by
      rcases hk.metafield_cases hv Event.index with hok | ⟨r, m, b, -, hview, ⟨-, he⟩ | ⟨he, -⟩⟩
      · exact .inl hok
      · exact .inr ⟨r, m, b, he, hview⟩
      · exact absurd he (by decide)
    have hcall {v : Value} {f : Function} (hv : v.Ok W h.tables.size)
        (hf : h.metafield v Event.index = .function f) :
        (Action.call1 (.function f) [v, key] h).Obeys W (fun k v => v.Ok W k) h := by
      have hok : (Value.function f).Ok W h.tables.size := by
        rcases hnext hv with hok | ⟨r, m, b, he, -⟩
        · exact hf ▸ hok
        · rw [hf] at he
          cases he
      exact Action.Obeys.call1 hok.callable (by simp [hv, hkey']) h (Nat.le_refl _) hk
    unfold indexFrom
    split
    · rename_i r
      dsimp only
      rcases hobject with hr | ⟨r', m, b, hb, hview⟩
      · have hr := hr.mono hn
        split
        · exact ⟨.refl hk, hk.getValue_ok hr.2 key⟩
        · split
          · exact ⟨.refl hk, trivial⟩
          · rename_i m hm
            rw [← h.metafield_table hm]
            split
            · exact ⟨.refl hk, trivial⟩
            · exact hcall hr ‹_›
            · exact ih none (hnext hr) hkey' h (Nat.le_refl _) hk
      · -- a backing table has no metatable
        cases hb
        obtain ⟨-, -, t, ht, hnone, hholds⟩ := hk.table_view hview
        rw [ht]
        split
        · exact ⟨.refl hk, hholds.getValue (admits_ok W _) key⟩
        · rw [hnone]
          exact ⟨.refl hk, trivial⟩
    · have hok : object.Ok W n := by
        rcases hobject with hok | ⟨r, m, b, rfl, -⟩
        · exact hok
        · rename_i hne
          exact absurd rfl (hne b)
      have hok := hok.mono hn
      split
      · exact wrongType_obeys _ _ _ h hn hk
      · exact hcall hok ‹_›
      · exact ih none (hnext hok) hkey' h (Nat.le_refl _) hk

theorem index_obeys {object key : Value} (hobject : object.Ok W n) (hkey : key.Ok W n) :
    (index object key).Obeys W n fun k v => v.Ok W k :=
  indexFrom_obeys chainLimit (some 0) (.inl hobject) hkey

theorem rawSet_obeys {r : Nat} {key value : Value} (hr : W.tables r = none) (hkey : key.Ok W n)
    (hvalue : value.Ok W n) : (rawSet r key value).Obeys W n fun _ _ => True := by
  intro h hn hk
  unfold rawSet
  split
  · rename_i k hk'
    have hkept := hk.setKey hr (Value.ok_of_toKey? hk' (hkey.mono hn)) (hvalue.mono hn)
    exact ⟨⟨by simp [Heap.setKey], rfl, rfl, rfl, rfl, hkept⟩, trivial⟩
  · split
    · exact ⟨.refl hk, trivial⟩
    · exact ⟨.refl hk, trivial⟩

theorem setIndexFrom_obeys (fuel : Nat) (which : Option Nat) {object key value : Value}
    (hobject : object.Ok W n) (hkey : key.Ok W n) (hvalue : value.Ok W n) :
    (setIndexFrom fuel which object key value).Obeys W n fun _ _ => True := by
  induction fuel generalizing n which object with
  | zero => exact .fail trivial
  | succ fuel ih =>
    intro h hn hk
    replace hobject := hobject.mono hn
    replace hkey := hkey.mono hn
    replace hvalue := hvalue.mono hn
    -- what is found in a metatable is called, or the writing goes on there
    have hcall {f : Function} (hf : h.metafield object Event.newindex = .function f) :
        ((Action.call (.function f) [object, key, value] h).andThen
          fun _ h => .done h PUnit.unit).Obeys W (fun _ _ => True) h := by
      have hcallable : (Value.function f).Callable W h.tables.size := by
        rcases hk.metafield_cases hobject Event.newindex with hok | ⟨r, m, b, -, -, he | ⟨-, he⟩⟩
        · exact .inl (hf ▸ hok)
        · exact absurd he.1 (by decide)
        · exact .inr (hf.symm.trans he)
      have hargs : Oks W h.tables.size [object, key, value] := by simp [hobject, hkey, hvalue]
      exact (Action.Obeys.call hcallable hargs h (Nat.le_refl _) hk).andThen (Nat.le_refl _)
        fun _ _ _ hk _ => ⟨.refl hk, trivial⟩
    have hnext (hf : ∀ f, h.metafield object Event.newindex ≠ .function f) :
        (h.metafield object Event.newindex).Ok W h.tables.size := by
      rcases hk.metafield_cases hobject Event.newindex with hok | ⟨r, m, b, -, -, he | ⟨-, he⟩⟩
      · exact hok
      · exact absurd he.1 (by decide)
      · exact absurd he (hf _)
    unfold setIndexFrom
    split
    · rename_i r
      dsimp only
      split
      · -- a table without metatable is no view
        rename_i hnone
        rcases hk.table_cases hobject.2 with ⟨hr, -⟩ | ⟨m, b, -, hview⟩
        · exact rawSet_obeys hr hkey hvalue h (Nat.le_refl _) hk
        · rw [hview] at hnone
          cases hnone
      · rename_i m hm
        have hraw (hplain : (((h.table r).getValue key).isNil = false) ∨
            h.metafield (.table r) Event.newindex = .nil) :
            (rawSet r key value h).Obeys W (fun _ _ => True) h := by
          rcases hk.table_cases hobject.2 with ⟨hr, -⟩ | ⟨m', b, hviews, hview⟩
          · exact rawSet_obeys hr hkey hvalue h (Nat.le_refl _) hk
          · rw [h.metafield_table hm] at hplain
            rw [hview] at hm hplain
            cases hm
            rcases hplain with hplain | hplain
            · rw [Table.getValue] at hplain
              split at hplain
              · rw [Table.get_empty] at hplain
                cases hplain
              · cases hplain
            · rw [hk.newindex_view hviews] at hplain
              cases hplain
        split
        · rename_i hv
          exact hraw (.inl (by simpa using hv))
        · rw [← h.metafield_table hm]
          split
          · exact hraw (.inr ‹_›)
          · exact hcall ‹_›
          · exact ih none (hnext ‹_›) hkey hvalue h (Nat.le_refl _) hk
    · split
      · exact wrongType_obeys _ _ _ h (Nat.le_refl _) hk
      · exact hcall ‹_›
      · exact ih none (hnext ‹_›) hkey hvalue h (Nat.le_refl _) hk

theorem setIndex_obeys {object key value : Value} (hobject : object.Ok W n) (hkey : key.Ok W n)
    (hvalue : value.Ok W n) : (setIndex object key value).Obeys W n fun _ _ => True :=
  setIndexFrom_obeys chainLimit (some 0) hobject hkey hvalue

theorem binaryHandler_ok {h : Heap} (hk : h.Kept W) {a b : Value} (ha : a.Ok W h.tables.size)
    (hb : b.Ok W h.tables.size) (event : ByteArray)
    (he : event ≠ Event.index ∧ event ≠ Event.newindex) :
    (binaryHandler h event a b).Ok W h.tables.size := by
  unfold binaryHandler
  split
  · exact hk.metafield_ok hb event he
  · exact hk.metafield_ok ha event he

/-- A metamethod is called, and its result is made use of. -/
theorem handler_obeys {h : Heap} (hk : h.Kept W) {f : Value} {args : List Value}
    (hf : f.Ok W h.tables.size) (hargs : Oks W h.tables.size args) {Q : Nat → α → Prop}
    {k : Value → Heap → Run α}
    (hnext : ∀ h' v, h.tables.size ≤ h'.tables.size → h'.Kept W → v.Ok W h'.tables.size →
      (k v h').Obeys W Q h') :
    ((Action.call1 f args h).andThen k).Obeys W Q h :=
  (Action.Obeys.call1 hf.callable hargs h (Nat.le_refl _) hk).andThen (Nat.le_refl _) hnext

theorem arithmetic_ok {op : Arith} {a b v : Value} (hv : arithmetic op a b = .value v) :
    v.Ok W n := by
  have hinteger {i j : Int64} (hv : integerArith op i j = .value v) : v.Ok W n := by
    unfold integerArith at hv
    cases op <;> dsimp only at hv
    case mod | idiv =>
      split at hv <;> cases hv
      trivial
    all_goals cases hv; trivial
  have hfloat {x y : Float} (hv : floatArith op x y = .value v) : v.Ok W n := by
    unfold floatArith at hv
    cases op <;> cases hv <;> trivial
  unfold arithmetic at hv
  split at hv
  · exact hinteger hv
  · split at hv
    · split at hv
      · exact hinteger hv
      · cases hv
    · exact hfloat hv
  · split at hv
    · split at hv
      · exact hinteger hv
      · cases hv
    · exact hfloat hv
  · split at hv
    · split at hv
      · exact hinteger hv
      · cases hv
    · exact hfloat hv
  · cases hv

theorem arithFailure_obeys (op : Arith) (a b : Value) :
    (arithFailure op a b).Obeys W n fun k v => v.Ok W k := by
  unfold arithFailure
  split
  · split
    · exact .fail trivial
    · exact wrongType_obeys _ _ _
    · exact wrongType_obeys _ _ _
  · split
    · exact wrongType_obeys _ _ _
    · exact wrongType_obeys _ _ _

theorem arith_obeys (op : Arith) {a b : Value} (ha : a.Ok W n) (hb : b.Ok W n) :
    (arith op a b).Obeys W n fun k v => v.Ok W k := by
  unfold arith
  split
  · exact .pure fun _ _ => arithmetic_ok ‹_›
  · exact .fail trivial
  · exact .fail trivial
  · intro h hn hk
    replace ha := ha.mono hn
    replace hb := hb.mono hn
    have hf := binaryHandler_ok hk ha hb op.event op.event_ne
    dsimp only
    split
    · exact arithFailure_obeys op a b h hn hk
    · exact Action.Obeys.call1 hf.callable (by simp [ha, hb]) h (Nat.le_refl _) hk

theorem countString_leads {h : Heap} (hk : h.Kept W) (size : Nat) :
    h.Leads W (h.countString size) :=
  ⟨Nat.le_refl _, rfl, rfl, rfl, rfl, hk.congr rfl rfl rfl rfl⟩

theorem concatPairs_obeys (before : List Value) {last : Value} (hbefore : Oks W n before)
    (hlast : last.Ok W n) : (concatPairs before last).Obeys W n fun k v => v.Ok W k := by
  induction before generalizing n last with
  | nil =>
    rw [concatPairs]
    exact .pure fun _ hle => hlast.mono hle
  | cons a before ih =>
    obtain ⟨ha, hbefore⟩ := Oks.cons_iff.mp hbefore
    have hhandler (bad : Value) (which : Nat) :
        Action.Obeys W n (concatPairs.byHandler before a last bad which) fun k v => v.Ok W k := by
      intro h hn hk
      have hf := binaryHandler_ok hk (ha.mono hn) (hlast.mono hn) Event.concat (by decide)
      unfold concatPairs.byHandler
      split
      · exact wrongType_obeys _ _ _ h hn hk
      · refine handler_obeys hk hf (by simp [ha.mono hn, hlast.mono hn]) fun h' v hsize hk' hv => ?_
        exact ih (hbefore.mono (Nat.le_trans hn hsize)) hv h' (Nat.le_refl _) hk'
    intro h hn hk
    unfold concatPairs
    split
    · have hleads := countString_leads hk
      exact .of_leads (hleads _) (ih hbefore (Value.ok_str _) _ hn (hleads _).kept)
    · exact hhandler _ _ h hn hk
    · exact hhandler _ _ h hn hk

theorem concat_obeys {values : List Value} (hvalues : Oks W n values) :
    (concat values).Obeys W n fun k v => v.Ok W k := by
  unfold concat
  split
  · exact .bind (.reserve _ (Q := fun _ _ => True) fun _ _ => trivial) fun _ _ _ _ => .string _
  · have hreverse := hvalues.reverse
    split
    · exact .string _
    · rename_i last before hlist
      rw [hlist, Oks.cons_iff] at hreverse
      exact concatPairs_obeys before hreverse.2 hreverse.1

theorem length_obeys {v : Value} (hv : v.Ok W n) :
    (length v).Obeys W n fun k v => v.Ok W k := by
  intro h hn hk
  replace hv := hv.mono hn
  have hf := hk.metafield_ok hv Event.len (by decide)
  have hcall : (Action.call1 (h.metafield v Event.len) [v, v] h).Obeys W (fun k v => v.Ok W k) h :=
    Action.Obeys.call1 hf.callable (by simp [hv]) h (Nat.le_refl _) hk
  unfold length
  split
  · exact ⟨.refl hk, trivial⟩
  · split
    · exact ⟨.refl hk, trivial⟩
    · exact hcall
  · split
    · exact wrongType_obeys _ _ _ h (Nat.le_refl _) hk
    · exact hcall

theorem equal_obeys {a b : Value} (ha : a.Ok W n) (hb : b.Ok W n) :
    (equal a b).Obeys W n fun _ _ => True := by
  intro h hn hk
  unfold equal
  split
  · exact ⟨.refl hk, trivial⟩
  · split
    · have hf := binaryHandler_ok hk (ha.mono hn) (hb.mono hn) Event.eq (by decide)
      split
      · exact ⟨.refl hk, trivial⟩
      · exact handler_obeys hk hf (by simp [ha.mono hn, hb.mono hn])
          fun _ _ _ hk' _ => ⟨.refl hk', trivial⟩
    · exact ⟨.refl hk, trivial⟩

theorem noOrder_obeys (a b : Value) {Q : Nat → α → Prop} :
    (noOrder a b : Action α).Obeys W n Q :=
  fun _ _ hk => ⟨.refl hk, trivial⟩

theorem compareBy_obeys {event : ByteArray} (he : event ≠ Event.index ∧ event ≠ Event.newindex)
    {a b : Value} (ha : a.Ok W n) (hb : b.Ok W n) :
    (compareBy event a b).Obeys W n fun _ _ => True := by
  intro h hn hk
  have hf := binaryHandler_ok hk (ha.mono hn) (hb.mono hn) event he
  unfold compareBy
  split
  · exact noOrder_obeys a b h hn hk
  · exact handler_obeys hk hf (by simp [ha.mono hn, hb.mono hn])
      fun _ _ _ hk' _ => ⟨.refl hk', trivial⟩

theorem notGreater_obeys {a b : Value} (ha : a.Ok W n) (hb : b.Ok W n) :
    (notGreater a b).Obeys W n fun _ _ => True := by
  intro h hn hk
  have hle := binaryHandler_ok hk (ha.mono hn) (hb.mono hn) Event.le (by decide)
  have hlt := binaryHandler_ok hk (hb.mono hn) (ha.mono hn) Event.lt (by decide)
  unfold notGreater
  split
  · exact noOrder_obeys a b h hn hk
  · exact handler_obeys hk hlt (by simp [ha.mono hn, hb.mono hn])
      fun _ _ _ hk' _ => ⟨.refl hk', trivial⟩
  · exact handler_obeys hk hle (by simp [ha.mono hn, hb.mono hn])
      fun _ _ _ hk' _ => ⟨.refl hk', trivial⟩

theorem less_obeys {a b : Value} (ha : a.Ok W n) (hb : b.Ok W n) :
    (less a b).Obeys W n fun _ _ => True := by
  unfold less
  split
  · exact .pure fun _ _ => trivial
  · split
    · exact .pure fun _ _ => trivial
    · exact compareBy_obeys (by decide) ha hb

theorem lessOrEqual_obeys {a b : Value} (ha : a.Ok W n) (hb : b.Ok W n) :
    (lessOrEqual a b).Obeys W n fun _ _ => True := by
  unfold lessOrEqual
  split
  · exact .pure fun _ _ => trivial
  · split
    · exact .pure fun _ _ => trivial
    · exact notGreater_obeys ha hb

theorem compare_obeys (op : Comparison) {a b : Value} (ha : a.Ok W n) (hb : b.Ok W n) :
    (compare op a b).Obeys W n fun _ _ => True := by
  cases op with
  | eq => exact equal_obeys ha hb
  | lt => exact less_obeys ha hb
  | le => exact lessOrEqual_obeys ha hb

theorem shown_obeys {v : Value} (hv : v.Ok W n) :
    (shown v).Obeys W n fun _ _ => True := by
  intro h hn hk
  have hf := hk.metafield_ok (hv.mono hn) Event.tostring (by decide)
  unfold shown
  split
  · exact ⟨.refl hk, trivial⟩
  · refine handler_obeys hk hf (by simp [hv.mono hn]) fun _ _ _ hk' _ => ?_
    split
    · exact ⟨.refl hk', trivial⟩
    · exact ⟨.refl hk', trivial⟩

end Operation

end StoryPack.Script
