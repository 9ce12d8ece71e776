/-
The table library keeps what is fixed.

Lists are read and written by the operators, so their functions obey a ward as
the operators do.  Loops are handled by induction on what bounds them.

* `Library.runTable_obeys` — the functions of the table library.
-/
import StoryPack.Proofs.Confinement.Library.Base
import StoryPack.Script.Library.Tables

namespace StoryPack.Script.Library

variable {W : Ward} {n : Nat} {args : List Value} {t : Value}

theorem list_obeys (hargs : Oks W n args) (i : Nat) (u : Use) :
    (list args i u).Obeys W n fun k v => v.Ok W k := by
  intro h hn hk
  have hget := (Argument.get_ok hargs i).mono hn
  unfold list
  dsimp only
  split
  · exact ⟨.refl hk, hget⟩
  · split
    · exact ⟨.refl hk, hget⟩
    · exact Argument.wrongType_obeys _ _ _ h hn hk

theorem lengthOf_obeys {v : Value} (hv : v.Ok W n) :
    (lengthOf v).Obeys W n fun _ _ => True := by
  refine .bind (Operation.length_obeys hv) fun m v _ _ => ?_
  split
  · exact .pure fun _ _ => trivial
  · split
    · exact .pure fun _ _ => trivial
    · exact .raise _
  · split
    · exact .pure fun _ _ => trivial
    · exact .raise _
  · exact .raise _

theorem sizedList_obeys (hargs : Oks W n args) (i : Nat) (u : Use) :
    (sizedList args i u).Obeys W n fun k r => r.1.Ok W k :=
  .bind (list_obeys hargs i _) fun _ _ _ hv =>
    .bind (lengthOf_obeys hv) fun _ _ hk _ => .pure fun _ hj => hv.mono (Nat.le_trans hk hj)

theorem item_obeys (ht : t.Ok W n) (i : Int64) : (item t i).Obeys W n fun k v => v.Ok W k :=
  Operation.index_obeys ht trivial

theorem setItem_obeys (ht : t.Ok W n) (i : Int64) {v : Value} (hv : v.Ok W n) :
    (setItem t i v).Obeys W n fun _ _ => True :=
  Operation.setIndex_obeys ht trivial hv

theorem setItems_obeys (ht : t.Ok W n) (i j : Int64) {a b : Value} (ha : a.Ok W n)
    (hb : b.Ok W n) : (setItems t i j a b).Obeys W n fun _ _ => True :=
  .bind (setItem_obeys ht i ha) fun _ _ hk _ => setItem_obeys (ht.mono hk) j (hb.mono hk)

theorem shiftUp_obeys (ht : t.Ok W n) (stop : Int64) (fuel : Nat) (i : Int64) :
    (shiftUp t stop fuel i).Obeys W n fun _ _ => True := by
  induction fuel generalizing n i with
  | zero => exact .pure fun _ _ => trivial
  | succ fuel ih =>
    unfold shiftUp
    split
    · refine .bind (item_obeys ht _) fun m v hm hv => ?_
      refine .bind (setItem_obeys (ht.mono hm) _ hv) fun k _ hk _ => ?_
      exact ih ((ht.mono hm).mono hk) _
    · exact .pure fun _ _ => trivial

theorem shiftDown_obeys (ht : t.Ok W n) (stop : Int64) (fuel : Nat) (i : Int64) :
    (shiftDown t stop fuel i).Obeys W n fun _ _ => True := by
  induction fuel generalizing n i with
  | zero => exact .pure fun _ _ => trivial
  | succ fuel ih =>
    unfold shiftDown
    split
    · refine .bind (item_obeys ht _) fun m v hm hv => ?_
      refine .bind (setItem_obeys (ht.mono hm) _ hv) fun k _ hk _ => ?_
      exact ih ((ht.mono hm).mono hk) _
    · exact .pure fun _ _ => trivial

theorem insert_obeys (hargs : Oks W n args) : (insert args).Obeys W n (Oks W) := by
  refine .bind (sizedList_obeys hargs 1 _) fun m r hm hr => ?_
  obtain ⟨t, size⟩ := r
  replace hargs := hargs.mono hm
  dsimp only
  split
  · exact .bind (setItem_obeys hr _ (Argument.get_ok hargs 2)) fun _ _ _ _ =>
      .pure fun _ _ => .nil
  · refine .bind (Argument.integer_obeys args 2) fun k pos hk _ => ?_
    refine .bind (Argument.check_obeys _ _ _) fun k' _ hk' _ => ?_
    have hle := Nat.le_trans hk hk'
    refine .bind (shiftUp_obeys (hr.mono hle) _ _ _) fun j _ hj _ => ?_
    have hle := Nat.le_trans hle hj
    exact .bind (setItem_obeys (hr.mono hle) _ (Argument.get_ok (hargs.mono hle) 3))
      fun _ _ _ _ => .pure fun _ _ => .nil
  · exact .raise _

theorem remove_obeys (hargs : Oks W n args) : (remove args).Obeys W n (Oks W) := by
  refine .bind (sizedList_obeys hargs 1 _) fun m r hm hr => ?_
  obtain ⟨t, size⟩ := r
  dsimp only
  refine .bind (Argument.integerOr_obeys args 2 size) fun m' pos hm' _ => ?_
  replace hr := hr.mono hm'
  have hrest (k : Nat) (x : PUnit) (hk : m' ≤ k) (_ : True) :
      Action.Obeys W k
        (do
          let v ← item t pos
          shiftDown t size (size - pos).toUInt64.toNat pos
          setItem t (max pos size) .nil
          pure [v])
        (Oks W) := by
    replace hr := hr.mono hk
    refine .bind (item_obeys hr pos) fun j v hj hv => ?_
    refine .bind (shiftDown_obeys (hr.mono hj) _ _ _) fun j' _ hj' _ => ?_
    refine .bind (setItem_obeys (hr.mono (Nat.le_trans hj hj')) _ trivial) fun i _ hi _ => ?_
    exact .pure fun _ hle => by
      simpa using hv.mono (Nat.le_trans hj' (Nat.le_trans hi hle))
  split
  · exact .bind (Argument.check_obeys _ _ _) hrest
  · exact hrest m' ⟨⟩ (Nat.le_refl _) trivial

theorem joinFrom_obeys (ht : t.Ok W n) (sep : ByteArray) (j : Int64) (fuel : Nat) (i : Int64)
    (acc : ByteArray) : (joinFrom t sep j fuel i acc).Obeys W n fun _ _ => True := by
  induction fuel generalizing n i acc with
  | zero => exact .pure fun _ _ => trivial
  | succ fuel ih =>
    refine .bind (item_obeys ht i) fun m v hm _ => ?_
    split
    · split
      · exact .bind (.reserve _ (Q := fun _ _ => True) fun _ _ => trivial) fun k _ hk _ =>
          ih (ht.mono (Nat.le_trans hm hk)) _ _
      · exact .pure fun _ _ => trivial
    · exact .fail trivial

/-- A string by itself as the list of results. -/
theorem stringResult_obeys (b : ByteArray) :
    Action.Obeys W n (do pure [← Action.string b]) (Oks W) :=
  .bind (.string b) fun _ _ _ hv => .pure fun _ hle => by simpa using hv.mono hle

theorem concat_obeys (hargs : Oks W n args) : (concat args).Obeys W n (Oks W) := by
  refine .bind (sizedList_obeys hargs 1 _) fun m r hm hr => ?_
  obtain ⟨t, size⟩ := r
  refine .bind (Argument.stringOr_obeys args 2 _) fun k sep hk _ => ?_
  refine .bind (Argument.integerOr_obeys args 3 1) fun k' i hk' _ => ?_
  refine .bind (Argument.integerOr_obeys args 4 size) fun j' j hj' _ => ?_
  split
  · exact stringResult_obeys _
  · refine .bind (joinFrom_obeys ?_ sep j _ i _) fun _ b _ _ => stringResult_obeys b
    exact hr.mono (by omega)

theorem itemsFrom_obeys (ht : t.Ok W n) (count : Nat) (i : Int64) {acc : List Value}
    (hacc : Oks W n acc) : (itemsFrom t count i acc).Obeys W n (Oks W) := by
  induction count generalizing n i acc with
  | zero => exact .pure fun _ hle => (hacc.mono hle).reverse
  | succ count ih =>
    refine .bind (item_obeys ht i) fun m v hm hv => ?_
    exact ih (ht.mono hm) _ (by simpa using ⟨hv, hacc.mono hm⟩)

theorem unpack_obeys (hargs : Oks W n args) : (unpack args).Obeys W n (Oks W) := by
  have ht := Argument.get_ok hargs 1
  refine .bind (Argument.integerOr_obeys args 2 1) fun m i hm _ => ?_
  have hrest (k : Nat) (j : Int64) (hk : m ≤ k) (_ : True) :
      Action.Obeys W k
        (if j < i then pure []
        else
          let n := (j.toInt - i.toInt).toNat + 1
          if n ≥ 1000000 then Action.raise "too many results to unpack"
          else itemsFrom (Argument.get args 1) n i [])
        (Oks W) := by
    split
    · exact .pure fun _ _ => .nil
    · dsimp only
      split
      · exact .raise _
      · exact itemsFrom_obeys (ht.mono (Nat.le_trans hm hk)) _ i .nil
  split
  · exact .bind (lengthOf_obeys (ht.mono hm)) hrest
  · exact .bind (Argument.integer_obeys args 3) hrest

theorem copyUp_obeys {a b : Value} (ha : a.Ok W n) (hb : b.Ok W n) (count : Nat) (f t : Int64) :
    (copyUp a b count f t).Obeys W n fun _ _ => True := by
  induction count generalizing n f t with
  | zero => exact .pure fun _ _ => trivial
  | succ count ih =>
    refine .bind (item_obeys ha f) fun m v hm hv => ?_
    refine .bind (setItem_obeys (hb.mono hm) t hv) fun k _ hk _ => ?_
    exact ih (ha.mono (Nat.le_trans hm hk)) (hb.mono (Nat.le_trans hm hk)) _ _

theorem copyDown_obeys {a b : Value} (ha : a.Ok W n) (hb : b.Ok W n) (count : Nat)
    (f t : Int64) : (copyDown a b count f t).Obeys W n fun _ _ => True := by
  induction count generalizing n f t with
  | zero => exact .pure fun _ _ => trivial
  | succ count ih =>
    refine .bind (item_obeys ha f) fun m v hm hv => ?_
    refine .bind (setItem_obeys (hb.mono hm) t hv) fun k _ hk _ => ?_
    exact ih (ha.mono (Nat.le_trans hm hk)) (hb.mono (Nat.le_trans hm hk)) _ _

theorem move_obeys (hargs : Oks W n args) : (move args).Obeys W n (Oks W) := by
  refine .bind (Argument.integer_obeys args 2) fun k₁ f h₁ _ => ?_
  refine .bind (Argument.integer_obeys args 3) fun k₂ e h₂ _ => ?_
  refine .bind (Argument.integer_obeys args 4) fun k₃ t h₃ _ => ?_
  replace hargs := hargs.mono (Nat.le_trans h₁ (Nat.le_trans h₂ h₃))
  refine .bind (list_obeys hargs 1 _) fun k₄ a h₄ ha => ?_
  generalize (if (Argument.get args 5).isNil then 1 else 5) = target
  refine .bind (list_obeys (hargs.mono h₄) target _) fun k₅ b h₅ hb => ?_
  replace ha := ha.mono h₅
  have hlast (k : Nat) (x : PUnit) (hk : k₅ ≤ k) (_ : True) :
      Action.Obeys W k (pure [b]) (Oks W) :=
    .pure fun _ hle => by simpa using hb.mono (Nat.le_trans hk hle)
  split
  · refine .bind (Argument.check_obeys _ _ _) fun k₆ _ h₆ _ => ?_
    dsimp only
    generalize decide (t.toInt ≤ maxInt - _ + 1) = fits
    refine .bind (Argument.check_obeys _ _ _) fun k₇ _ h₇ _ => ?_
    have hrest (k : Nat) (same : Bool) (hk : k₇ ≤ k) (_ : True) :
        Action.Obeys W k
          (do
            if (e < t || t ≤ f) || !same then copyUp a b ((e.toInt - f.toInt).toNat + 1) f t
            else
              copyDown a b ((e.toInt - f.toInt).toNat + 1)
                (f + Int64.ofNat ((e.toInt - f.toInt).toNat + 1 - 1))
                (t + Int64.ofNat ((e.toInt - f.toInt).toNat + 1 - 1))
            pure [b])
          (Oks W) := by
      have hle : k₅ ≤ k := Nat.le_trans h₆ (Nat.le_trans h₇ hk)
      split
      · exact .bind (copyUp_obeys (ha.mono hle) (hb.mono hle) _ _ _) fun j x hj _ =>
          hlast j x (Nat.le_trans hle hj) trivial
      · exact .bind (copyDown_obeys (ha.mono hle) (hb.mono hle) _ _ _) fun j x hj _ =>
          hlast j x (Nat.le_trans hle hj) trivial
    split
    · exact .bind (Q := fun _ _ => True) (.pure fun _ _ => trivial) hrest
    · have hle := Nat.le_trans h₆ h₇
      exact .bind (Operation.equal_obeys (ha.mono hle) (hb.mono hle)) hrest
  · exact hlast _ ⟨⟩ (Nat.le_refl _) trivial

/-! ### Sorting -/

section

variable {less pivot : Value}

theorem before_obeys (hless : less.Ok W n) {a b : Value} (ha : a.Ok W n) (hb : b.Ok W n) :
    (before less a b).Obeys W n fun _ _ => True := by
  unfold before
  split
  · exact Operation.less_obeys ha hb
  · exact .bind (.call1 hless.callable (by simp [ha, hb])) fun _ _ _ _ => .pure fun _ _ => trivial

theorem noOrder_obeys {α : Type} {Q : Nat → α → Prop} :
    (noOrder : Action α).Obeys W n Q := .raise _

theorem scanUp_obeys (ht : t.Ok W n) (hless : less.Ok W n) (hpivot : pivot.Ok W n) (up : Int64)
    (fuel : Nat) (i : Int64) :
    (scanUp t less pivot up fuel i).Obeys W n fun k r => r.2.Ok W k := by
  induction fuel generalizing n i with
  | zero => exact noOrder_obeys
  | succ fuel ih =>
    refine .bind (item_obeys ht _) fun m v hm hv => ?_
    refine .bind (before_obeys (hless.mono hm) hv (hpivot.mono hm)) fun k less' hk _ => ?_
    have hle := Nat.le_trans hm hk
    split
    · split
      · exact noOrder_obeys
      · exact ih (ht.mono hle) (hless.mono hle) (hpivot.mono hle) _
    · exact .pure fun _ hj => hv.mono (Nat.le_trans hk hj)

theorem scanDown_obeys (ht : t.Ok W n) (hless : less.Ok W n) (hpivot : pivot.Ok W n) (i : Int64)
    (fuel : Nat) (j : Int64) :
    (scanDown t less pivot i fuel j).Obeys W n fun k r => r.2.Ok W k := by
  induction fuel generalizing n j with
  | zero => exact noOrder_obeys
  | succ fuel ih =>
    refine .bind (item_obeys ht _) fun m v hm hv => ?_
    refine .bind (before_obeys (hless.mono hm) (hpivot.mono hm) hv) fun k less' hk _ => ?_
    have hle := Nat.le_trans hm hk
    split
    · split
      · exact noOrder_obeys
      · exact ih (ht.mono hle) (hless.mono hle) (hpivot.mono hle) _
    · exact .pure fun _ hj => hv.mono (Nat.le_trans hk hj)

theorem partition_obeys (ht : t.Ok W n) (hless : less.Ok W n) (hpivot : pivot.Ok W n)
    (lo up : Int64) (fuel : Nat) (i j : Int64) :
    (partition t less pivot lo up fuel i j).Obeys W n fun _ _ => True := by
  induction fuel generalizing n i j with
  | zero => exact noOrder_obeys
  | succ fuel ih =>
    refine .bind (scanUp_obeys ht hless hpivot up _ i) fun m r hm ha => ?_
    obtain ⟨i, a⟩ := r
    refine .bind (scanDown_obeys (ht.mono hm) (hless.mono hm) (hpivot.mono hm) i _ j)
      fun k r hk hb => ?_
    obtain ⟨j, b⟩ := r
    have hle := Nat.le_trans hm hk
    replace ha : a.Ok W k := ha.mono hk
    dsimp only
    split
    · exact .bind (setItems_obeys (ht.mono hle) _ _ ha (hpivot.mono hle)) fun _ _ _ _ =>
        .pure fun _ _ => trivial
    · refine .bind (setItems_obeys (ht.mono hle) _ _ hb ha) fun l _ hl _ => ?_
      exact ih (ht.mono (Nat.le_trans hle hl)) (hless.mono (Nat.le_trans hle hl))
        (hpivot.mono (Nat.le_trans hle hl)) _ _

theorem orderEnds_obeys (ht : t.Ok W n) (hless : less.Ok W n) (lo up : Int64) :
    (orderEnds t less lo up).Obeys W n fun _ _ => True := by
  refine .bind (item_obeys ht _) fun k₁ a h₁ ha => ?_
  refine .bind (item_obeys (ht.mono h₁) _) fun k₂ b h₂ hb => ?_
  replace ha := ha.mono h₂
  replace h₂ := Nat.le_trans h₁ h₂
  refine .bind (before_obeys (hless.mono h₂) hb ha) fun k₃ _ h₃ _ => ?_
  split
  · exact setItems_obeys (ht.mono (Nat.le_trans h₂ h₃)) _ _ (hb.mono h₃) (ha.mono h₃)
  · exact .pure fun _ _ => trivial

theorem orderMiddle_obeys (ht : t.Ok W n) (hless : less.Ok W n) (lo up p : Int64) :
    (orderMiddle t less lo up p).Obeys W n fun _ _ => True := by
  refine .bind (item_obeys ht _) fun k₁ v h₁ hv => ?_
  refine .bind (item_obeys (ht.mono h₁) _) fun k₂ a h₂ ha => ?_
  replace hv := hv.mono h₂
  replace h₂ := Nat.le_trans h₁ h₂
  refine .bind (before_obeys (hless.mono h₂) hv ha) fun k₃ _ h₃ _ => ?_
  replace hv := hv.mono h₃
  replace ha := ha.mono h₃
  replace h₃ := Nat.le_trans h₂ h₃
  split
  · exact setItems_obeys (ht.mono h₃) _ _ ha hv
  · refine .bind (item_obeys (ht.mono h₃) _) fun k₄ b h₄ hb => ?_
    replace hv := hv.mono h₄
    replace h₄ := Nat.le_trans h₃ h₄
    refine .bind (before_obeys (hless.mono h₄) hb hv) fun k₅ _ h₅ _ => ?_
    split
    · exact setItems_obeys (ht.mono (Nat.le_trans h₄ h₅)) _ _ (hb.mono h₅) (hv.mono h₅)
    · exact .pure fun _ _ => trivial

theorem sortAround_obeys (ht : t.Ok W n) (hless : less.Ok W n) (lo up p : Int64)
    {sort : Int64 → Int64 → Action PUnit}
    (hsort : ∀ k lo up, n ≤ k → (sort lo up).Obeys W k fun _ _ => True) :
    (sortAround t less lo up p sort).Obeys W n fun _ _ => True := by
  refine .bind (item_obeys ht p) fun k₁ pivot h₁ hpivot => ?_
  refine .bind (item_obeys (ht.mono h₁) _) fun k₂ last h₂ hlast => ?_
  replace hpivot := hpivot.mono h₂
  replace h₂ := Nat.le_trans h₁ h₂
  refine .bind (setItems_obeys (ht.mono h₂) _ _ hlast hpivot) fun k₃ _ h₃ _ => ?_
  replace hpivot := hpivot.mono h₃
  replace h₃ := Nat.le_trans h₂ h₃
  refine .bind (partition_obeys (ht.mono h₃) (hless.mono h₃) hpivot _ _ _ _ _)
    fun k₄ p h₄ _ => ?_
  replace h₄ := Nat.le_trans h₃ h₄
  split
  · exact .bind (hsort _ _ _ h₄) fun _ _ hj _ => hsort _ _ _ (Nat.le_trans h₄ hj)
  · exact .bind (hsort _ _ _ h₄) fun _ _ hj _ => hsort _ _ _ (Nat.le_trans h₄ hj)

end

theorem sortRange_obeys {less : Value} (ht : t.Ok W n) (hless : less.Ok W n) (fuel : Nat)
    (lo up : Int64) : (sortRange t less fuel lo up).Obeys W n fun _ _ => True := by
  induction fuel generalizing n lo up with
  | zero => exact .pure fun _ _ => trivial
  | succ fuel ih =>
    unfold sortRange
    split
    · exact .pure fun _ _ => trivial
    · refine .bind (orderEnds_obeys ht hless lo up) fun k₁ _ h₁ _ => ?_
      split
      · exact .pure fun _ _ => trivial
      · refine .bind (orderMiddle_obeys (ht.mono h₁) (hless.mono h₁) lo up _) fun k₂ _ h₂ _ => ?_
        replace h₂ := Nat.le_trans h₁ h₂
        split
        · exact .pure fun _ _ => trivial
        · exact sortAround_obeys (ht.mono h₂) (hless.mono h₂) lo up _ fun k lo up hk =>
            ih (ht.mono (Nat.le_trans h₂ hk)) (hless.mono (Nat.le_trans h₂ hk)) lo up

theorem sort_obeys (hargs : Oks W n args) : (sort args).Obeys W n (Oks W) := by
  refine .bind (sizedList_obeys hargs 1 _) fun m r hm hr => ?_
  obtain ⟨t, size⟩ := r
  replace hargs := hargs.mono hm
  dsimp only at hr ⊢
  split
  · refine .bind (Argument.check_obeys _ _ _) fun k _ hk _ => ?_
    have hrest (j : Nat) (less : Value) (hj : k ≤ j) (hless : less.Ok W j) :
        Action.Obeys W j
          (do
            sortRange t less size.toNatClampNeg 1 size
            pure [])
          (Oks W) :=
      .bind (sortRange_obeys (hr.mono (Nat.le_trans hk hj)) hless _ _ _) fun _ _ _ _ =>
        .pure fun _ _ => .nil
    split
    · exact .bind (Q := fun k v => v.Ok W k) (.pure fun _ _ => trivial) hrest
    · exact .bind (Argument.function_obeys (hargs.mono hk) 2) hrest
  · exact .pure fun _ _ => .nil

theorem packed_obeys (hargs : Oks W n args) : (packed args).Obeys W n (Oks W) := by
  have hfree : Table.Free W n (((Table.sized args.length 1).setFrom 0 args).set (.str "n".toUTF8)
      (.int (Int64.ofNat args.length))) :=
    ((Table.free_sized W n _ 1).setFrom 0 hargs).set trivial trivial
  exact .bind (.newTable hfree) fun _ _ _ hr => .pure fun _ hle => by simpa using hr.mono hle

/-- The functions of the table library. -/
theorem runTable_obeys (f : TableFunction) (hargs : Oks W n args) :
    (runTable f args).Obeys W n (Oks W) := by
  cases f with
  | concat => exact concat_obeys hargs
  | insert => exact insert_obeys hargs
  | move => exact move_obeys hargs
  | pack => exact packed_obeys hargs
  | remove => exact remove_obeys hargs
  | sort => exact sort_obeys hargs
  | unpack => exact unpack_obeys hargs

end StoryPack.Script.Library
