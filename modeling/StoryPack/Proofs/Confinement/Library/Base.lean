/-
The base library keeps what is fixed.

The functions of the base library that scripts can get hold of obey a ward.  A
table that is given as an argument is written to in one place only:
`setmetatable` gives it another metatable, unless the present one is protected,
as those of all views are.

* `Argument.table_obeys`, `Argument.integer_obeys`, … — taking arguments;
* `Library.runBase_obeys` — the base functions.
-/
import StoryPack.Proofs.Confinement.Operation
import StoryPack.Script.Library.Base

namespace StoryPack.Script

variable {W : Ward} {n : Nat} {args : List Value}

namespace Argument

theorem get_ok (hargs : Oks W n args) (i : Nat) : (get args i).Ok W n := hargs.getD _

section

variable {α : Type} (args) (i : Nat) {Q : Nat → α → Prop}

theorem wrongType_obeys (expected : String) :
    (wrongType args i expected : Action α).Obeys W n Q :=
  fun _ _ hk => ⟨.refl hk, trivial⟩

theorem integer_obeys : (integer args i).Obeys W n fun _ _ => True := by
  unfold integer
  split
  · exact .pure fun _ _ => trivial
  · split
    · exact .pure fun _ _ => trivial
    · exact .badArgument _ _
  · exact wrongType_obeys _ _ _

theorem integerOr_obeys (default : Int64) :
    (integerOr args i default).Obeys W n fun _ _ => True := by
  unfold integerOr
  split
  · exact .pure fun _ _ => trivial
  · exact integer_obeys args i

theorem number_obeys : (number args i).Obeys W n fun _ _ => True := by
  unfold number
  split
  · exact .pure fun _ _ => trivial
  · exact wrongType_obeys _ _ _

theorem numberOr_obeys (default : Float) :
    (numberOr args i default).Obeys W n fun _ _ => True := by
  unfold numberOr
  split
  · exact .pure fun _ _ => trivial
  · exact number_obeys args i

theorem string_obeys : (string args i).Obeys W n fun _ _ => True := by
  unfold string
  split
  · exact .pure fun _ _ => trivial
  · exact wrongType_obeys _ _ _

theorem stringOr_obeys (default : ByteArray) :
    (stringOr args i default).Obeys W n fun _ _ => True := by
  unfold stringOr
  split
  · exact .pure fun _ _ => trivial
  · exact string_obeys args i

theorem check_obeys (condition : Bool) (message : String) :
    (check condition i message).Obeys W n fun _ _ => True := by
  unfold check
  split
  · exact .pure fun _ _ => trivial
  · exact .badArgument _ _

end

theorem present_obeys (hargs : Oks W n args) (i : Nat) :
    (present args i).Obeys W n fun k v => v.Ok W k := by
  unfold present
  split
  · exact .pure fun _ hle => (get_ok hargs i).mono hle
  · exact .badArgument _ _

theorem table_obeys (hargs : Oks W n args) (i : Nat) :
    (table args i).Obeys W n fun k r => (Value.table r).Ok W k ∧ get args i = .table r := by
  have hget := get_ok hargs i
  unfold table
  split
  · rename_i r hr
    exact .pure fun _ hle => ⟨(hr ▸ hget).mono hle, hr⟩
  · exact wrongType_obeys _ _ _

theorem function_obeys (hargs : Oks W n args) (i : Nat) :
    (function args i).Obeys W n fun k v => v.Ok W k := by
  have hget := get_ok hargs i
  unfold function
  split
  · rename_i f hf
    exact .pure fun _ hle => (hf ▸ hget).mono hle
  · exact wrongType_obeys _ _ _

end Argument

namespace Library

theorem throwValue_obeys {v : Value} (hv : v.Ok W n) (level : Int64) :
    (throwValue v level).Obeys W n (Oks W) := by
  unfold throwValue
  split
  · split
    · exact .fail trivial
    · exact .fail trivial
  · exact .fail hv

theorem number?_ok {b : ByteArray} {v : Value} (hv : Numeral.number? b = some v) : v.Ok W n := by
  unfold Numeral.number? at hv
  split at hv
  · cases hv
    trivial
  · obtain ⟨x, -, rfl⟩ := Option.map_eq_some_iff.mp hv
    trivial

theorem tonumber_obeys (hargs : Oks W n args) : (tonumber args).Obeys W n (Oks W) := by
  unfold tonumber
  dsimp only
  split
  · split
    · rename_i heq
      exact .pure fun _ _ => by simp [heq]
    · rename_i heq
      exact .pure fun _ _ => by simp [heq]
    · rename_i s _
      refine .pure fun _ _ => ?_
      cases hnumber : Numeral.number? s with
      | none => simp
      | some v => simpa using number?_ok hnumber
    · exact .bind (Argument.present_obeys hargs 1) fun _ _ _ _ => .pure fun _ _ => by simp
  · refine .bind (Argument.integer_obeys args 2) fun m base hm _ => ?_
    split
    · refine .bind (Argument.check_obeys _ _ _) fun _ _ _ _ => .pure fun _ _ => ?_
      cases integerInBase? _ _ <;> simp
    · exact Argument.wrongType_obeys _ _ _

theorem select_obeys (hargs : Oks W n args) : (select args).Obeys W n (Oks W) := by
  have hnumber : (select.byNumber args (args.drop 1)).Obeys W n (Oks W) := by
    unfold select.byNumber
    refine .bind (Argument.integer_obeys args 1) fun m i hm _ => ?_
    refine .bind (Argument.check_obeys _ _ _) fun m' _ hm' _ => .pure fun k hk => ?_
    exact ((hargs.drop 1).drop _).mono (by omega)
  unfold select
  dsimp only
  split
  · split
    · exact .pure fun _ _ => by simp
    · exact hnumber
  · exact hnumber

theorem nextEntry_obeys {r : Nat} (hr : ∀ h : Heap, n ≤ h.tables.size → h.Kept W →
    (h.table r).Holds (Value.Ok W h.tables.size)) (key : Value) :
    (nextEntry r key).Obeys W n (Oks W) := by
  intro h hn hk
  have hafter (k : Option Key) : ((h.table r).after k).Holds (Value.Ok W h.tables.size) :=
    (hr h hn hk).after (admits_ok W _) k
  unfold nextEntry
  dsimp only
  split
  · rename_i k v hentry
    have hkv : k.toValue.Ok W h.tables.size ∧ v.Ok W h.tables.size := by
      split at hentry
      · have := hafter none
        rw [hentry] at this
        exact this
      · split at hentry
        · rename_i k' _
          have := hafter (some k')
          rw [hentry] at this
          exact this
        · cases hentry
    exact ⟨.refl hk, by simpa using hkv⟩
  · exact ⟨.refl hk, by simp⟩
  · exact ⟨.refl hk, trivial⟩

/-- A table without a protected metatable is not fixed. -/
theorem free_of_protection {h : Heap} (hk : h.Kept W) {r : Nat} (hr : W.Exposed r)
    (hnil : h.metafield (.table r) Event.metatable = .nil) : W.tables r = none := by
  rcases hk.table_cases hr with ⟨hfree, -⟩ | ⟨m, b, hview, htable⟩
  · exact hfree
  · have hm : (h.table r).metatable = some m := by rw [htable]
    rw [h.metafield_table hm, Heap.getKey_eq, (hk.table_view hview).2.1,
      Heap.viewMetatable_metatable] at hnil
    cases hnil

theorem setmetatable_obeys (hargs : Oks W n args) : (setmetatable args).Obeys W n (Oks W) := by
  unfold setmetatable
  refine .bind (Argument.table_obeys hargs 1) fun m r hm hr => ?_
  have hrest (k : Nat) (meta? : Option Nat) (hk : m ≤ k)
      (hmeta : ∀ t, meta? = some t → (Value.table t).Ok W k) :
      Action.Obeys W k
        (do
          let protection ← Action.read fun h => h.metafield (.table r) Event.metatable
          if !protection.isNil then Action.raise "cannot change a protected metatable"
          else
            Action.modify fun h => h.setMetatable r meta?
            pure [.table r])
        (Oks W) := by
    have hprotection : (Action.read fun h => h.metafield (.table r) Event.metatable).Obeys W k
        fun _ v => v = .nil → W.tables r = none :=
      .read fun h _ hk hnil => free_of_protection hk hr.1.2 hnil
    refine .bind hprotection fun m' protection hm' hfree => ?_
    split
    · exact .raise _
    · rename_i hnil
      have hfree : W.tables r = none := by
        cases protection <;> simp_all [Value.isNil]
      refine .bind
        (.modify (Q := fun _ _ => True) fun h hn hk' => ⟨⟨?_, rfl, rfl, rfl, rfl, ?_⟩, trivial⟩)
        fun j _ hj _ => .pure fun i hi => ?_
      · simp [Heap.setMetatable]
      · exact hk'.setMetatable hfree fun t ht => (hmeta t ht).mono (Nat.le_trans hm' hn)
      · simpa using hr.1.mono (Nat.le_trans hk (Nat.le_trans hm' (Nat.le_trans hj hi)))
  have hget := (Argument.get_ok hargs 2).mono hm
  dsimp only
  split
  · rename_i t ht
    refine .bind (Q := fun k meta? => ∀ t, meta? = some t → (Value.table t).Ok W k)
      (.pure fun k hk t' ht' => ?_) hrest
    cases ht'
    exact (ht ▸ hget).mono hk
  · split
    · exact .bind (Q := fun k meta? => ∀ t, meta? = some t → (Value.table t).Ok W k)
        (.pure fun _ _ _ ht => by cases ht) hrest
    · exact .bind (Argument.wrongType_obeys _ _ _) hrest
  · exact .bind (Argument.wrongType_obeys _ _ _) hrest

theorem getmetatable_obeys {v : Value} (hv : v.Ok W n) : (getmetatable v).Obeys W n (Oks W) := by
  refine .read fun h hn hk => ?_
  split
  · simp
  · simp
  · rename_i m _ hm
    have hshown := hk.shown_ok (hv.mono hn) hm
    split
    · rename_i hnil
      simpa using hshown.2 hnil
    · simpa using hshown.1

/-- The base functions that scripts can get hold of. -/
theorem runBase_obeys {f : BaseFunction} (hf : (Builtin.base f).isOpen = true)
    (hargs : Oks W n args) : (runBase f args).Obeys W n (Oks W) := by
  cases f with
  | assert =>
    unfold runBase
    dsimp only
    split
    · exact .pure fun _ hle => hargs.mono hle
    · refine .bind (Argument.present_obeys hargs 1) fun m _ hm _ => ?_
      refine throwValue_obeys ?_ 1
      cases hget : args[1]? with
      | none => simp [List.getD_eq_getElem?_getD, hget, Value.ofString]
      | some v =>
        rw [List.getD_eq_getElem?_getD, hget]
        exact (hargs v (List.mem_of_getElem? hget)).mono hm
  | collectgarbage | dofile | load | loadfile | pcall | print | rawget | rawlen | rawset | warn |
    xpcall => cases hf
  | error =>
    exact .bind (Argument.integerOr_obeys args 2 1) fun m level hm _ =>
      throwValue_obeys ((Argument.get_ok hargs 1).mono hm) level
  | getmetatable =>
    exact .bind (Argument.present_obeys hargs 1) fun m v _ hv => getmetatable_obeys hv
  | ipairs =>
    refine .bind (Argument.present_obeys hargs 1) fun m v _ hv => .pure fun k hk => ?_
    simpa [Value.builtin, Builtin.isOpen] using hv.mono hk
  | ipairsStep =>
    refine .bind (Argument.integer_obeys args 2) fun m i hm _ => ?_
    refine .bind (Operation.index_obeys ((Argument.get_ok hargs 1).mono hm) trivial)
      fun k v _ hv => .pure fun j hj => ?_
    split
    · simp
    · simpa using hv.mono hj
  | next =>
    refine .bind (Argument.table_obeys hargs 1) fun m r _ hr => nextEntry_obeys ?_ _
    intro h hn hk
    rcases hk.table_cases hr.1.2 with ⟨-, hfree⟩ | ⟨t, b, -, hview⟩
    · exact hfree.holds
    · rw [hview]
      exact Table.holds_empty 0 (some t)
  | pairs =>
    refine .bind (Argument.present_obeys hargs 1) fun m v hm hv => ?_
    have hpairs : (Action.read fun h => h.metafield v Event.pairs).Obeys W m
        fun k f => f.Ok W k :=
      .read fun h hn hk => hk.metafield_ok (hv.mono hn) Event.pairs (by decide)
    refine .bind hpairs fun m' f hm' hf => ?_
    replace hv := hv.mono hm'
    split
    · refine .pure fun k hk => ?_
      simpa [Value.builtin, Builtin.isOpen] using hv.mono hk
    · refine .bind (.call hf.callable (by simpa using hv)) fun k vs _ hvs => .pure fun j hj => ?_
      have hvs := hvs.mono hj
      simp only [Oks.cons_iff]
      exact ⟨hvs.getD 0, hvs.getD 1, hvs.getD 2, .nil⟩
  | rawequal =>
    exact .bind (Argument.present_obeys hargs 1) fun m a hm _ =>
      .bind (Argument.present_obeys (hargs.mono hm) 2) fun _ b _ _ => .pure fun _ _ => by simp
  | select => exact select_obeys hargs
  | setmetatable => exact setmetatable_obeys hargs
  | tonumber => exact tonumber_obeys hargs
  | tostring =>
    refine .bind (Argument.present_obeys hargs 1) fun m v _ hv => ?_
    refine .bind (Operation.shown_obeys hv) fun k b _ _ => ?_
    exact .bind (.string b) fun _ v _ hv => .pure fun _ hle => by simpa using hv.mono hle
  | type =>
    exact .bind (Argument.present_obeys hargs 1) fun _ v _ _ =>
      .pure fun _ _ => by simp [Value.ofString]

end Library

end StoryPack.Script
