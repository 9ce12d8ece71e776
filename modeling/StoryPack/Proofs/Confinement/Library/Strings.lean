/-
The string library keeps what is fixed.

Formats and patterns are read without looking at the heap, and give strings and
numbers.  Scripts are called in three places: to show a value of a format, to
replace a match, and for arithmetic on what does not spell a number.

* `Format.apply_obeys`, `Packing.pack_obeys`, `Packing.unpack_obeys` — formats;
* `Library.runString_obeys` — the functions of the string library;
* `Library.nextMatch_obeys`, `Library.stringArith_obeys` — the step of a search,
  and the metamethods of strings.
-/
import StoryPack.Proofs.Confinement.Library.Tables
import StoryPack.Script.Library.Strings

namespace StoryPack.Script

variable {W : Ward} {n : Nat} {args : List Value}

namespace Format

theorem literal_obeys (v : Value) (i : Nat) : (literal v i).Obeys W n fun _ _ => True := by
  unfold literal
  split
  case h_6 => exact .badArgument _ _
  all_goals exact .pure fun _ _ => trivial

/-- What a specification spells when nothing but these flags are allowed. -/
def demanded (spec : ByteArray) (allowed : List UInt8) (precise : Bool) : Action Directive :=
  match parse? spec allowed precise with
  | some d => pure d
  | none => badDirective spec

theorem demanded_obeys (spec : ByteArray) (allowed : List UInt8) (precise : Bool) :
    (demanded spec allowed precise).Obeys W n fun _ _ => True := by
  unfold demanded
  split
  · exact .pure fun _ _ => trivial
  · exact .fail trivial

theorem directive_obeys (hargs : Oks W n args) (i : Nat) (spec : ByteArray) (letter : UInt8) :
    (directive args i spec letter).Obeys W n fun _ _ => True := by
  have htake {k : Nat} (allowed : List UInt8) (precise : Bool) :
      (demanded spec allowed precise).Obeys W k fun _ _ => True := demanded_obeys spec _ _
  unfold directive
  dsimp only
  split
  · exact .bind (Argument.integer_obeys args i) fun _ _ _ _ => .bind (htake _ _) fun _ _ _ _ =>
      .pure fun _ _ => trivial
  · split
    · exact .bind (Argument.integer_obeys args i) fun _ _ _ _ => .bind (htake _ _) fun _ _ _ _ =>
        .pure fun _ _ => trivial
    · split
      · exact .bind (Argument.number_obeys args i) fun _ _ _ _ => .bind (htake _ _) fun _ _ _ _ =>
          .pure fun _ _ => trivial
      · split
        · refine .bind (htake _ _) fun _ _ _ _ => ?_
          refine .bind (.read (Q := fun _ _ => True) fun _ _ _ => trivial) fun _ _ _ _ => ?_
          exact .pure fun _ _ => trivial
        · split
          · split
            · exact .raise _
            · exact literal_obeys _ _
          · split
            · refine .bind (Operation.shown_obeys (Argument.get_ok hargs i)) fun _ _ _ _ => ?_
              split
              · exact .pure fun _ _ => trivial
              · refine .bind (Argument.check_obeys _ _ _) fun _ _ _ _ => ?_
                refine .bind (htake _ _) fun _ _ _ _ => ?_
                split
                · exact .pure fun _ _ => trivial
                · exact .pure fun _ _ => trivial
            · exact .fail trivial

theorem go_obeys (hargs : Oks W n args) (f : ByteArray) (fuel i k : Nat) (acc : ByteArray) :
    (go args f fuel i k acc).Obeys W n fun _ _ => True := by
  induction fuel generalizing n i k acc with
  | zero => exact .pure fun _ _ => trivial
  | succ fuel ih =>
    unfold go
    split
    · exact .pure fun _ _ => trivial
    · split
      · exact ih hargs _ _ _
      · split
        · exact ih hargs _ _ _
        · dsimp only
          split
          · exact .badArgument _ _
          · split
            · exact .raise _
            · exact .bind (directive_obeys hargs _ _ _) fun _ _ hm _ => ih (hargs.mono hm) _ _ _

theorem apply_obeys (hargs : Oks W n args) : (apply args).Obeys W n (Oks W) :=
  .bind (Argument.string_obeys args 1) fun _ _ hm _ =>
    .bind (go_obeys (hargs.mono hm) _ _ _ _ _) fun _ _ _ _ => Library.stringResult_obeys _

end Format

namespace Packing

theorem integerSize_obeys (f : ByteArray) (i default : Nat) :
    (integerSize f i default).Obeys W n fun _ _ => True := by
  unfold integerSize
  dsimp only
  split
  · exact .pure fun _ _ => trivial
  · exact .raise _

theorem option_obeys (f : ByteArray) (i : Nat) (l : Layout) :
    (option f i l).Obeys W n fun _ _ => True := by
  have hsized (i default : Nat) (k : Nat × Nat → Field × Nat × Nat × Layout) :
      Action.Obeys W n (do pure (k (← integerSize f i default))) fun _ _ => True :=
    .bind (integerSize_obeys f i default) fun _ _ _ _ => .pure fun _ _ => trivial
  unfold option
  dsimp only
  split
  all_goals first
    | exact .pure fun _ _ => trivial
    | exact hsized _ _ _
    | exact .fail trivial
    | split
      · exact .pure fun _ _ => trivial
      · exact .raise _

/-- The detail of an option whose alignment is known. -/
def aligned (k : Field) (size total : Nat) : Nat × Nat × Layout → Action Detail
  | (align, next, l) =>
    if align ≤ 1 || k == .chars then pure ⟨k, size, 0, next, l⟩
    else
      let align := min align l.maxAlign
      if align &&& (align - 1) != 0 then
        Action.badArgument 1 "format asks for alignment not power of 2"
      else pure ⟨k, size, (align - total % align) % align, next, l⟩

theorem detail_obeys (f : ByteArray) (i total : Nat) (l : Layout) :
    (detail f i total l).Obeys W n fun _ _ => True := by
  refine .bind (option_obeys f i l) fun m r hm _ => ?_
  obtain ⟨k, size, next, l⟩ := r
  have hrest (j : Nat) (r : Nat × Nat × Layout) (hj : m ≤ j) (_ : True) :
      (aligned k size total r).Obeys W j fun _ _ => True := by
    obtain ⟨align, next, l⟩ := r
    unfold aligned
    dsimp only
    split
    · exact .pure fun _ _ => trivial
    · split
      · exact .badArgument _ _
      · exact .pure fun _ _ => trivial
  dsimp only
  split
  · split
    · exact .bind (.badArgument _ _) hrest
    · refine .bind (option_obeys f next l) fun k r hk _ => ?_
      obtain ⟨k', size', j, l'⟩ := r
      dsimp only
      split
      · exact .bind (.badArgument _ _) fun j r hj hr => hrest j r (Nat.le_trans hk hj) hr
      · exact .bind (Q := fun _ _ => True) (.pure fun _ _ => trivial)
          fun j r hj hr => hrest j r (Nat.le_trans hk hj) hr
  · exact .bind (Q := fun _ _ => True) (.pure fun _ _ => trivial) hrest

theorem packField_obeys (args : List Value) (i : Nat) (d : Detail) :
    (packField args i d).Obeys W n fun _ _ => True := by
  have hdone {k : Nat} (b : ByteArray) :
      (pure b : Action ByteArray).Obeys W k fun _ _ => True := .pure fun _ _ => trivial
  unfold packField
  dsimp only
  split
  · refine .bind (Argument.integer_obeys args i) fun _ _ _ _ => ?_
    split
    · exact .bind (Argument.check_obeys _ _ _) fun _ _ _ _ => hdone _
    · exact hdone _
  · refine .bind (Argument.integer_obeys args i) fun _ _ _ _ => ?_
    split
    · exact .bind (Argument.check_obeys _ _ _) fun _ _ _ _ => hdone _
    · exact hdone _
  · exact .bind (Argument.number_obeys args i) fun _ _ _ _ => hdone _
  · exact .bind (Argument.number_obeys args i) fun _ _ _ _ => hdone _
  · exact .bind (Argument.string_obeys args i) fun _ _ _ _ =>
      .bind (Argument.check_obeys _ _ _) fun _ _ _ _ =>
        .bind (.reserve _ (Q := fun _ _ => True) fun _ _ => trivial) fun _ _ _ _ => hdone _
  · exact .bind (Argument.string_obeys args i) fun _ _ _ _ =>
      .bind (Argument.check_obeys _ _ _) fun _ _ _ _ => hdone _
  · exact .bind (Argument.string_obeys args i) fun _ _ _ _ =>
      .bind (Argument.check_obeys _ _ _) fun _ _ _ _ => hdone _
  · exact hdone _
  · exact hdone _
  · exact hdone _

theorem packFrom_obeys (args : List Value) (f : ByteArray) (fuel i k : Nat) (l : Layout)
    (acc : ByteArray) : (packFrom args f fuel i k l acc).Obeys W n fun _ _ => True := by
  induction fuel generalizing n i k l acc with
  | zero => exact .pure fun _ _ => trivial
  | succ fuel ih =>
    unfold packFrom
    split
    · exact .pure fun _ _ => trivial
    · exact .bind (detail_obeys _ _ _ _) fun _ _ _ _ =>
        .bind (packField_obeys _ _ _) fun _ _ _ _ => ih _ _ _ _

theorem pack_obeys (args : List Value) : (pack args).Obeys W n (Oks W) :=
  .bind (Argument.string_obeys args 1) fun _ _ _ _ =>
    .bind (packFrom_obeys _ _ _ _ _ _ _) fun _ _ _ _ => Library.stringResult_obeys _

theorem sizeFrom_obeys (f : ByteArray) (fuel i total : Nat) (l : Layout) :
    (sizeFrom f fuel i total l).Obeys W n fun _ _ => True := by
  induction fuel generalizing n i total l with
  | zero => exact .pure fun _ _ => trivial
  | succ fuel ih =>
    unfold sizeFrom
    split
    · exact .pure fun _ _ => trivial
    · exact .bind (detail_obeys _ _ _ _) fun _ _ _ _ =>
        .bind (Argument.check_obeys _ _ _) fun _ _ _ _ =>
          .bind (Argument.check_obeys _ _ _) fun _ _ _ _ => ih _ _ _

theorem size_obeys (args : List Value) : (size args).Obeys W n (Oks W) :=
  .bind (Argument.string_obeys args 1) fun _ _ _ _ =>
    .bind (sizeFrom_obeys _ _ _ _ _) fun _ _ _ _ => .pure fun _ _ => by simp

theorem integerAt_obeys (b : ByteArray) (i size : Nat) (little signed : Bool) :
    (integerAt b i size little signed).Obeys W n fun k v => v.Ok W k := by
  unfold integerAt
  exact .ite (fun _ => .pure fun _ _ => Value.ok_int _) fun _ => .raise _

theorem unpackFrom_obeys (f data : ByteArray) (fuel i pos : Nat) (l : Layout) {acc : List Value}
    (hacc : Oks W n acc) : (unpackFrom f data fuel i pos l acc).Obeys W n (Oks W) := by
  induction fuel generalizing n i pos l acc with
  | zero => exact .pure fun _ hk => by simpa using hacc.mono hk
  | succ fuel ih =>
    unfold unpackFrom
    split
    · exact .pure fun _ hk => by simpa using hacc.mono hk
    · refine .bind (detail_obeys _ _ _ _) fun m d hm _ => ?_
      refine .bind (Argument.check_obeys _ _ _) fun m' _ hm' _ => ?_
      replace hacc := hacc.mono (Nat.le_trans hm hm')
      dsimp only
      have hrest {k : Nat} {vs : List Value} (extra : Nat) (hk : m' ≤ k) (hvs : Oks W k vs) :
          Action.Obeys W k
            (do
              let r ← pure (vs, extra)
              unpackFrom f data fuel d.next (pos + d.gap + d.size + r.snd) d.layout (r.fst ++ acc))
            (Oks W) := by
        rw [pure_bind]
        exact ih _ _ _ (by simpa using ⟨hvs, hacc.mono hk⟩)
      have hinteger := integerAt_obeys (W := W) (n := m') data (pos + d.gap) d.size d.layout.little
        (d.field == .signed)
      split
      · exact .bind hinteger fun _ v hk hv => hrest 0 hk (by simpa using hv)
      · exact .bind hinteger fun _ v hk hv => hrest 0 hk (by simpa using hv)
      · exact hrest 0 (Nat.le_refl _) (by simp)
      · exact hrest 0 (Nat.le_refl _) (by simp)
      · exact .bind (.string _) fun _ v hk hv => hrest 0 hk (by simpa using hv)
      · refine .bind (Argument.check_obeys _ _ _) fun _ _ hk _ => ?_
        exact .bind (.string _) fun _ v hj hv => hrest _ (Nat.le_trans hk hj) (by simpa using hv)
      · split
        · exact .bind (.string _) fun _ v hk hv => hrest _ hk (by simpa using hv)
        · exact .bind (.badArgument (Q := fun _ _ => False) _ _) fun _ _ _ hfalse => hfalse.elim
      · exact hrest 0 (Nat.le_refl _) .nil

/-- Unpacked values. -/
theorem unpack_obeys (args : List Value) : (unpack args).Obeys W n (Oks W) :=
  .bind (Argument.string_obeys args 1) fun _ _ _ _ =>
    .bind (Argument.string_obeys args 2) fun _ _ _ _ =>
      .bind (Argument.integerOr_obeys args 3 1) fun _ _ _ _ =>
        .bind (Argument.check_obeys _ _ _) fun _ _ _ _ =>
          .bind (unpackFrom_obeys _ _ _ _ _ _ .nil) fun _ _ _ hvs =>
            .pure fun _ hk => (hvs.mono hk).reverse

end Packing

namespace Library

variable (src : ByteArray)

theorem ofPattern_obeys {α : Type} (r : Except Pattern.Fault α) :
    (ofPattern r).Obeys W n fun _ _ => True := by
  unfold ofPattern
  split
  · exact .pure fun _ _ => trivial
  · exact .raise _

theorem heldValue_obeys (p : Pattern.Held) :
    (heldValue p).Obeys W n fun k v => v.Ok W k := by
  cases p with
  | piece b => exact .string b
  | position i => exact .pure fun _ _ => trivial

theorem captureValues_obeys (s e : Nat) (caps : Array Pattern.Capture) (whole : Bool) :
    (captureValues src s e caps whole).Obeys W n (Oks W) :=
  .bind (ofPattern_obeys _) fun _ _ _ _ =>
    .mapM (R := fun k (v : Value) => v.Ok W k) (fun p _ => heldValue_obeys p)
      fun _ _ _ hle hv => Value.Ok.mono hv hle

theorem find_obeys (args : List Value) (places : Bool) :
    (find args places).Obeys W n (Oks W) := by
  refine .bind (Argument.string_obeys args 1) fun _ src _ _ => ?_
  refine .bind (Argument.string_obeys args 2) fun _ p _ _ => ?_
  refine .bind (Argument.integerOr_obeys args 3 1) fun _ i _ _ => ?_
  dsimp only
  split
  · exact .pure fun _ _ => by simp
  · split
    · split
      · exact .pure fun _ _ => by simp
      · exact .pure fun _ _ => by simp
    · refine .bind (ofPattern_obeys _) fun _ r _ _ => ?_
      split
      · exact .pure fun _ _ => by simp
      · split
        · exact .bind (captureValues_obeys _ _ _ _ _) fun _ _ _ hvs =>
            .pure fun _ hk => by simpa using hvs.mono hk
        · exact captureValues_obeys _ _ _ _ _

/-- The step of a search. -/
theorem nextMatch_obeys (r : Nat) : (nextMatch r).Obeys W n (Oks W) := by
  refine .bind (.read (Q := fun _ _ => True) fun _ _ _ => trivial) fun _ st _ _ => ?_
  split
  · exact .pure fun _ _ => .nil
  · refine .bind (ofPattern_obeys _) fun _ found _ _ => ?_
    split
    · exact .pure fun _ _ => .nil
    · exact .bind (.modify (Q := fun _ _ => True) fun h _ hk =>
        ⟨⟨Nat.le_refl _, rfl, rfl, rfl, rfl, hk.congr rfl rfl rfl rfl⟩, trivial⟩)
        fun _ _ _ _ => captureValues_obeys _ _ _ _ _

theorem gmatch_obeys (args : List Value) : (gmatch args).Obeys W n (Oks W) := by
  refine .bind (Argument.string_obeys args 1) fun _ src _ _ => ?_
  refine .bind (Argument.string_obeys args 2) fun _ p _ _ => ?_
  refine .bind (Argument.integerOr_obeys args 3 1) fun _ i _ _ => ?_
  exact .bind (.update (Q := fun _ _ => True) fun h _ hk =>
    ⟨⟨Nat.le_refl _, rfl, rfl, rfl, rfl, hk.congr rfl rfl rfl rfl⟩, trivial⟩)
    fun _ _ _ _ => .pure fun _ _ => by simp

theorem expand_obeys (s e : Nat) (caps : Array Pattern.Capture) (text : ByteArray) (fuel i : Nat)
    (acc : ByteArray) : (expand src s e caps text fuel i acc).Obeys W n fun _ _ => True := by
  induction fuel generalizing n i acc with
  | zero => exact .pure fun _ _ => trivial
  | succ fuel ih =>
    unfold expand
    split
    · exact .pure fun _ _ => trivial
    · dsimp only
      split
      · exact ih _ _
      · split
        · exact ih _ _
        · split
          · exact ih _ _
          · split
            · refine .bind (ofPattern_obeys _) fun _ held _ _ => ?_
              split
              · exact ih _ _
              · exact ih _ _
            · exact .raise _

theorem replacement_obeys (s e : Nat) (caps : Array Pattern.Capture) {v : Value}
    (hv : v.Ok W n) : (replacement src s e caps v).Obeys W n fun _ _ => True := by
  have hfinish {k : Nat} (whole : ByteArray) (v : Value) :
      (replacement.finish whole v).Obeys W k fun _ _ => True := by
    unfold replacement.finish
    split
    · exact .pure fun _ _ => trivial
    · exact .pure fun _ _ => trivial
    · split
      · exact .pure fun _ _ => trivial
      · exact .raise _
  unfold replacement
  dsimp only
  split
  · refine .bind (ofPattern_obeys _) fun m held hm _ => ?_
    refine .bind (heldValue_obeys held) fun k key hk hkey => ?_
    exact .bind (Operation.index_obeys (hv.mono (Nat.le_trans hm hk)) hkey)
      fun _ _ _ _ => hfinish _ _
  · refine .bind (captureValues_obeys _ _ _ _ _) fun m vs hm hvs => ?_
    exact .bind (.call1 (hv.mono hm).callable hvs) fun _ _ _ _ => hfinish _ _
  · split
    · exact expand_obeys _ _ _ _ _ _ _ _
    · exact .pure fun _ _ => trivial

theorem replaceFrom_obeys (p : ByteArray) {by_ : Value} (hby : by_.Ok W n) (most : Option Nat)
    (anchored : Bool) (fuel s k : Nat) (last : Option Nat) (acc : ByteArray) :
    (replaceFrom src p by_ most anchored fuel s k last acc).Obeys W n fun _ _ => True := by
  induction fuel generalizing n s k last acc with
  | zero =>
    unfold replaceFrom
    exact .pure fun _ _ => trivial
  | succ fuel ih =>
    have hskip {m : Nat} (hm : n ≤ m) :
        Action.Obeys W m (replaceFrom.skip src p by_ most anchored fuel s k last acc)
          fun _ _ => True := by
      unfold replaceFrom.skip
      split
      · dsimp only
        split
        · exact .pure fun _ _ => trivial
        · exact ih (hby.mono hm) _ _ _ _
      · exact .pure fun _ _ => trivial
    unfold replaceFrom
    refine .ite (fun _ => .pure fun _ _ => trivial) fun _ => ?_
    refine .bind (ofPattern_obeys _) fun m found hm _ => ?_
    split
    · split
      · exact hskip hm
      · refine .bind (replacement_obeys _ _ _ _ (hby.mono hm)) fun m' b hm' _ => ?_
        refine .bind (.reserve _ (Q := fun _ _ => True) fun _ _ => trivial)
          fun j _ hj _ => ?_
        dsimp only
        split
        · exact .pure fun _ _ => trivial
        · exact ih (hby.mono (Nat.le_trans hm (Nat.le_trans hm' hj))) _ _ _ _
    · exact hskip hm

theorem gsub_obeys (hargs : Oks W n args) : (gsub args).Obeys W n (Oks W) := by
  have hby := Argument.get_ok hargs 3
  refine .bind (Argument.string_obeys args 1) fun m src hm _ => ?_
  refine .bind (Argument.string_obeys args 2) fun m' p hm' _ => ?_
  replace hby := hby.mono (Nat.le_trans hm hm')
  dsimp only
  have hrest (suited : Bool) (k : Nat) (most : Option Nat) (hk : m' ≤ k) (_ : True) :
      Action.Obeys W k
        (if !suited then Argument.wrongType args 3 "string/function/table"
        else do
          let r ← replaceFrom src p (Argument.get args 3) most (Bytes.byte p 0 == 94)
            (2 * src.size + 3) 0 0 none ByteArray.empty
          pure [← Action.string r.1, .int (Int64.ofNat r.2)])
        (Oks W) := by
    split
    · exact Argument.wrongType_obeys _ _ _
    · refine .bind (replaceFrom_obeys _ _ (hby.mono hk) _ _ _ _ _ _ _) fun _ r _ _ => ?_
      exact .bind (.string _) fun _ v _ hv => .pure fun _ hle => by simpa using hv.mono hle
  split
  · exact .bind (Q := fun _ _ => True) (.pure fun _ _ => trivial) (hrest _)
  · refine .bind (Argument.integer_obeys args 4) fun k i hk _ => ?_
    exact .bind (Q := fun _ _ => True) (.pure fun _ _ => trivial)
      fun j most hj htrue => hrest _ j most (Nat.le_trans hk hj) htrue

theorem rep_obeys (args : List Value) : (rep args).Obeys W n (Oks W) := by
  refine .bind (Argument.string_obeys args 1) fun _ s _ _ => ?_
  refine .bind (Argument.integer_obeys args 2) fun _ i _ _ => ?_
  refine .bind (Argument.stringOr_obeys args 3 _) fun _ sep _ _ => ?_
  split
  · exact .pure fun _ _ => by simp
  · dsimp only
    split
    · exact .raise _
    · refine .bind (.reserve _ (Q := fun _ _ => True) fun _ _ => trivial) fun _ _ _ _ => ?_
      split
      · exact stringResult_obeys _
      · exact stringResult_obeys _

/-- The functions of the string library. -/
theorem runString_obeys (f : StringFunction) (hargs : Oks W n args) :
    (runString f args).Obeys W n (Oks W) := by
  cases f with
  | byte =>
    refine .bind (Argument.string_obeys args 1) fun _ s _ _ => ?_
    refine .bind (Argument.integerOr_obeys args 2 1) fun _ i _ _ => ?_
    refine .bind (Argument.integerOr_obeys args 3 i) fun _ j _ _ => ?_
    dsimp only
    split
    · exact .pure fun _ _ => .nil
    · refine .pure fun _ _ v hv => ?_
      obtain ⟨c, -, rfl⟩ := List.mem_map.mp hv
      trivial
  | char =>
    refine .bind (.mapM (R := fun _ _ => True) (fun i _ => ?_) fun _ _ _ _ htrue => htrue)
      fun _ bytes _ _ => stringResult_obeys _
    exact .bind (Argument.integer_obeys args _) fun _ _ _ _ =>
      .bind (Argument.check_obeys _ _ _) fun _ _ _ _ => .pure fun _ _ => trivial
  | dump =>
    refine .bind (Argument.function_obeys hargs 1) fun _ v _ _ => ?_
    split
    · exact stringResult_obeys _
    · exact .raise _
  | find => exact find_obeys args true
  | format => exact Format.apply_obeys hargs
  | gmatch => exact gmatch_obeys args
  | gsub => exact gsub_obeys hargs
  | len =>
    exact .bind (Argument.string_obeys args 1) fun _ _ _ _ => .pure fun _ _ => by simp
  | lower => exact .bind (Argument.string_obeys args 1) fun _ _ _ _ => stringResult_obeys _
  | «match» => exact find_obeys args false
  | pack => exact Packing.pack_obeys args
  | packsize => exact Packing.size_obeys args
  | rep => exact rep_obeys args
  | reverse => exact .bind (Argument.string_obeys args 1) fun _ _ _ _ => stringResult_obeys _
  | sub =>
    exact .bind (Argument.string_obeys args 1) fun _ _ _ _ =>
      .bind (Argument.integer_obeys args 2) fun _ _ _ _ =>
        .bind (Argument.integerOr_obeys args 3 _) fun _ _ _ _ => stringResult_obeys _
  | unpack => exact Packing.unpack_obeys args
  | upper => exact .bind (Argument.string_obeys args 1) fun _ _ _ _ => stringResult_obeys _

theorem ofValue?_ok {v x : Value} (hx : Numeral.ofValue? v = some x) : x.Ok W n := by
  unfold Numeral.ofValue? at hx
  split at hx
  · cases hx
    trivial
  · cases hx
    trivial
  · exact number?_ok hx
  · cases hx

/-- The arithmetic of two values through a metamethod `f`. Strings have none but their own. -/
def arithThrough (op : Arith) (a b f : Value) : Action (List Value) :=
  match b, f with
  | .str _, _ | _, .nil =>
    Action.raise ("attempt to " ++ op.eventName ++ " a '" ++ a.typeName ++ "' with a '" ++
      b.typeName ++ "'")
  | _, f => do pure [← Action.call1 f [a, b]]

/-- The arithmetic metamethods of strings. -/
theorem stringArith_obeys (op : Arith) (hargs : Oks W n args) :
    (stringArith op args).Obeys W n (Oks W) := by
  have ha := Argument.get_ok hargs 1
  have hb := Argument.get_ok hargs 2
  unfold stringArith
  dsimp only
  split
  · rename_i x y hx hy
    exact .bind (Operation.arith_obeys op (ofValue?_ok hx) (ofValue?_ok hy)) fun _ v _ hv =>
      .pure fun _ hle => by simpa using hv.mono hle
  · intro h hn hk
    have hf := hk.metafield_ok (hb.mono hn) op.event op.event_ne
    have hrun : (arithThrough op (Argument.get args 1) (Argument.get args 2)
        (h.metafield (Argument.get args 2) op.event)).Obeys W h.tables.size (Oks W) := by
      unfold arithThrough
      split
      · exact .raise _
      · exact .raise _
      · refine .bind (.call1 hf.callable (by simp [ha.mono hn, hb.mono hn])) fun _ v _ hv => ?_
        exact .pure fun _ hle => by simpa using hv.mono hle
    exact hrun h (Nat.le_refl _) hk

end Library

end StoryPack.Script
