/-
When a table has a snapshot, and what the snapshot is.

A table can be read when all tables that it leads to are sound, when they have no
other keys than scopes, and no other values but tables that can be read.  No such
table contains itself, so its snapshot neither comes to a table again nor runs
out of fuel.  Whatever snapshot a table has, the table spells it.

* `Heap.snapshotEntries_fuel` — a snapshot needs no more fuel than there are
  tables;
* `Heap.Readable` — the tables that can be read;
* `Heap.Readable.snapshot` — they have snapshots;
* `Heap.SoundBelow.spells_of_snapshot` — a table spells its snapshot, in which the
  entries of every sequence part come first.
-/
import StoryPack.Proofs.Scope.Order
import StoryPack.Proofs.Scope.Spelling
import Mathlib.Data.List.Forall2
import Mathlib.Data.List.Nodup
import Mathlib.Data.List.Perm.Subperm
import Mathlib.Logic.Relation

namespace StoryPack

namespace Scope

namespace Table

/-- The entries of the sequence part stand first, and in their order. There is no index beyond the
greatest integer. -/
def InOrder (t : Table) : Prop :=
  ∀ i < t.sequenceLength, i < Script.Table.maxSlot →
    (t.entries[i]?).map (·.1) = some (.integer (Int64.ofNat (i + 1)))

/-- The keys of a table are those under which something is found. -/
theorem isSome_get?_iff {t : Table} {k : Key} : (t.get? k).isSome ↔ k ∈ t.entries.map (·.1) := by
  rw [get?, List.lookup_isSome_iff, List.mem_map]
  exact exists_congr fun e => and_congr_right fun _ => beq_iff_eq.trans eq_comm

theorem isSome_of_lt_sequenceFrom {t : Table} {fuel n i : Nat} (hn : n ≤ i)
    (hi : i < t.sequenceFrom fuel n) : (t.get? (.integer (Int64.ofNat (i + 1)))).isSome := by
  induction fuel generalizing n with
  | zero => exact absurd hi (Nat.not_lt.mpr hn)
  | succ fuel ih =>
    unfold sequenceFrom at hi
    split at hi
    · rename_i hsome
      rcases Nat.eq_or_lt_of_le hn with rfl | hlt
      · exact hsome
      · exact ih hlt hi
    · exact absurd hi (Nat.not_lt.mpr hn)

/-- How long the sequence part is depends on the keys only. -/
theorem sequenceLength_congr {s t : Table} (hsize : s.size = t.size)
    (h : ∀ k, (s.get? k).isSome = (t.get? k).isSome) : s.sequenceLength = t.sequenceLength := by
  have hfrom (fuel n : Nat) : s.sequenceFrom fuel n = t.sequenceFrom fuel n := by
    induction fuel generalizing n with
    | zero => rfl
    | succ fuel ih => simp only [sequenceFrom, h, ih]
  rw [sequenceLength, hsize, hfrom, sequenceLength]

/-- The sequence part has no gap. -/
theorem exists_mem_of_lt_sequenceLength {t : Table} {i : Nat} (hi : i < t.sequenceLength) :
    ∃ v, (.integer (Int64.ofNat (i + 1)), v) ∈ t.entries := by
  have hkey := isSome_get?_iff.mp (isSome_of_lt_sequenceFrom (Nat.zero_le i) hi)
  obtain ⟨⟨k, v⟩, he, rfl⟩ := List.mem_map.mp hkey
  exact ⟨v, he⟩

end Table

namespace Value

mutual

/-- The entries of every table are in order. -/
def InOrder : Value → Prop
  | .table entries => Table.InOrder ⟨entries⟩ ∧ entriesInOrder entries
  | _ => True

/-- The entries of all tables in entries are in order. -/
def entriesInOrder : List (Key × Value) → Prop
  | [] => True
  | (_, v) :: rest => v.InOrder ∧ entriesInOrder rest

end

theorem entriesInOrder_iff {entries : List (Key × Value)} :
    entriesInOrder entries ↔ ∀ e ∈ entries, e.2.InOrder := by
  induction entries with
  | nil => simp [entriesInOrder]
  | cons e rest ih => simp [entriesInOrder, ih]

end Value

end Scope

namespace Script

namespace Heap

variable {h : Heap}

/-- What a snapshot makes of an entry, `nested` being the snapshots of tables in it. -/
def snapshotEntry (nested : String → Nat → Except SnapshotFault (List (Scope.Key × Scope.Value)))
    (path : String) (e : Key × Value) : Except SnapshotFault (Scope.Key × Scope.Value) := do
  let k ← snapshotKey path e.1
  let child := childPath path k
  match e.2 with
  | .bool b => return (k, .boolean b)
  | .int i => return (k, .integer i)
  | .float x => return (k, .number x)
  | .str b => return (k, .text (← snapshotText b))
  | .table c => return (k, .table (← nested child c))
  | .function f => return (k, .function f)
  | v => .error (.value v.hostTypeName child)

theorem snapshotEntries_succ (h : Heap) (fuel : Nat) (visiting : List Nat) (path : String)
    (r : Nat) : snapshotEntries h (fuel + 1) visiting path r =
      if visiting.contains (h.readThrough r) then .error (.cycle path)
      else (snapshotOrder (h.table (h.readThrough r))).mapM
        (snapshotEntry (snapshotEntries h fuel (h.readThrough r :: visiting)) path) := rfl

/-- Different numbers below `n` are at most `n`. -/
theorem length_le_of_nodup {n : Nat} {rs : List Nat} (hnodup : rs.Nodup) (hlt : ∀ r ∈ rs, r < n) :
    rs.length ≤ n := by
  have hsub : rs ⊆ List.range n := fun r hr => List.mem_range.mpr (hlt r hr)
  have hle := (hnodup.subperm hsub).length_le
  rwa [List.length_range] at hle

/-- The tables that are being looked at are different ones, so that no more fuel is needed than
there are tables. -/
theorem snapshotEntries_fuel {fuel : Nat} {visiting : List Nat} (hnodup : visiting.Nodup)
    (hlt : ∀ r ∈ visiting, r < h.tables.size) (hfuel : h.tables.size < fuel + visiting.length)
    (path : String) (r : Nat) :
    snapshotEntries h (fuel + 1) visiting path r = snapshotEntries h fuel visiting path r := by
  induction fuel generalizing visiting path r with
  | zero =>
    -- there are not so many tables
    have hle := length_le_of_nodup hnodup hlt
    omega
  | succ fuel ih =>
    rw [snapshotEntries_succ, snapshotEntries_succ]
    by_cases hr : h.readThrough r < h.tables.size
    · split
      · rfl
      · rename_i hnew
        have hnew : h.readThrough r ∉ visiting := by simpa using hnew
        have hnested : snapshotEntries h (fuel + 1) (h.readThrough r :: visiting) =
            snapshotEntries h fuel (h.readThrough r :: visiting) := by
          funext path r'
          refine ih (List.nodup_cons.mpr ⟨hnew, hnodup⟩) (fun r' hr' => ?_) ?_ path r'
          · rcases List.mem_cons.mp hr' with rfl | hr'
            · exact hr
            · exact hlt r' hr'
          · rw [List.length_cons]
            omega
        rw [hnested]
    · -- past the last table there is nothing to look at
      have hempty : snapshotOrder (h.table (h.readThrough r)) = [] := by
        rw [table, Array.getElem?_eq_none (Nat.not_lt.mp hr)]
        rfl
      rw [hempty]
      rfl

theorem snapshotEntries_of_le {fuel : Nat} (hfuel : h.tables.size < fuel) (more : Nat)
    (path : String) (r : Nat) :
    snapshotEntries h (fuel + more) [] path r = snapshotEntries h fuel [] path r := by
  induction more with
  | zero => rfl
  | succ more ih =>
    rw [← ih]
    exact snapshotEntries_fuel List.nodup_nil (fun r hr => by cases hr) (by simp; omega) path r

/-! ### Tables that have snapshots -/

theorem snapshotKey_toScript (path : String) (k : Scope.Key) :
    snapshotKey path k.toScript = .ok k := by
  cases k with
  | integer i => rfl
  | text s => exact snapshotKey_text path s

/-- A table holds another one, views read through. -/
def Inside (h : Heap) (c b : Nat) : Prop :=
  ∃ k r, (h.table b).get k = .table r ∧ h.readThrough r = c

/-- A value that can be read: all tables that it leads to are sound, have no keys but those of
scopes, and hold no values but such that can be read. -/
inductive Readable (h : Heap) : Value → Prop
  | leaf {v : Value} {w : Scope.Value} (hw : w.leaf? = some v) : Readable h v
  | table {r : Nat} (hsound : (h.table (h.readThrough r)).Sound)
      (hkeys : ∀ k, (h.table (h.readThrough r)).get k ≠ .nil → ∃ k', k = Scope.Key.toScript k')
      (hvalues : ∀ k, (h.table (h.readThrough r)).get k ≠ .nil →
        Readable h ((h.table (h.readThrough r)).get k)) : Readable h (.table r)

theorem leaf?_ne_table {w : Scope.Value} {r : Nat} : w.leaf? ≠ some (.table r) := by
  cases w <;> simp [Scope.Value.leaf?]

/-- Tables that can be read lead down to the last of them. -/
theorem Readable.acc {v : Value} (hv : h.Readable v) {r : Nat} (hr : v = .table r) :
    Acc h.Inside (h.readThrough r) := by
  induction hv generalizing r with
  | leaf hw => exact absurd (hr ▸ hw) leaf?_ne_table
  | table hsound hkeys hvalues ih =>
    cases hr
    refine .intro _ fun c hc => ?_
    obtain ⟨k, r', hget, rfl⟩ := hc
    exact ih k (by rw [hget]; nofun) hget

/-- What leads down to the last does not come back to itself. -/
theorem not_transGen_self {α : Type} {r : α → α → Prop} {a : α} (ha : Acc r a) :
    ¬Relation.TransGen r a a := by
  induction ha with
  | intro a _ ih =>
    intro haa
    obtain ⟨b, hab, hba⟩ := Relation.TransGen.tail'_iff.mp haa
    exact ih b hba (.head' hba hab)

theorem Readable.snapshotEntry {nested : String → Nat →
      Except SnapshotFault (List (Scope.Key × Scope.Value))} {v : Value} (hv : h.Readable v)
    (hnested : ∀ path r, v = .table r → ∃ entries, nested path r = .ok entries) (path : String)
    (k : Scope.Key) : ∃ e, Heap.snapshotEntry nested path (k.toScript, v) = .ok e := by
  unfold Heap.snapshotEntry
  dsimp only
  rw [snapshotKey_toScript]
  cases hv with
  | leaf hw =>
    rename_i w
    cases w with
    | table entries => cases hw
    | text s =>
      cases hw
      simp only [bind, Except.bind, snapshotText_toUTF8]
      exact ⟨_, rfl⟩
    | _ =>
      cases hw
      exact ⟨_, rfl⟩
  | table hsound hkeys hvalues =>
    obtain ⟨entries, hentries⟩ := hnested (childPath path k) _ rfl
    simp only [bind, Except.bind, hentries]
    exact ⟨_, rfl⟩

/-- A table that can be read has a snapshot. The tables that are being looked at lead down to it, so
that it is none of them. -/
theorem Readable.snapshotEntries {fuel : Nat} {visiting : List Nat} {r : Nat}
    (hr : h.Readable (.table r)) (hnodup : visiting.Nodup)
    (hlt : ∀ b ∈ visiting, b < h.tables.size) (hfuel : h.tables.size < fuel + visiting.length)
    (habove : ∀ b ∈ visiting, Relation.TransGen h.Inside (h.readThrough r) b) (path : String) :
    ∃ entries, Heap.snapshotEntries h fuel visiting path r = .ok entries := by
  induction fuel generalizing visiting path r with
  | zero =>
    have hle := length_le_of_nodup hnodup hlt
    omega
  | succ fuel ih =>
    -- a table above that is the same one would lead down to itself
    have hnew : h.readThrough r ∉ visiting :=
      fun hmem => not_transGen_self (hr.acc rfl) (habove _ hmem)
    rw [snapshotEntries_succ, if_neg (by simpa using hnew)]
    cases hr with
    | leaf hw => exact absurd hw leaf?_ne_table
    | table hsound hkeys hvalues =>
      refine (exists_mapM_ok (Q := fun _ => True) fun e he => ?_).imp fun _ h => h.1
      obtain ⟨k, v⟩ := e
      obtain ⟨rfl, hnil⟩ := hsound.mem_snapshotOrder_iff.mp he
      have hsome : (h.table (h.readThrough r)).get k ≠ .nil := fun heq => by
        rw [heq] at hnil
        cases hnil
      obtain ⟨k, rfl⟩ := hkeys _ hsome
      refine ((hvalues _ hsome).snapshotEntry (fun path c hc => ?_) path k).imp
        fun _ h => ⟨h, trivial⟩
      -- the table has an entry, so it is one of the heap
      have hb : h.readThrough r < h.tables.size := by
        refine Nat.lt_of_not_le fun hle => hsome ?_
        rw [Heap.table, Array.getElem?_eq_none hle]
        exact Table.get_empty 0 none _
      have hinside : h.Inside (h.readThrough c) (h.readThrough r) := ⟨_, c, hc, rfl⟩
      refine ih (hc ▸ hvalues _ hsome) (List.nodup_cons.mpr ⟨hnew, hnodup⟩)
        (List.forall_mem_cons.mpr ⟨hb, hlt⟩) (by rw [List.length_cons]; omega) ?_ path
      exact List.forall_mem_cons.mpr
        ⟨.single hinside, fun b hb => .head hinside (habove b hb)⟩

theorem Readable.snapshot {r : Nat} (hr : h.Readable (.table r)) : ∃ t, h.snapshot r = .ok t := by
  obtain ⟨entries, hentries⟩ :
      ∃ entries, Heap.snapshotEntries h (h.tables.size + 2) [] "" r = .ok entries :=
    hr.snapshotEntries List.nodup_nil (fun b hb => by cases hb) (by simp)
      (fun b hb => by cases hb) ""
  refine ⟨⟨entries⟩, ?_⟩
  unfold Heap.snapshot
  rw [hentries]
  rfl

/-! ### What a snapshot is -/

theorem eq_toUTF8_of_snapshotText {b : ByteArray} {s : String} (hs : snapshotText b = .ok s) :
    b = s.toUTF8 := by
  unfold snapshotText Utf8.text at hs
  cases htext : String.fromUTF8? b with
  | none =>
    rw [htext] at hs
    cases hs
  | some t =>
    rw [htext] at hs
    cases hs
    unfold String.fromUTF8? at htext
    split at htext
    · cases htext
      rfl
    · cases htext

theorem eq_toScript_of_snapshotKey {path : String} {k : Key} {k' : Scope.Key}
    (hk : snapshotKey path k = .ok k') : k = k'.toScript := by
  cases k with
  | int i =>
    cases hk
    rfl
  | str b =>
    unfold snapshotKey at hk
    cases hb : snapshotText b with
    | error f =>
      simp only [hb, bind, Except.bind] at hk
      cases hk
    | ok s =>
      simp only [hb, bind, Except.bind] at hk
      cases hk
      exact congrArg Key.str (eq_toUTF8_of_snapshotText hb)
  | _ => cases hk

/-- What an entry of a snapshot comes from: an entry with its key, and the same value or a table. -/
theorem snapshotEntry_eq_ok {nested : String → Nat →
      Except SnapshotFault (List (Scope.Key × Scope.Value))} {path : String} {k : Key} {v : Value}
    {k' : Scope.Key} {w : Scope.Value} (he : snapshotEntry nested path (k, v) = .ok (k', w)) :
    k = k'.toScript ∧ (w.leaf? = some v ∨ ∃ c entries, v = .table c ∧ w = .table entries ∧
      nested (childPath path k') c = .ok entries) := by
  unfold snapshotEntry at he
  dsimp only at he
  cases hk : snapshotKey path k with
  | error f =>
    rw [hk] at he
    cases he
  | ok key =>
    rw [hk] at he
    have hkey := eq_toScript_of_snapshotKey hk
    cases v with
    | table c =>
      cases hc : nested (childPath path key) c with
      | error f =>
        simp only [hc, bind, Except.bind] at he
        cases he
      | ok entries =>
        simp only [hc, bind, Except.bind] at he
        cases he
        exact ⟨hkey, .inr ⟨c, entries, rfl, rfl, hc⟩⟩
    | str b =>
      cases hb : snapshotText b with
      | error f =>
        simp only [hb, bind, Except.bind] at he
        cases he
      | ok s =>
        simp only [hb, bind, Except.bind] at he
        cases he
        exact ⟨hkey, .inl (congrArg (some ∘ Value.str) (eq_toUTF8_of_snapshotText hb).symm)⟩
    | nil | fault r => cases he
    | bool b | int i | float x | function f =>
      cases he
      exact ⟨hkey, .inl rfl⟩

/-- The results of a list, item by item. -/
theorem forall₂_of_mapM {α β ε : Type} {f : α → Except ε β} {as : List α} {bs : List β}
    (hbs : as.mapM f = .ok bs) : List.Forall₂ (fun a b => f a = .ok b) as bs := by
  induction as generalizing bs with
  | nil =>
    cases hbs
    exact .nil
  | cons a as ih =>
    rw [List.mapM_cons] at hbs
    cases ha : f a with
    | error e =>
      rw [ha] at hbs
      cases hbs
    | ok b =>
      cases has : as.mapM f with
      | error e =>
        rw [ha, has] at hbs
        cases hbs
      | ok bs' =>
        rw [ha, has] at hbs
        cases hbs
        exact .cons ha (ih has)

/-- Every result comes from an item. -/
theorem exists_of_forall₂ {α β : Type} {R : α → β → Prop} {as : List α} {bs : List β}
    (hbs : List.Forall₂ R as bs) {b : β} (hb : b ∈ bs) : ∃ a ∈ as, R a b := by
  obtain ⟨i, hi, rfl⟩ := List.mem_iff_getElem.mp hb
  have hlt : i < as.length := hbs.length_eq.symm ▸ hi
  exact ⟨as[i], List.getElem_mem hlt, hbs.get hlt hi⟩

/-- The entries of a snapshot, each with the entry of the table that it comes from. -/
structure Taken (nested : String → Nat → Except SnapshotFault (List (Scope.Key × Scope.Value)))
    (path : String) (t : Table) (entries : List (Scope.Key × Scope.Value)) : Prop where
  sound : t.Sound
  taken : List.Forall₂ (fun e e' => snapshotEntry nested path e = .ok e') (snapshotOrder t) entries

namespace Taken

variable {nested : String → Nat → Except SnapshotFault (List (Scope.Key × Scope.Value))}
  {path : String} {t : Table} {entries : List (Scope.Key × Scope.Value)}

theorem keys (h : Taken nested path t entries) :
    (snapshotOrder t).map (·.1) = entries.map fun e => e.1.toScript := by
  have htaken := h.taken
  clear h
  generalize snapshotOrder t = order at htaken
  induction htaken with
  | nil => rfl
  | cons he _ ih =>
    rw [List.map_cons, List.map_cons, (snapshotEntry_eq_ok he).1, ih]

theorem nodup (h : Taken nested path t entries) : (entries.map (·.1)).Nodup := by
  have hnodup := h.sound.nodup_snapshotOrder
  rw [h.keys] at hnodup
  have hmap : (entries.map fun e => e.1.toScript) = (entries.map (·.1)).map Scope.Key.toScript := by
    rw [List.map_map]
    rfl
  rw [hmap] at hnodup
  exact List.Nodup.of_map _ hnodup

/-- Every entry of the snapshot is found in the table. -/
theorem of_mem (h : Taken nested path t entries) {k : Scope.Key} {w : Scope.Value}
    (hk : (k, w) ∈ entries) :
    snapshotEntry nested path (k.toScript, t.get k.toScript) = .ok (k, w) := by
  obtain ⟨⟨k', v⟩, he, hentry⟩ := exists_of_forall₂ h.taken hk
  obtain ⟨rfl, -⟩ := snapshotEntry_eq_ok hentry
  obtain ⟨rfl, -⟩ := h.sound.mem_snapshotOrder_iff.mp he
  exact hentry

/-- Everything in the table is in the snapshot. -/
theorem exists_mem (h : Taken nested path t entries) {k : Key} (hk : t.get k ≠ .nil) :
    ∃ k' w, (k', w) ∈ entries ∧ k = k'.toScript := by
  have hnil : (t.get k).isNil = false := by
    cases hget : t.get k with
    | nil => exact absurd hget hk
    | _ => rfl
  have hmem : k ∈ (snapshotOrder t).map (·.1) :=
    List.mem_map.mpr ⟨(k, t.get k), h.sound.mem_snapshotOrder_iff.mpr ⟨rfl, hnil⟩, rfl⟩
  rw [h.keys] at hmem
  obtain ⟨⟨k', w⟩, he, heq⟩ := List.mem_map.mp hmem
  exact ⟨k', w, he, heq.symm⟩

theorem inOrder (h : Taken nested path t entries) : Scope.Table.InOrder ⟨entries⟩ := by
  intro i hi hmax
  -- up to here nothing is missing in the table
  have hruns : t.Runs (i + 1) := by
    refine ⟨hmax, fun j hj => ?_⟩
    obtain ⟨w, hw⟩ :=
      Scope.Table.exists_mem_of_lt_sequenceLength (t := ⟨entries⟩) (i := j) (by omega)
    have hentry := h.of_mem hw
    rw [Scope.Key.toScript] at hentry
    cases hget : t.get (.int (Int64.ofNat (j + 1))) with
    | nil =>
      rw [hget] at hentry
      cases hentry
    | _ => rfl
  have hentry := h.sound.getElem?_snapshotOrder hruns (Nat.lt_succ_self i)
  have hkey : ((snapshotOrder t).map (·.1))[i]? = some (.int (Int64.ofNat (i + 1))) := by
    rw [List.getElem?_map, hentry]
    rfl
  rw [h.keys, List.getElem?_map] at hkey
  obtain ⟨e, he, heq⟩ := Option.map_eq_some_iff.mp hkey
  rw [he]
  have heq : e.1.toScript = (Scope.Key.integer (Int64.ofNat (i + 1))).toScript := heq
  exact congrArg some (Scope.Key.toScript_inj heq)

end Taken

/-- Values whose tables are sound, and hold only such values again. -/
structure SoundBelow (h : Heap) (P : Value → Prop) : Prop where
  sound : ∀ r, P (.table r) → (h.table (h.readThrough r)).Sound
  values : ∀ r k, P (.table r) → P ((h.table (h.readThrough r)).get k)

/-- What is read from a table that is being looked at, when the reading succeeds. -/
theorem SoundBelow.spells_of_snapshotEntries {P : Value → Prop} (hP : h.SoundBelow P)
    {fuel : Nat} {visiting : List Nat} {path : String} {r : Nat}
    {entries : List (Scope.Key × Scope.Value)} (hr : P (.table r))
    (hs : Heap.snapshotEntries h fuel visiting path r = .ok entries) :
    h.Spells (fun _ => True) (.table r) (.table entries) ∧
      Scope.Value.InOrder (.table entries) := by
  induction fuel generalizing visiting path r entries with
  | zero => cases hs
  | succ fuel ih =>
    rw [snapshotEntries_succ] at hs
    split at hs
    · cases hs
    have htaken : Taken (Heap.snapshotEntries h fuel (h.readThrough r :: visiting)) path
        (h.table (h.readThrough r)) entries := ⟨hP.sound r hr, forall₂_of_mapM hs⟩
    have hvalue (k : Scope.Key) (w : Scope.Value) (hk : (k, w) ∈ entries) :
        h.Spells (fun _ => True) ((h.table (h.readThrough r)).get k.toScript) w ∧ w.InOrder := by
      obtain ⟨-, hleaf | ⟨c, entries', hc, rfl, hnested⟩⟩ := snapshotEntry_eq_ok (htaken.of_mem hk)
      · refine ⟨.leaf hleaf, ?_⟩
        cases w with
        | table entries => cases hleaf
        | _ => trivial
      · have hPc := hP.values r k.toScript hr
        rw [hc] at hPc ⊢
        exact ih hPc hnested
    refine ⟨.table ⟨trivial, fun _ _ => trivial, rfl, trivial⟩ htaken.sound htaken.nodup
      (fun k w hk => (hvalue k w hk).1) fun k hk => ?_,
      htaken.inOrder, Scope.Value.entriesInOrder_iff.mpr fun e he => (hvalue e.1 e.2 he).2⟩
    refine Classical.byContradiction fun hnil => ?_
    obtain ⟨k', w, hmem, heq⟩ := htaken.exists_mem hnil
    exact hk k' w hmem heq

/-- A table spells its snapshot, in which every sequence part comes first. -/
theorem SoundBelow.spells_of_snapshot {P : Value → Prop} (hP : h.SoundBelow P) {r : Nat}
    {t : Scope.Table} (hr : P (.table r)) (hs : h.snapshot r = .ok t) :
    h.Spells (fun _ => True) (.table r) t.value ∧ t.value.InOrder := by
  unfold Heap.snapshot at hs
  cases hentries : Heap.snapshotEntries h (h.tables.size + 2) [] "" r with
  | error f =>
    rw [hentries] at hs
    cases hs
  | ok entries =>
    rw [hentries] at hs
    cases hs
    exact hP.spells_of_snapshotEntries hr hentries

/-- Values that can be read are such values. -/
theorem soundBelow_readable (h : Heap) : h.SoundBelow fun v => v = .nil ∨ h.Readable v where
  sound r hr := by
    rcases hr with hr | hr
    · cases hr
    · cases hr with
      | leaf hw => exact absurd hw leaf?_ne_table
      | table hsound => exact hsound
  values r k hr := by
    rcases hr with hr | hr
    · cases hr
    · cases hr with
      | leaf hw => exact absurd hw leaf?_ne_table
      | table hsound hkeys hvalues =>
        by_cases hnil : (h.table (h.readThrough r)).get k = .nil
        · exact .inl hnil
        · exact .inr (hvalues k hnil)

/-- A table that can be read spells its snapshot. -/
theorem Readable.spells {r : Nat} (hr : h.Readable (.table r)) :
    ∃ t, h.snapshot r = .ok t ∧ h.Spells (fun _ => True) (.table r) t.value ∧ t.value.InOrder := by
  obtain ⟨t, ht⟩ := hr.snapshot
  exact ⟨t, ht, (soundBelow_readable h).spells_of_snapshot (.inr hr) ht⟩

/-- What spells a scope can be read. -/
theorem Spells.readable {D : Nat → Prop} {v : Value} {w : Scope.Value} (hv : h.Spells D v w) :
    h.Readable v := by
  induction hv with
  | leaf hw => exact .leaf hw
  | table hr hsound hnodup hvalues hothers ih =>
    rename_i r b entries
    have hentry (k : Key) (hk : (h.table (h.readThrough r)).get k ≠ .nil) :
        ∃ k' w, (k', w) ∈ entries ∧ k = Scope.Key.toScript k' := by
      rw [hr.reads] at hk
      refine Classical.byContradiction fun hnone => hk (hothers k fun k' w hw heq => ?_)
      exact hnone ⟨k', w, hw, heq⟩
    refine .table (hr.reads ▸ hsound) (fun k hk => ?_) fun k hk => ?_
    · obtain ⟨k', -, -, heq⟩ := hentry k hk
      exact ⟨k', heq⟩
    · obtain ⟨k', w, hw, rfl⟩ := hentry k hk
      rw [hr.reads]
      exact ih k' w hw

end Heap

end Script

end StoryPack
