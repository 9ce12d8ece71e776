/-
What scopes are written as.

A table of different keys is written as an array when its keys are the integers from
1 to some number, and otherwise as an object.  The members of the object are named by
the shown keys, and an integer is shown like its digits are as a text: where a table
has both as keys, it has one member for them, with the value of the later entry.  So
an object tells all about its table only if no integer meets its text, and then the
order of the entries does not matter, at any level.

* `Scope.Table.isSequence_iff` — when a table is written as an array;
* `Scope.Table.toJson_exact` — what a table is written as;
* `Scope.Table.nodup_shown_iff` — when all keys are shown differently;
* `Scope.Table.toJson_integer_text` — what becomes of an integer and its text;
* `Scope.Value.Legible` — all keys are shown differently, at every level;
* `Scope.Table.toJson_of_same`, `Scope.Table.toJson_of_perm` — then tables that hold the
  same are written alike, in whatever order their entries are;
* `Scope.Table.toJson_swap_iff` — otherwise the order matters.
-/
import StoryPack.Scope.Json
import StoryPack.Proofs.Json.Members
import StoryPack.Proofs.Scope.Backing
import Std.Data.String.ToInt

namespace StoryPack.Scope

open Script.Table (maxSlot)

theorem entriesJson_eq_map (entries : List (Key × Value)) :
    entriesJson entries = entries.map fun e => (e.1, e.2.toJson) := by
  induction entries with
  | nil => rfl
  | cons e rest ih => rw [entriesJson, ih, List.map_cons]

theorem lookup_entriesJson (entries : List (Key × Value)) (k : Key) :
    (entriesJson entries).lookup k = (entries.lookup k).map Value.toJson := by
  rw [entriesJson_eq_map, Association.lookup_map]

theorem pickItems_eq_filterMap (entries : List (Key × Json)) (n : Nat) :
    pickItems entries n = (Key.upTo n).filterMap fun k => entries.lookup k := by
  rw [Key.upTo, List.filterMap_map]
  rfl

/-! ### Shown keys -/

/-- Different keys are shown alike only if one is an integer and the other one its text. -/
theorem Key.shown_inj_iff {k k' : Key} : k.shown = k'.shown ↔
    k = k' ∨ ∃ i, (k = .integer i ∧ k' = .text (toString i.toInt)) ∨
      (k = .text (toString i.toInt) ∧ k' = .integer i) := by
  cases k with
  | integer i =>
    cases k' with
    | integer j => simp [shown, Int.toString_eq_repr, Int.repr_inj, Int64.toInt_inj]
    | text s => simp [shown, eq_comm]
  | text s =>
    cases k' with
    | integer j => simp [shown]
    | text s' => simp [shown]

namespace Table

variable {t : Table} {n : Nat}

/-- The keys are the integers from 1 to `n`. -/
def Counts (t : Table) (n : Nat) : Prop := ∀ k, (t.get? k).isSome ↔ k ∈ Key.upTo n

/-- All keys are shown differently unless there is an integer together with its text. -/
theorem nodup_shown_iff (ht : (t.entries.map (·.1)).Nodup) :
    (t.entries.map (·.1.shown)).Nodup ↔
      ∀ i, (t.get? (.integer i)).isSome → t.get? (.text (toString i.toInt)) = none := by
  have hmap : t.entries.map (·.1.shown) = (t.entries.map (·.1)).map Key.shown := by
    rw [List.map_map]
    rfl
  rw [hmap]
  constructor
  · intro hnodup i hi
    refine Option.not_isSome_iff_eq_none.mp fun htext => ?_
    have heq := List.inj_on_of_nodup_map hnodup (isSome_get?_iff.mp hi)
      (isSome_get?_iff.mp htext) rfl
    cases heq
  · intro hnone
    refine ht.map_on fun k hk k' hk' heq => ?_
    rcases Key.shown_inj_iff.mp heq with rfl | ⟨i, ⟨rfl, rfl⟩ | ⟨rfl, rfl⟩⟩
    · rfl
    · have hboth := isSome_get?_iff.mpr hk'
      rw [hnone i (isSome_get?_iff.mpr hk)] at hboth
      cases hboth
    · have hboth := isSome_get?_iff.mpr hk
      rw [hnone i (isSome_get?_iff.mpr hk')] at hboth
      cases hboth

/-! ### Arrays -/

theorem Counts.size_eq (ht : (t.entries.map (·.1)).Nodup) (hsize : t.size < maxSlot)
    (h : t.Counts n) : t.size = n := by
  have hmax : maxSlot = 0x7fffffffffffffff := rfl
  refine Nat.le_antisymm ?_ ?_
  · have hsub : t.entries.map (·.1) ⊆ Key.upTo n := fun k hk =>
      (h k).mp (isSome_get?_iff.mpr hk)
    have hle := (ht.subperm hsub).length_le
    simpa [Key.upTo, size] using hle
  · -- a table with all integers would be too large
    have hkeys : ∀ i < min n (2 ^ 64), (t.get? (.integer (Int64.ofNat (i + 1)))).isSome :=
      fun i hi => (h _).mpr (List.mem_map_of_mem (List.mem_range.mpr (by omega)))
    have hle := le_size_of_isSome (Nat.min_le_right ..) hkeys
    omega

theorem Counts.numbers (hn : n ≤ maxSlot) (h : t.Counts n) : t.Numbers n where
  le := hn
  key_iff i hi := by
    rw [h, Key.upTo, List.mem_map]
    constructor
    · rintro ⟨j, hj, heq⟩
      rw [List.mem_range] at hj
      rw [← Key.integer.inj heq, toInt_ofNat (by omega)]
      omega
    · intro hle
      refine ⟨i.toInt.toNat - 1, List.mem_range.mpr (by omega),
        congrArg Key.integer (Int64.toInt_inj.mp ?_)⟩
      rw [toInt_ofNat (by omega)]
      omega

/-- A table is written as an array when its keys are the integers from 1 to some number. -/
theorem isSequence_iff (ht : (t.entries.map (·.1)).Nodup) (hsize : t.size < maxSlot) :
    t.isSequence = true ↔ ∃ n, 0 < n ∧ t.Counts n := by
  have hmax : maxSlot = 0x7fffffffffffffff := rfl
  rw [isSequence, Bool.and_eq_true, decide_eq_true_iff, beq_iff_eq]
  constructor
  · rintro ⟨hpos, hall⟩
    refine ⟨t.size, by omega, ?_⟩
    -- there are as many keys as there are integers in the sequence part
    have hsub : Key.upTo t.size ⊆ t.entries.map (·.1) := by
      intro k hk
      obtain ⟨i, hi, rfl⟩ := List.mem_map.mp hk
      have hlt : i < t.sequenceLength := hall ▸ List.mem_range.mp hi
      exact isSome_get?_iff.mp (isSome_of_lt_sequenceFrom (Nat.zero_le i) hlt)
    have hperm : (Key.upTo t.size).Perm (t.entries.map (·.1)) :=
      ((Key.nodup_upTo (by omega)).subperm hsub).perm_of_length_le (by simp [Key.upTo, size])
    exact fun k => isSome_get?_iff.trans hperm.mem_iff.symm
  · rintro ⟨n, hpos, hcounts⟩
    have hn := hcounts.size_eq ht hsize
    rw [(hcounts.numbers (by omega)).sequenceLength (by omega), hn]
    exact ⟨hpos, rfl⟩

/-- The items of the array are the values at 1, 2 and so on. -/
theorem toJson_of_counts (ht : (t.entries.map (·.1)).Nodup) (hsize : t.size < maxSlot)
    (hpos : 0 < n) (h : t.Counts n) : ∃ vs : List Value,
      (Key.upTo n).map t.get? = vs.map some ∧ t.toJson = .arr (vs.map Value.toJson) := by
  have hn := h.size_eq ht hsize
  refine ⟨(Key.upTo n).filterMap t.get?, ?_, ?_⟩
  · rw [List.map_filterMap_some_eq_filter_map_isSome, List.filter_eq_self.mpr]
    intro o ho
    obtain ⟨k, hk, rfl⟩ := List.mem_map.mp ho
    exact (h k).mpr hk
  · rw [toJson, tableJson, if_pos ((isSequence_iff ht hsize).mpr ⟨n, hpos, h⟩),
      (h.numbers (by omega)).sequenceLength (by omega), pickItems_eq_filterMap, List.map_filterMap]
    simp only [lookup_entriesJson]
    rfl

/-! ### Objects -/

/-- The last entry whose key is shown in a way. -/
def shownAs (t : Table) (name : String) : Option (Key × Value) :=
  (t.entries.filter (·.1.shown == name)).getLast?

theorem toJson_of_not_isSequence (h : t.isSequence = false) :
    t.toJson = Json.ofMembers (t.entries.map fun e => (e.1.shown, e.2.toJson)) := by
  rw [toJson, tableJson, h, entriesJson_eq_map, List.map_map]
  rfl

theorem lastOf_shown (t : Table) (name : String) :
    Json.lastOf (t.entries.map fun e => (e.1.shown, e.2.toJson)) name =
      (t.shownAs name).map fun e => (e.1.shown, e.2.toJson) := by
  rw [Json.lastOf, List.filter_map, List.getLast?_map]
  rfl

/-- What a table of different keys is written as: an array of the values at the keys from 1 to some
number, when there are no others, and otherwise an object.  In the object there is, under each name,
the value of the last entry whose key is shown so.  It has a member for each entry unless an integer
and its text are both keys.  (No table has so many entries that it runs out of integers.) -/
theorem toJson_exact (ht : (t.entries.map (·.1)).Nodup) (hsize : t.size < maxSlot) :
    (∀ n, 0 < n → t.Counts n → ∃ vs : List Value,
      (Key.upTo n).map t.get? = vs.map some ∧ t.toJson = .arr (vs.map Value.toJson)) ∧
    ((¬∃ n, 0 < n ∧ t.Counts n) → ∃ members, t.toJson = .obj members ∧
      members.Pairwise (fun a b => a.1 < b.1) ∧
      (∀ name, members.lookup name = (t.shownAs name).map (·.2.toJson)) ∧
      (members.length = t.size ↔
        ∀ i, (t.get? (.integer i)).isSome → t.get? (.text (toString i.toInt)) = none)) := by
  refine ⟨fun n hpos hcounts => toJson_of_counts ht hsize hpos hcounts, fun hnot => ?_⟩
  have hsequence : t.isSequence = false :=
    Bool.eq_false_iff.mpr fun h => hnot ((isSequence_iff ht hsize).mp h)
  refine ⟨_, toJson_of_not_isSequence hsequence, Json.ascending_membersOf _, fun name => ?_, ?_⟩
  · rw [Json.lookup_membersOf, lastOf_shown, Option.map_map]
    rfl
  · have hlength :=
      Json.length_membersOf_eq_iff (t.entries.map fun e => (e.1.shown, e.2.toJson))
    rw [List.length_map, List.map_map] at hlength
    exact hlength.trans (nodup_shown_iff ht)

/-! ### An integer and its text -/

/-- A table with a text among its keys is written as an object. -/
theorem isSequence_of_text (ht : (t.entries.map (·.1)).Nodup) (hsize : t.size < maxSlot)
    {s : String} (hs : (t.get? (.text s)).isSome) : t.isSequence = false := by
  refine Bool.eq_false_iff.mpr fun h => ?_
  obtain ⟨n, -, hcounts⟩ := (isSequence_iff ht hsize).mp h
  obtain ⟨i, -, heq⟩ := List.mem_map.mp ((hcounts _).mp hs)
  cases heq

/-- An integer and its text are one member, with the value of the later entry. -/
theorem toJson_integer_text (i : Int64) (v w : Value) :
    toJson ⟨[(.integer i, v), (.text (toString i.toInt), w)]⟩ =
      .obj [(toString i.toInt, w.toJson)] ∧
    toJson ⟨[(.text (toString i.toInt), w), (.integer i, v)]⟩ =
      .obj [(toString i.toInt, v.toJson)] := by
  have hobject (t : Table) (ht : (t.entries.map (·.1)).Nodup) (hsize : t.size = 2)
      (htext : .text (toString i.toInt) ∈ t.entries.map (·.1)) : t.isSequence = false :=
    isSequence_of_text ht (hsize ▸ by decide) (isSome_get?_iff.mpr htext)
  constructor
  · rw [toJson_of_not_isSequence (hobject _ (by simp) rfl (by simp))]
    exact congrArg Json.obj (Json.membersOf_pair ..)
  · rw [toJson_of_not_isSequence (hobject _ (by simp) rfl (by simp))]
    exact congrArg Json.obj (Json.membersOf_pair ..)

end Table

/-! ### Tables that hold the same -/

namespace Value

variable {v w : Value} {entries entries' : List (Key × Value)}

mutual

/-- The keys of a table are shown differently, and so are those of all tables in it. -/
def Legible : Value → Prop
  | .table entries => (entries.map (·.1.shown)).Nodup ∧ entriesLegible entries
  | _ => True

/-- The keys of all tables in entries are shown differently. -/
def entriesLegible : List (Key × Value) → Prop
  | [] => True
  | (_, v) :: rest => v.Legible ∧ entriesLegible rest

end

theorem entriesLegible_iff : entriesLegible entries ↔ ∀ e ∈ entries, e.2.Legible := by
  induction entries with
  | nil => simp [entriesLegible]
  | cons e rest ih => simp [entriesLegible, ih]

theorem Legible.keys (h : (Value.table entries).Legible) : (entries.map (·.1)).Nodup :=
  .of_map Key.shown (by rw [List.map_map]; exact h.1)

mutual

theorem Legible.keyed (v : Value) (h : v.Legible) : v.Keyed := by
  cases v with
  | table entries => exact ⟨Legible.keys h, entriesLegible_keyed entries h.2⟩
  | _ => trivial

theorem entriesLegible_keyed (entries : List (Key × Value)) (h : entriesLegible entries) :
    entriesKeyed entries := by
  cases entries with
  | nil => trivial
  | cons e rest =>
    obtain ⟨k, v⟩ := e
    exact ⟨Legible.keyed v h.1, entriesLegible_keyed rest h.2⟩

end

theorem leaf?_eq_none_iff : v.leaf? = none ↔ ∃ entries, v = .table entries := by
  cases v <;> simp [leaf?]

theorem eq_of_leaf? {a : Script.Value} (hv : v.leaf? = some a) (hw : w.leaf? = some a) : v = w := by
  cases v <;> cases hv <;> cases w <;> simp_all [leaf?, String.toByteArray_inj]

theorem at?_nil (v : Value) : v.at? [] = some v := by
  cases v <;> rfl

/-- What tables hold under a key, when they hold the same. -/
theorem Same.lookup (h : (Value.table entries).Same (.table entries')) (k : Key) :
    (entries.lookup k = none ∧ entries'.lookup k = none) ∨
      ∃ v w, entries.lookup k = some v ∧ entries'.lookup k = some w ∧ v.Same w := by
  have hpath (path : List Key) :
      ((entries.lookup k).bind fun v => v.at? path).map leaf? =
        ((entries'.lookup k).bind fun w => w.at? path).map leaf? := h (k :: path)
  cases hv : entries.lookup k with
  | none =>
    cases hw : entries'.lookup k with
    | none => exact .inl ⟨rfl, rfl⟩
    | some w =>
      have hend := hpath []
      rw [hv, hw, Option.bind_none, Option.bind_some, at?_nil] at hend
      cases hend
  | some v =>
    cases hw : entries'.lookup k with
    | none =>
      have hend := hpath []
      rw [hv, hw, Option.bind_none, Option.bind_some, at?_nil] at hend
      cases hend
    | some w =>
      refine .inr ⟨v, w, rfl, rfl, fun path => ?_⟩
      have hboth := hpath path
      rwa [hv, hw, Option.bind_some, Option.bind_some] at hboth

/-- Tables with the same entries hold the same, in whatever order they list them. -/
theorem Same.of_perm (h : entries.Perm entries') (hkeys : (entries.map (·.1)).Nodup) :
    (Value.table entries).Same (.table entries') := by
  intro path
  cases path with
  | nil => rfl
  | cons k path =>
    have hat (entries : List (Key × Value)) : (Value.table entries).at? (k :: path) =
        (entries.lookup k).bind fun v => v.at? path := rfl
    rw [hat, hat, Association.lookup_of_perm h hkeys]

theorem keys_entriesJson (entries : List (Key × Value)) :
    (entriesJson entries).map (·.1) = entries.map (·.1) := by
  rw [entriesJson_eq_map, List.map_map]
  rfl

/-- Entries that are written alike under each key make the same JSON, when their keys are shown
differently. -/
theorem tableJson_of_lookup (hkeys : (entries.map (·.1)).Nodup)
    (hkeys' : (entries'.map (·.1)).Nodup) (hshown : (entries.map (·.1.shown)).Nodup)
    (h : ∀ k, (entriesJson entries).lookup k = (entriesJson entries').lookup k) :
    tableJson ⟨entries⟩ (entriesJson entries) = tableJson ⟨entries'⟩ (entriesJson entries') := by
  have hperm : (entriesJson entries).Perm (entriesJson entries') :=
    Association.perm_of_lookup (by rwa [keys_entriesJson]) (by rwa [keys_entriesJson]) h
  have hsize : Table.size ⟨entries⟩ = Table.size ⟨entries'⟩ := by
    have hlength := hperm.length_eq
    rwa [entriesJson_eq_map, entriesJson_eq_map, List.length_map, List.length_map] at hlength
  have hlength : Table.sequenceLength ⟨entries⟩ = Table.sequenceLength ⟨entries'⟩ := by
    refine Table.sequenceLength_congr hsize fun k => ?_
    have hsome := congrArg Option.isSome (h k)
    rwa [lookup_entriesJson, lookup_entriesJson, Option.isSome_map, Option.isSome_map] at hsome
  have hmembers : Json.ofMembers ((entriesJson entries).map fun e => (e.1.shown, e.2)) =
      Json.ofMembers ((entriesJson entries').map fun e => (e.1.shown, e.2)) := by
    refine congrArg Json.obj (Json.membersOf_of_perm (hperm.map _) ?_)
    rw [entriesJson_eq_map, List.map_map, List.map_map]
    exact hshown
  have hsequence : Table.isSequence ⟨entries⟩ = Table.isSequence ⟨entries'⟩ := by
    rw [Table.isSequence, hlength, hsize, Table.isSequence]
  have hitems (n : Nat) :
      pickItems (entriesJson entries) n = pickItems (entriesJson entries') n := by
    simp only [pickItems, h]
  rw [tableJson, hsequence, hlength, hitems, hmembers, tableJson]

mutual

/-- Values that hold the same are written alike, when all keys are shown differently. -/
theorem toJson_of_same (v : Value) {w : Value} (hv : v.Legible) (hw : w.Keyed) (h : v.Same w) :
    v.toJson = w.toJson := by
  have hend : v.leaf? = w.leaf? := by
    have hnil := h []
    rwa [at?_nil, at?_nil, Option.map_some, Option.map_some, Option.some_inj] at hnil
  -- both are the same value that is no table, or both are tables
  cases hleaf : v.leaf? with
  | some a => rw [eq_of_leaf? hleaf (hend ▸ hleaf)]
  | none =>
    obtain ⟨entries', rfl⟩ := leaf?_eq_none_iff.mp (hend ▸ hleaf)
    cases v with
    | table entries =>
      have hkeys := Legible.keys hv
      obtain ⟨hshown, hlegible⟩ := hv
      obtain ⟨hkeys', hkeyed⟩ := hw
      refine tableJson_of_lookup hkeys hkeys' hshown fun k => ?_
      rw [lookup_entriesJson, lookup_entriesJson]
      rcases h.lookup k with ⟨hnone, hnone'⟩ | ⟨u, u', hu, hu', hsame⟩
      · rw [hnone, hnone']
      · rw [hu, hu', Option.map_some, Option.map_some,
          toJson_of_same_of_mem entries (k, u) (Association.mem_of_lookup hu)
            (entriesLegible_iff.mp hlegible _ (Association.mem_of_lookup hu))
            (entriesKeyed_iff.mp hkeyed _ (Association.mem_of_lookup hu')) hsame]
    | _ => cases hleaf

theorem toJson_of_same_of_mem (entries : List (Key × Value)) (e : Key × Value) (he : e ∈ entries)
    {w : Value} (hv : e.2.Legible) (hw : w.Keyed) (h : e.2.Same w) : e.2.toJson = w.toJson := by
  cases entries with
  | nil => cases he
  | cons first rest =>
    obtain ⟨k, v⟩ := first
    rcases List.mem_cons.mp he with rfl | he
    · exact toJson_of_same v hv hw h
    · exact toJson_of_same_of_mem rest e he hv hw h

end

end Value

namespace Table

/-- Tables that hold the same are written alike, when their keys are shown differently at every
level, whatever the orders of their entries. -/
theorem toJson_of_same {s t : Table} (hs : s.value.Legible) (ht : t.Keyed) (h : s.Same t) :
    s.toJson = t.toJson :=
  s.value.toJson_of_same hs ht h

/-- Then the entries of a table may be listed in any order. -/
theorem toJson_of_perm {s t : Table} (hs : s.value.Legible) (h : s.entries.Perm t.entries) :
    s.toJson = t.toJson := by
  have hkeys := Value.Legible.keys hs
  refine toJson_of_same hs ⟨((h.map _).nodup_iff).mp hkeys, ?_⟩ (Value.Same.of_perm h hkeys)
  obtain ⟨-, hkeyed⟩ := Value.Legible.keyed _ hs
  rw [Value.entriesKeyed_iff] at hkeyed ⊢
  exact fun e he => hkeyed e (h.mem_iff.mpr he)

/-- Where an integer and its text are both keys, tables that hold the same are written alike only if
the values of both are. -/
theorem toJson_swap_iff (i : Int64) {v w : Value} :
    toJson ⟨[(.integer i, v), (.text (toString i.toInt), w)]⟩ =
      toJson ⟨[(.text (toString i.toInt), w), (.integer i, v)]⟩ ↔ w.toJson = v.toJson := by
  rw [(toJson_integer_text i v w).1, (toJson_integer_text i v w).2]
  simp

end Table

end StoryPack.Scope
