/-
What a snapshot looks at, and in which order.

The entries of a table are what is found in it, each key once, whatever its
layout.  A snapshot splits them in two at a border: the integers up to there, and
all other entries.  No entry is left out or taken twice, whichever border the
layout leads to, and the entries 1, 2, …, n that run without a gap come first.

* `Table.Sound.mem_entries_iff`, `Table.Sound.nodup_entries` — the entries;
* `Table.Sound.mem_snapshotOrder_iff`, `Table.Sound.nodup_snapshotOrder` — what a
  snapshot looks at;
* `Table.Sound.getElem?_snapshotOrder` — the sequence part comes first.
-/
import StoryPack.Proofs.Confinement.Snapshot
import StoryPack.Proofs.Script.Border

namespace StoryPack.Script

namespace Table

variable {t : Table}

theorem entries_eq (t : Table) :
    t.entries = t.arrayEntries 0 t.array.size ++ t.slotEntries := by
  unfold entries arrayEntries slotEntries
  simp only [Nat.zero_add]

/-- The entries of a table are what is found in it. -/
theorem Sound.mem_entries_iff (ht : t.Sound) {k : Key} {v : Value} :
    (k, v) ∈ t.entries ↔ t.get k = v ∧ v.isNil = false := by
  have hmoved := @Sound.mem_moved_iff t ht 0 k v
  rw [Nat.sub_zero, ← ht.get_eq_find] at hmoved
  rw [entries_eq, List.mem_append, or_comm, ← List.mem_append, hmoved]
  simp

/-- No key has two entries. -/
theorem Sound.nodup_entries (ht : t.Sound) : (t.entries.map (·.1)).Nodup := by
  rw [entries_eq, List.map_append]
  refine List.nodup_append.mpr
    ⟨pairwise_arrayEntries ht.bound 0, ht.pairwise_slotEntries, ?_⟩
  rintro k hk k' hk' rfl
  obtain ⟨⟨_, v⟩, hv, rfl⟩ := List.mem_map.mp hk
  obtain ⟨⟨_, v'⟩, hv', heq⟩ := List.mem_map.mp hk'
  cases heq
  -- the integers of the array have no slots
  obtain ⟨n, hn, -⟩ := ht.mem_slotEntries_iff.mp hv'
  obtain ⟨m, -, hm, -⟩ := (mem_arrayEntries_iff ht.bound).mp hv
  rw [ht.apart hm] at hn
  cases hn

/-- The integers from 1 up to a border. -/
theorem between_iff {i : Int64} {b : Nat} (hb : b ≤ maxSlot) :
    1 ≤ i.toInt ∧ i.toInt ≤ b ↔ ∃ n < b, i = Int64.ofNat (n + 1) := by
  have hmax : maxSlot = 0x7fffffffffffffff := rfl
  constructor
  · rintro ⟨hpos, hle⟩
    have hclamp : i.toNatClampNeg = i.toInt.toNat := rfl
    refine ⟨i.toNatClampNeg - 1, by omega, ?_⟩
    rw [Nat.sub_add_cancel (by omega)]
    refine (Int64.ofNat_toNatClampNeg i ?_).symm
    rw [Int64.le_iff_toInt_le]
    exact Int.le_of_lt hpos
  · rintro ⟨n, hn, rfl⟩
    rw [Int64.toInt_ofNat_of_lt (by omega)]
    omega

/-- The integers up to the border of a table, with their values. -/
def sequencePart (t : Table) : List (Key × Value) :=
  (List.range t.length).filterMap fun i =>
    if (t.get (.int (Int64.ofNat (i + 1)))).isNil then none
    else some (.int (Int64.ofNat (i + 1)), t.get (.int (Int64.ofNat (i + 1))))

/-- The other entries. -/
def otherPart (t : Table) : List (Key × Value) :=
  t.entries.filter fun e =>
    match e.1 with
    | .int i => !(1 ≤ i.toInt && i.toInt ≤ t.length)
    | _ => true

theorem snapshotOrder_eq (t : Table) :
    Heap.snapshotOrder t = t.sequencePart ++ t.otherPart := rfl

/-- A key is one of the integers up to the border. -/
def Below (t : Table) (k : Key) : Prop :=
  ∃ i : Int64, k = .int i ∧ 1 ≤ i.toInt ∧ i.toInt ≤ t.length

theorem Sound.mem_sequencePart_iff (ht : t.Sound) {k : Key} {v : Value} :
    (k, v) ∈ t.sequencePart ↔ t.Below k ∧ t.get k = v ∧ v.isNil = false := by
  simp only [sequencePart, Below, List.mem_filterMap, List.mem_range,
    between_iff ht.endsAt_length.1]
  constructor
  · rintro ⟨n, hn, hentry⟩
    split at hentry
    · cases hentry
    · cases hentry
      exact ⟨⟨_, rfl, n, hn, rfl⟩, rfl, Bool.eq_false_iff.mpr ‹_›⟩
  · rintro ⟨⟨i, rfl, n, hn, rfl⟩, rfl, hnil⟩
    exact ⟨n, hn, by rw [hnil]; rfl⟩

theorem Sound.mem_otherPart_iff (ht : t.Sound) {k : Key} {v : Value} :
    (k, v) ∈ t.otherPart ↔ ¬t.Below k ∧ t.get k = v ∧ v.isNil = false := by
  rw [otherPart, List.mem_filter, ht.mem_entries_iff, and_comm]
  refine and_congr ?_ Iff.rfl
  cases k with
  | int i =>
    simp only [Below, Key.int.injEq, exists_eq_left', Bool.not_eq_true', Bool.and_eq_false_iff,
      decide_eq_false_iff_not, not_and_or]
  | _ => simp [Below]

/-- A snapshot looks at what is found in a table. -/
theorem Sound.mem_snapshotOrder_iff (ht : t.Sound) {k : Key} {v : Value} :
    (k, v) ∈ Heap.snapshotOrder t ↔ t.get k = v ∧ v.isNil = false := by
  rw [snapshotOrder_eq, List.mem_append, ht.mem_sequencePart_iff, ht.mem_otherPart_iff,
    ← or_and_right]
  exact and_iff_right (Classical.em _)

/-- It looks at no key twice. -/
theorem Sound.nodup_snapshotOrder (ht : t.Sound) : ((Heap.snapshotOrder t).map (·.1)).Nodup := by
  have hle := ht.endsAt_length.1
  rw [snapshotOrder_eq, List.map_append]
  refine List.nodup_append.mpr ⟨?_, ht.nodup_entries.sublist (List.filter_sublist.map _), ?_⟩
  · -- the integers up to the border are different
    rw [sequencePart, List.Nodup, List.pairwise_map, List.pairwise_filterMap]
    refine List.Pairwise.imp_of_mem ?_ List.pairwise_lt_range
    intro i j hi hj hlt e he e' he' heq
    rw [List.mem_range] at hi hj
    split at he <;> cases he
    split at he' <;> cases he'
    have := ofNat_inj (by omega) (by omega) (Key.int.inj heq)
    omega
  · rintro k hk k' hk' rfl
    obtain ⟨⟨_, v⟩, hv, rfl⟩ := List.mem_map.mp hk
    obtain ⟨⟨_, v'⟩, hv', heq⟩ := List.mem_map.mp hk'
    cases heq
    exact (ht.mem_otherPart_iff.mp hv').1 (ht.mem_sequencePart_iff.mp hv).1

theorem getElem?_filterMap_range {α : Type} {f : Nat → Option α} {g : Nat → α} {m n j : Nat}
    (hmn : m ≤ n) (hf : ∀ i < m, f i = some (g i)) (hj : j < m) :
    ((List.range n).filterMap f)[j]? = some (g j) := by
  obtain ⟨c, rfl⟩ := Nat.exists_eq_add_of_le hmn
  have hmap : (List.range m).filterMap f = (List.range m).map g := by
    clear hmn hj
    induction m with
    | zero => rfl
    | succ m ih =>
      rw [List.range_succ, List.filterMap_append, List.map_append,
        ih fun i hi => hf i (Nat.lt_succ_of_lt hi)]
      simp [hf m (Nat.lt_succ_self m)]
  rw [List.range_add, List.filterMap_append, hmap, List.getElem?_append_left (by simpa using hj)]
  simp [hj]

/-- The integers that run without a gap from 1 are in the sequence. -/
def Runs (t : Table) (n : Nat) : Prop :=
  n ≤ maxSlot ∧ ∀ i < n, (t.get (.int (Int64.ofNat (i + 1)))).isNil = false

/-- A run from 1 does not go beyond the border. -/
theorem Sound.le_length_of_runs (ht : t.Sound) {n : Nat} (hn : t.Runs n) : n ≤ t.length := by
  obtain ⟨hle, hlast | hafter⟩ := ht.endsAt_length
  · exact hlast ▸ hn.1
  · refine Nat.le_of_not_lt fun hlt => ?_
    have hpresent := hn.2 t.length hlt
    rw [hafter] at hpresent
    cases hpresent

/-- The entries that run without a gap from 1 come first, in their order. -/
theorem Sound.getElem?_snapshotOrder (ht : t.Sound) {n i : Nat} (hn : t.Runs n) (hi : i < n) :
    (Heap.snapshotOrder t)[i]? =
      some (.int (Int64.ofNat (i + 1)), t.get (.int (Int64.ofNat (i + 1)))) := by
  have hentry : t.sequencePart[i]? =
      some (.int (Int64.ofNat (i + 1)), t.get (.int (Int64.ofNat (i + 1)))) :=
    getElem?_filterMap_range (ht.le_length_of_runs hn)
      (g := fun i => (Key.int (Int64.ofNat (i + 1)), t.get (.int (Int64.ofNat (i + 1)))))
      (fun i hi => if_neg (Bool.eq_false_iff.mp (hn.2 i hi))) hi
  rw [snapshotOrder_eq, List.getElem?_append_left (List.getElem?_eq_some_iff.mp hentry).1, hentry]

end Table

end StoryPack.Script
