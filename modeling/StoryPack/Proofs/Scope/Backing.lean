/-
Tables that hold what a scope does.

A table that has the keys of a scope has its entries as well, in an order of its
own.  Its length is a border of the integers among the keys.  Where these run
from 1 without a gap, there is only one border, which is the length of the
sequence part; with gaps there may be others.

* `Table.Carries` — a table with the keys of a scope;
* `Table.Carries.perm_entries`, `Table.Carries.border` — its entries, and its length;
* `Scope.Table.get?_sequenceLength` — the sequence part ends with a gap;
* `Scope.Table.Border.eq_of_numbers` — the only border, where there is no gap.
-/
import StoryPack.Proofs.Scope.Snapshot

namespace StoryPack

open Script.Table (maxSlot)

namespace Scope

/-- The integers from 1 to `n`, as keys. -/
def Key.upTo (n : Nat) : List Key := (List.range n).map fun i => .integer (Int64.ofNat (i + 1))

theorem Key.nodup_upTo {n : Nat} (hn : n ≤ 2 ^ 64) : (Key.upTo n).Nodup := by
  refine List.Nodup.map_on (fun i hi j hj heq => ?_) List.nodup_range
  have hbits := congrArg (fun i : Int64 => i.toBitVec.toNat) (Key.integer.inj heq)
  simp only [Int64.toBitVec_ofNat', BitVec.toNat_ofNat] at hbits
  rw [List.mem_range] at hi hj
  omega

namespace Table

variable {t : Table} {m n : Nat}

/-- A border of the integers among the keys: this integer is a key, unless it is zero, and the next
one is none, unless there is no next one. -/
structure Border (t : Table) (n : Nat) : Prop where
  le : n ≤ maxSlot
  present : n = 0 ∨ (t.get? (.integer (Int64.ofNat n))).isSome
  absent : n = maxSlot ∨ t.get? (.integer (Int64.ofNat (n + 1))) = none

/-- The positive integers among the keys are those from 1 to `m`. -/
structure Numbers (t : Table) (m : Nat) : Prop where
  le : m ≤ maxSlot
  key_iff : ∀ i : Int64, 0 < i.toInt → ((t.get? (.integer i)).isSome ↔ i.toInt ≤ m)

theorem toInt_ofNat (hn : n ≤ maxSlot) : (Int64.ofNat n).toInt = n := by
  have hmax : maxSlot = 0x7fffffffffffffff := rfl
  exact Int64.toInt_ofNat_of_lt (by omega)

theorem Numbers.isSome_iff (hm : t.Numbers m) (hpos : 0 < n) (hn : n ≤ maxSlot) :
    (t.get? (.integer (Int64.ofNat n))).isSome ↔ n ≤ m := by
  have hint := toInt_ofNat hn
  rw [hm.key_iff _ (by omega), hint]
  omega

/-- Without a gap there is one border. -/
theorem Border.eq_of_numbers (hn : t.Border n) (hm : t.Numbers m) : n = m := by
  have hmax := hm.le
  have hle := hn.le
  have hnm : n ≤ m := by
    by_cases hzero : n = 0
    · omega
    · exact (hm.isSome_iff (by omega) hle).mp (hn.present.resolve_left hzero)
  refine Nat.le_antisymm hnm ?_
  obtain hlast | habsent := hn.absent
  · omega
  · -- the next integer is no key, so it is beyond the last one
    by_cases hlast : n = maxSlot
    · omega
    · have hnext := (hm.isSome_iff (n := n + 1) (by omega) (by omega)).not
      rw [habsent] at hnext
      have hnot : ¬n + 1 ≤ m := hnext.mp nofun
      omega

/-! ### The sequence part -/

/-- To count on ends after as many steps as it may take, or before an integer that is no key. -/
theorem sequenceFrom_cases (t : Table) (fuel n : Nat) :
    t.sequenceFrom fuel n = n + fuel ∨
      t.get? (.integer (Int64.ofNat (t.sequenceFrom fuel n + 1))) = none := by
  induction fuel generalizing n with
  | zero => exact .inl rfl
  | succ fuel ih =>
    unfold sequenceFrom
    split
    · obtain hall | hgap := ih (n + 1)
      · exact .inl (by omega)
      · exact .inr hgap
    · exact .inr (Option.not_isSome_iff_eq_none.mp ‹_›)

/-- There are no more integers in a sequence than there are entries. -/
theorem le_size_of_isSome (hm : m ≤ 2 ^ 64)
    (hkeys : ∀ i < m, (t.get? (.integer (Int64.ofNat (i + 1)))).isSome) : m ≤ t.size := by
  have hsub : Key.upTo m ⊆ t.entries.map (·.1) := by
    intro k hk
    obtain ⟨i, hi, rfl⟩ := List.mem_map.mp hk
    exact isSome_get?_iff.mp (hkeys i (List.mem_range.mp hi))
  have hle := ((Key.nodup_upTo hm).subperm hsub).length_le
  simpa [Key.upTo, size] using hle

/-- The sequence part ends with a gap, unless there are more entries than there are integers. -/
theorem get?_sequenceLength (hsize : t.size < 2 ^ 64) :
    t.get? (.integer (Int64.ofNat (t.sequenceLength + 1))) = none := by
  obtain hall | hgap := t.sequenceFrom_cases t.size 0
  · refine Option.not_isSome_iff_eq_none.mp fun hsome => ?_
    have hlength : t.sequenceLength = t.size := hall.trans (Nat.zero_add _)
    rw [hlength] at hsome
    have hle : t.size + 1 ≤ t.size := by
      refine le_size_of_isSome (by omega) fun i hi => ?_
      obtain hlt | rfl := Nat.lt_succ_iff_lt_or_eq.mp hi
      · exact isSome_of_lt_sequenceFrom (Nat.zero_le i) (hlength ▸ hlt)
      · exact hsome
    omega
  · exact hgap

/-- Without a gap, the sequence part is all there is of positive integers. -/
theorem Numbers.sequenceLength (hm : t.Numbers m) (hlt : m < maxSlot) : t.sequenceLength = m := by
  have hmax : maxSlot = 0x7fffffffffffffff := rfl
  have hkeys (i : Nat) (hi : i < m) : (t.get? (.integer (Int64.ofNat (i + 1)))).isSome :=
    (hm.isSome_iff (by omega) (by omega)).mpr (by omega)
  have hle : t.sequenceLength ≤ m := by
    refine Nat.le_of_not_lt fun hmore => ?_
    have hsome := isSome_of_lt_sequenceFrom (Nat.zero_le m) hmore
    have hnot := (hm.isSome_iff (n := m + 1) (by omega) (by omega)).mp hsome
    omega
  refine Nat.le_antisymm hle ?_
  obtain hall | hgap := t.sequenceFrom_cases t.size 0
  · have hsize := le_size_of_isSome (by omega) hkeys
    have hlength : t.sequenceLength = t.size := hall.trans (Nat.zero_add _)
    omega
  · refine Nat.le_of_not_lt fun hless => ?_
    have hsome := hkeys t.sequenceLength hless
    rw [show t.get? (.integer (Int64.ofNat (t.sequenceLength + 1))) = none from hgap] at hsome
    cases hsome

end Table

end Scope

namespace Script.Table

/-- A table with the keys of a scope, each of which has one entry in the scope. -/
structure Carries (t : Table) (scope : Scope.Table) : Prop where
  sound : t.Sound
  nodup : (scope.entries.map (·.1)).Nodup
  key_iff : ∀ k, (t.get k).isNil = false ↔ ∃ e ∈ scope.entries, k = Scope.Key.toScript e.1

namespace Carries

variable {t : Table} {scope : Scope.Table}

/-- The keys of the table are those that lead to something in the scope. -/
theorem isSome_iff (ht : t.Carries scope) (k : Scope.Key) :
    (t.get k.toScript).isNil = false ↔ (scope.get? k).isSome := by
  rw [ht.key_iff, Scope.Table.isSome_get?_iff, List.mem_map]
  constructor
  · rintro ⟨e, he, heq⟩
    exact ⟨e, he, (Scope.Key.toScript_inj heq).symm⟩
  · rintro ⟨e, he, rfl⟩
    exact ⟨e, he, rfl⟩

/-- Its entries are those of the scope. -/
theorem perm_entries (ht : t.Carries scope) :
    (scope.entries.map fun e => (e.1.toScript, t.get e.1.toScript)).Perm t.entries := by
  have hscope : (scope.entries.map fun e => (e.1.toScript, t.get e.1.toScript)).Nodup := by
    refine List.Nodup.of_map (·.1) ?_
    rw [List.map_map]
    have hkeys := ht.nodup.map (f := Scope.Key.toScript) fun _ _ => Scope.Key.toScript_inj
    rwa [List.map_map] at hkeys
  rw [List.perm_ext_iff_of_nodup hscope (.of_map _ ht.sound.nodup_entries)]
  rintro ⟨k, v⟩
  rw [ht.sound.mem_entries_iff, List.mem_map]
  constructor
  · rintro ⟨e, he, heq⟩
    cases heq
    exact ⟨rfl, (ht.key_iff _).mpr ⟨e, he, rfl⟩⟩
  · rintro ⟨rfl, hsome⟩
    obtain ⟨e, he, rfl⟩ := (ht.key_iff k).mp hsome
    exact ⟨e, he, rfl⟩

/-- Its length is a border of the scope. -/
theorem border (ht : t.Carries scope) : scope.Border t.length := by
  obtain ⟨hle, hafter⟩ := ht.sound.endsAt_length
  refine ⟨hle, ?_, ?_⟩
  · obtain hzero | hpresent := ht.sound.present_length
    · exact .inl hzero
    · exact .inr ((ht.isSome_iff (.integer _)).mp hpresent)
  · obtain hlast | habsent := hafter
    · exact .inl hlast
    · refine .inr (Option.not_isSome_iff_eq_none.mp fun hsome => ?_)
      have hnil := (ht.isSome_iff (.integer (Int64.ofNat (t.length + 1)))).mpr hsome
      have habsent : t.get (Scope.Key.integer (Int64.ofNat (t.length + 1))).toScript = .nil :=
        habsent
      rw [habsent] at hnil
      cases hnil

end Carries

end Script.Table

end StoryPack
