/-
The order of processing.

Entries are sorted by rank, then by their names, in the lexicographic order of
the names.  So what a sort yields has the entries it was given, and none comes
after one of a higher rank.  Where no two entries tie, there is one ascending
order of them only.

* `Address.compare_eq` — the order is a lexicographic product;
* `Address.compare_eq_eq_iff` — what ties;
* `Entry.sort_perm` — a sort changes the order only;
* `Entry.pairwise_sort` — and brings the entries into ascending order;
* `Entry.pairwise_rank_sort` — so the ranks ascend;
* `Entry.sort_eq_of_perm` — and entries that do not tie are sorted in one way.
-/
import StoryPack.Entry.Basic
import StoryPack.Proofs.StableSort

namespace StoryPack

open Std

theorem Address.compareNames_eq (a b : List String) :
    Address.compareNames a b = List.compareLex Ord.compare a b := by
  induction a generalizing b with
  | nil => cases b <;> simp [compareNames, List.compareLex_nil_nil, List.compareLex_nil_cons]
  | cons first rest ih =>
    cases b with
    | nil => simp [compareNames, List.compareLex_cons_nil]
    | cons first' rest' => rw [compareNames, List.compareLex_cons_cons, ih]

/-- The order of addresses compares the ranks, then the lists of names. -/
theorem Address.compare_eq :
    Address.compare = compareLex (compareOn fun a => a.kind.rank) (compareOn fun a => a.names) := by
  funext a b
  rw [Address.compare, compareLex, compareNames_eq]
  rfl

theorem Address.compareNames_eq_eq_iff {a b : List String} :
    Address.compareNames a b = .eq ↔ a = b := by
  induction a generalizing b with
  | nil => cases b <;> simp [compareNames]
  | cons first rest ih =>
    cases b with
    | nil => simp [compareNames]
    | cons first' rest' =>
      rw [compareNames, Ordering.then_eq_eq, Std.compare_eq_iff_eq, ih, List.cons.injEq]

/-- Addresses tie that are equal, and those of actions of both authors under one name. -/
theorem Address.compare_eq_eq_iff {a b : Address} : Address.compare a b = .eq ↔
    a = b ∨ ∃ author author' p s n,
      a = .script (.action author p s n) ∧ b = .script (.action author' p s n) := by
  rw [Address.compare, Ordering.then_eq_eq, Std.compare_eq_iff_eq, compareNames_eq_eq_iff]
  constructor
  · rintro ⟨hrank, hnames⟩
    rcases a with _ | ⟨_ | _ | _ | ⟨_ | _, _, _, _⟩⟩ <;>
      rcases b with _ | ⟨_ | _ | _ | ⟨_ | _, _, _, _⟩⟩ <;>
        grind [kind, Kind.rank, names]
  · rintro (rfl | ⟨author, author', p, s, n, rfl, rfl⟩)
    · exact ⟨rfl, rfl⟩
    · cases author <;> cases author' <;> exact ⟨rfl, rfl⟩

instance : TransCmp Address.compare := by
  rw [Address.compare_eq]
  infer_instance

instance : TransCmp Entry.compare where
  eq_swap {a b} :=
    show Address.compare a.address b.address = (Address.compare b.address a.address).swap from
      OrientedCmp.eq_swap
  isLE_trans {a b c} hab hbc :=
    show (Address.compare a.address c.address).isLE from
      TransCmp.isLE_trans (show (Address.compare a.address b.address).isLE from hab) hbc

namespace Entry

/-- The rank of an entry. -/
def rank (e : Entry) : Nat := e.address.kind.rank

theorem rank_le_of_compare {a b : Entry} (h : (compare a b).isLE) : a.rank ≤ b.rank := by
  rw [compare, Address.compare_eq, compareLex] at h
  have hrank : (compareOn (fun a : Address => a.kind.rank) a.address b.address).isLE := by
    generalize compareOn (fun a : Address => a.kind.rank) a.address b.address = o at h ⊢
    cases o <;> simp_all
  exact Nat.isLE_compare.mp hrank

/-- A sort changes the order of the entries only. -/
theorem sort_perm (es : List Entry) : (sort es).Perm es := List.mergeSort_perm es _

theorem sort_eq_mergeSort (es : List Entry) :
    sort es = es.mergeSort fun a b => (compare a b).isLE := by
  have hle : ∀ a b : Entry, (compare a b != .gt) = (compare a b).isLE := fun a b => by
    cases compare a b <;> rfl
  simp only [sort, hle]

/-- Sorted entries are in ascending order. -/
theorem pairwise_sort (es : List Entry) : (sort es).Pairwise fun a b => (compare a b).isLE := by
  rw [sort_eq_mergeSort]
  exact StableSort.pairwise_mergeSort es

/-- No entry comes after one of a higher rank. -/
theorem pairwise_rank_sort (es : List Entry) : (sort es).Pairwise fun a b => a.rank ≤ b.rank :=
  (pairwise_sort es).imp rank_le_of_compare

/-- No two of the entries tie. -/
def Untied (es : List Entry) : Prop := es.Pairwise fun a b => compare a b ≠ .eq

instance : Symm fun a b : Entry => compare a b ≠ .eq :=
  ⟨fun _ _ hab hba => hab (OrientedCmp.eq_comm.mp hba)⟩

theorem Untied.of_perm {es es' : List Entry} (hperm : es.Perm es') (h : Untied es) : Untied es' :=
  (hperm.pairwise_iff fun hab hba => hab (OrientedCmp.eq_comm.mp hba)).mp h

theorem Untied.eq_of_compare {es : List Entry} (h : Untied es) {a b : Entry} (ha : a ∈ es)
    (hb : b ∈ es) (htie : compare a b = .eq) : a = b := by
  by_cases hab : a = b
  · exact hab
  · exact absurd htie (List.Pairwise.forall h ha hb hab)

/-- Entries that do not tie are sorted in one way, in whatever order they are listed. -/
theorem sort_eq_of_perm {es es' : List Entry} (hperm : es.Perm es') (h : Untied es) :
    sort es = sort es' := by
  have hsorted : (sort es).Perm (sort es') :=
    (sort_perm es).trans (hperm.trans (sort_perm es').symm)
  refine hsorted.eq_of_pairwise (fun a b ha hb hab hba => ?_) (pairwise_sort es) (pairwise_sort es')
  have hmem : a ∈ es ∧ b ∈ es :=
    ⟨(sort_perm es).mem_iff.mp ha, hperm.mem_iff.mpr ((sort_perm es').mem_iff.mp hb)⟩
  exact h.eq_of_compare hmem.1 hmem.2 (OrientedCmp.isLE_antisymm hab hba)

end Entry

end StoryPack
