/-
Stable sorting.

Items are compared by a total preorder, so that different items may tie.  A stable
sort keeps the items that tie in the order in which they were listed.  Then there is
nothing left to choose: a list is known from its order and from the items that tie
with each of its items.

* `StableSort.pairwise_mergeSort` — a sort brings items into ascending order;
* `StableSort.filter_mergeSort` — it keeps the order of items that tie;
* `StableSort.eq_of_ascending` — ascending lists with the same ties are the same.
-/
import Mathlib.Data.List.Pairwise

namespace StoryPack.StableSort

open Std

variable {α : Type} {cmp : α → α → Ordering} [TransCmp cmp] {l l' : List α}

theorem isLE_total (a b : α) : ((cmp a b).isLE || (cmp b a).isLE) = true := by
  have hswap : cmp b a = (cmp a b).swap := OrientedCmp.eq_swap
  rw [Bool.or_eq_true, hswap]
  cases cmp a b <;> simp

/-- Sorted items are in ascending order. -/
theorem pairwise_mergeSort (l : List α) :
    (l.mergeSort fun a b => (cmp a b).isLE).Pairwise fun a b => (cmp a b).isLE :=
  List.pairwise_mergeSort (fun _ _ _ => TransCmp.isLE_trans) isLE_total l

/-- Items that tie are sorted in the order in which they are listed. -/
theorem filter_mergeSort {p : α → Bool} (hp : ∀ a b, p a = true → p b = true → (cmp a b).isLE)
    (l : List α) : (l.mergeSort fun a b => (cmp a b).isLE).filter p = l.filter p := by
  have hties : (l.filter p).Pairwise fun a b => (cmp a b).isLE :=
    List.pairwise_of_forall_mem_list fun a ha b hb =>
      hp a b (List.mem_filter.mp ha).2 (List.mem_filter.mp hb).2
  -- they are in ascending order as they are listed, and so the sort does not move them
  have hsublist : (l.filter p).Sublist (l.mergeSort fun a b => (cmp a b).isLE) :=
    List.sublist_mergeSort (fun _ _ _ => TransCmp.isLE_trans) isLE_total hties List.filter_sublist
  have hfilter := hsublist.filter p
  rw [List.filter_filter] at hfilter
  simp only [Bool.and_self] at hfilter
  exact (hfilter.eq_of_length ((List.mergeSort_perm l _).filter p).length_eq.symm).symm

theorem mem_iff_of_ties
    (h : ∀ a, l.filter (cmp a · == .eq) = l'.filter (cmp a · == .eq)) (a : α) :
    a ∈ l ↔ a ∈ l' := by
  have hself : (cmp a a == .eq) = true := beq_iff_eq.mpr ReflCmp.compare_self
  have hfilter : a ∈ l.filter (cmp a · == .eq) ↔ a ∈ l'.filter (cmp a · == .eq) := by rw [h]
  rwa [List.mem_filter, List.mem_filter, and_iff_left hself, and_iff_left hself] at hfilter

/-- Ascending lists are the same when the same items tie with each item. -/
theorem eq_of_ascending (hl : l.Pairwise fun a b => (cmp a b).isLE)
    (hl' : l'.Pairwise fun a b => (cmp a b).isLE)
    (hties : ∀ a, l.filter (cmp a · == .eq) = l'.filter (cmp a · == .eq)) : l = l' := by
  have hmem := mem_iff_of_ties hties
  induction l generalizing l' with
  | nil =>
    refine (List.eq_nil_iff_forall_not_mem.mpr fun a ha => ?_).symm
    exact List.not_mem_nil ((hmem a).mpr ha)
  | cons a rest ih =>
    cases l' with
    | nil => exact absurd ((hmem a).mp List.mem_cons_self) List.not_mem_nil
    | cons b rest' =>
      have hself (c : α) : cmp c c = .eq := ReflCmp.compare_self
      -- each of the first items is at most as great as the other, and so they tie
      have hab : (cmp a b).isLE := by
        rcases List.mem_cons.mp ((hmem b).mpr List.mem_cons_self) with rfl | hb
        · rw [hself]
          rfl
        · exact List.rel_of_pairwise_cons hl hb
      have hba : (cmp b a).isLE := by
        rcases List.mem_cons.mp ((hmem a).mp List.mem_cons_self) with rfl | ha
        · rw [hself]
          rfl
        · exact List.rel_of_pairwise_cons hl' ha
      have htie : cmp a b = .eq := OrientedCmp.isLE_antisymm hab hba
      have hfirst := hties a
      rw [List.filter_cons_of_pos (by rw [hself]; rfl),
        List.filter_cons_of_pos (by rw [htie]; rfl)] at hfirst
      obtain ⟨rfl, hrest⟩ := List.cons.inj hfirst
      have hties' : ∀ c, rest.filter (cmp c · == .eq) = rest'.filter (cmp c · == .eq) := fun c => by
        have hother := hties c
        rw [List.filter_cons, List.filter_cons] at hother
        split at hother
        · exact (List.cons.inj hother).2
        · exact hother
      rw [ih hl.of_cons hl'.of_cons hties' (mem_iff_of_ties hties')]

end StoryPack.StableSort
