/-
The members of an object.

The object of a list of pairs has a member for each name among them, in ascending
order, with the value of the last pair of that name.  So pairs of one name end up as
one member, and their order tells which of them is kept.  Where all names are
different every pair is a member, and the order does not matter.

* `Json.lastOf` — the last pair of a name;
* `Json.ascending_membersOf`, `Json.mem_membersOf_iff` — what the members are;
* `Json.lookup_membersOf` — what is found under a name;
* `Json.length_membersOf_eq_iff` — all pairs are kept when their names are different;
* `Json.membersOf_of_perm` — then they may be given in any order.
-/
import StoryPack.Json.Basic
import StoryPack.Proofs.Association
import StoryPack.Proofs.StableSort
import Mathlib.Data.List.Dedup
import Mathlib.Data.List.Perm.Subperm
import Mathlib.Data.String.Basic

namespace StoryPack.Json

variable {l pairs pairs' : List (String × Json)} {m : String × Json} {name : String}

/-- The last of the pairs that have a name. -/
def lastOf (pairs : List (String × Json)) (name : String) : Option (String × Json) :=
  (pairs.filter (·.1 == name)).getLast?

theorem mem_of_lastOf (h : lastOf pairs name = some m) : m ∈ pairs ∧ m.1 = name := by
  have hmem := List.mem_filter.mp (List.mem_of_getLast? h)
  exact ⟨hmem.1, eq_of_beq hmem.2⟩

theorem lastOf_eq_none_iff : lastOf pairs name = none ↔ ∀ m ∈ pairs, m.1 ≠ name := by
  rw [lastOf, List.getLast?_eq_none_iff, List.filter_eq_nil_iff]
  exact forall₂_congr fun m _ => not_congr beq_iff_eq

theorem lastOf_cons_of_ne (h : m.1 ≠ name) (l : List (String × Json)) :
    lastOf (m :: l) name = lastOf l name := by
  rw [lastOf, List.filter_cons_of_neg (by simpa using h), lastOf]

/-- A pair is the last one of its name, unless another one comes after it. -/
theorem lastOf_cons_self (m : String × Json) (l : List (String × Json)) :
    lastOf (m :: l) m.1 = some ((lastOf l m.1).getD m) := by
  rw [lastOf, List.filter_cons_of_pos (by simp), List.getLast?_cons, lastOf]

/-! ### Runs of pairs in ascending order -/

theorem sublist_lastOfRuns (l : List (String × Json)) : (lastOfRuns l).Sublist l := by
  fun_induction lastOfRuns l with
  | case1 => exact .slnil
  | case2 m => exact .refl _
  | case3 m n rest hsame ih => exact ih.cons m
  | case4 m n rest hother ih => exact ih.cons_cons m

/-- The run of the first name is over when another name comes. -/
theorem lt_of_mem_of_ne {n : String × Json} (h : (m :: n :: l).Pairwise fun a b => a.1 ≤ b.1)
    (hne : m.1 ≠ n.1) : ∀ x ∈ n :: l, m.1 < x.1 := by
  obtain ⟨hm, hrest⟩ := List.pairwise_cons.mp h
  have hlt : m.1 < n.1 := lt_of_le_of_ne (hm n List.mem_cons_self) hne
  intro x hx
  rcases List.mem_cons.mp hx with rfl | hx
  · exact hlt
  · exact hlt.trans_le (List.rel_of_pairwise_cons hrest hx)

theorem ascending_lastOfRuns (h : l.Pairwise fun a b => a.1 ≤ b.1) :
    (lastOfRuns l).Pairwise fun a b => a.1 < b.1 := by
  fun_induction lastOfRuns l with
  | case1 => exact .nil
  | case2 m => exact List.pairwise_singleton _ _
  | case3 m n rest hsame ih => exact ih h.of_cons
  | case4 m n rest hother ih =>
    refine List.pairwise_cons.mpr ⟨fun x hx => ?_, ih h.of_cons⟩
    exact lt_of_mem_of_ne h (by simpa using hother) x ((sublist_lastOfRuns _).mem hx)

theorem mem_lastOfRuns_iff (h : l.Pairwise fun a b => a.1 ≤ b.1) :
    m ∈ lastOfRuns l ↔ lastOf l m.1 = some m := by
  fun_induction lastOfRuns l with
  | case1 => simp [lastOf]
  | case2 n =>
    by_cases hname : n.1 = m.1
    · rw [← hname, lastOf_cons_self, List.mem_singleton, eq_comm]
      exact Option.some_inj.symm
    · rw [lastOf_cons_of_ne hname, List.mem_singleton]
      exact ⟨fun heq => absurd (congrArg Prod.fst heq).symm hname, nofun⟩
  | case3 n n' rest hsame ih =>
    have hsame : n.1 = n'.1 := eq_of_beq hsame
    rw [ih h.of_cons]
    by_cases hname : n.1 = m.1
    · -- the first pair is not the last one of its name
      rw [← hname, lastOf_cons_self n, hsame, lastOf_cons_self n']
      rfl
    · rw [lastOf_cons_of_ne hname]
  | case4 n n' rest hother ih =>
    have hlt := lt_of_mem_of_ne h (by simpa using hother)
    rw [List.mem_cons, ih h.of_cons]
    by_cases hname : n.1 = m.1
    · -- no other pair has the name
      have hnone : lastOf (n' :: rest) n.1 = none :=
        lastOf_eq_none_iff.mpr fun x hx => (hlt x hx).ne'
      rw [← hname, lastOf_cons_self, hnone, Option.getD_none, Option.some_inj, eq_comm]
      exact or_iff_left nofun
    · rw [lastOf_cons_of_ne hname]
      exact or_iff_right fun heq => hname (congrArg Prod.fst heq).symm

/-! ### Members -/

theorem membersOf_eq (pairs : List (String × Json)) :
    membersOf pairs = lastOfRuns (pairs.mergeSort fun a b => (compareOn Prod.fst a b).isLE) := by
  have hle (a b : String × Json) : (compare a.1 b.1 != .gt) = (compareOn Prod.fst a b).isLE := by
    rw [compareOn]
    cases compare a.1 b.1 <;> rfl
  simp only [membersOf, hle]

theorem pairwise_sort (pairs : List (String × Json)) :
    (pairs.mergeSort fun a b => (compareOn Prod.fst a b).isLE).Pairwise fun a b => a.1 ≤ b.1 :=
  (StableSort.pairwise_mergeSort pairs).imp fun {a b} hle => by
    rw [compareOn, ← Ordering.ne_gt_iff_isLE] at hle
    exact compare_le_iff_le.mp hle

/-- The members are in ascending order, and so each name has one only. -/
theorem ascending_membersOf (pairs : List (String × Json)) :
    (membersOf pairs).Pairwise fun a b => a.1 < b.1 := by
  rw [membersOf_eq]
  exact ascending_lastOfRuns (pairwise_sort pairs)

theorem nodup_names_membersOf (pairs : List (String × Json)) :
    ((membersOf pairs).map (·.1)).Nodup :=
  List.pairwise_map.mpr ((ascending_membersOf pairs).imp fun hlt => hlt.ne)

/-- A pair is a member when it is the last one of its name. -/
theorem mem_membersOf_iff : m ∈ membersOf pairs ↔ lastOf pairs m.1 = some m := by
  rw [membersOf_eq, mem_lastOfRuns_iff (pairwise_sort pairs), lastOf,
    StableSort.filter_mergeSort, lastOf]
  intro a b ha hb
  rw [compareOn, eq_of_beq ha, eq_of_beq hb, Std.ReflOrd.compare_self]
  rfl

theorem mem_of_mem_membersOf (h : m ∈ membersOf pairs) : m ∈ pairs :=
  (mem_of_lastOf (mem_membersOf_iff.mp h)).1

/-- Under a name there is the value of the last pair that has the name. -/
theorem lookup_membersOf (pairs : List (String × Json)) (name : String) :
    (membersOf pairs).lookup name = (lastOf pairs name).map (·.2) := by
  cases hlast : lastOf pairs name with
  | none =>
    refine Association.lookup_eq_none_of_not_mem fun v hv => ?_
    rw [mem_membersOf_iff, hlast] at hv
    cases hv
  | some m =>
    obtain ⟨-, rfl⟩ := mem_of_lastOf hlast
    exact (Association.lookup_eq_some_iff (nodup_names_membersOf pairs)).mpr
      (mem_membersOf_iff.mpr hlast)

/-- The names of the members are those of the pairs. -/
theorem perm_names_membersOf (pairs : List (String × Json)) :
    ((membersOf pairs).map (·.1)).Perm (pairs.map (·.1)).dedup := by
  rw [List.perm_ext_iff_of_nodup (nodup_names_membersOf pairs) (List.nodup_dedup _)]
  intro name
  rw [List.mem_dedup]
  constructor
  · intro hname
    obtain ⟨m, hm, rfl⟩ := List.mem_map.mp hname
    exact List.mem_map_of_mem (mem_of_mem_membersOf hm)
  · intro hname
    cases hlast : lastOf pairs name with
    | none =>
      obtain ⟨m, hm, hmname⟩ := List.mem_map.mp hname
      exact absurd hmname (lastOf_eq_none_iff.mp hlast m hm)
    | some m =>
      obtain ⟨-, rfl⟩ := mem_of_lastOf hlast
      exact List.mem_map_of_mem (mem_membersOf_iff.mpr hlast)

/-- No pair is lost when all names are different, and only then. -/
theorem length_membersOf_eq_iff (pairs : List (String × Json)) :
    (membersOf pairs).length = pairs.length ↔ (pairs.map (·.1)).Nodup := by
  have hlength := (perm_names_membersOf pairs).length_eq
  rw [List.length_map] at hlength
  rw [hlength]
  constructor
  · intro heq
    have hall := (List.dedup_sublist (pairs.map (·.1))).eq_of_length (by rw [heq, List.length_map])
    exact List.dedup_eq_self.mp hall
  · intro hnodup
    rw [List.dedup_eq_self.mpr hnodup, List.length_map]

/-- Pairs of different names are the members. -/
theorem perm_membersOf (h : (pairs.map (·.1)).Nodup) : (membersOf pairs).Perm pairs := by
  have hsub : membersOf pairs ⊆ pairs := fun m => mem_of_mem_membersOf
  have hnodup : (membersOf pairs).Nodup := .of_map _ (nodup_names_membersOf pairs)
  exact (hnodup.subperm hsub).perm_of_length_le ((length_membersOf_eq_iff pairs).mpr h).ge

/-- Of two pairs of one name, the first one is lost. -/
theorem membersOf_pair (name : String) (a b : Json) :
    membersOf [(name, a), (name, b)] = [(name, b)] := by
  have hsorted : [(name, a), (name, b)].Pairwise fun a b => (compareOn Prod.fst a b).isLE := by
    rw [List.pairwise_pair, compareOn, Std.ReflOrd.compare_self]
    rfl
  rw [membersOf_eq, List.mergeSort_of_pairwise hsorted, lastOfRuns, if_pos (beq_self_eq_true _)]
  rfl

/-- Pairs of different names may be given in any order. -/
theorem membersOf_of_perm (h : pairs.Perm pairs') (hpairs : (pairs.map (·.1)).Nodup) :
    membersOf pairs = membersOf pairs' := by
  have hpairs' : (pairs'.map (·.1)).Nodup := ((h.map _).nodup_iff).mp hpairs
  have hperm := ((perm_membersOf hpairs).trans h).trans (perm_membersOf hpairs').symm
  exact hperm.eq_of_pairwise (fun a b _ _ hab hba => absurd hba hab.asymm)
    (ascending_membersOf pairs) (ascending_membersOf pairs')

end StoryPack.Json
