/-
Sorted entries.

A sort keeps the entries, puts none after one with a greater key, and leaves those
with one key in the order in which they were listed.  Only one list is like that.
In it, whatever other entries need comes before them.

* `Address.Leads` — what is needed before what;
* `Entry.compare_eq_lt_iff`, `Entry.compare_eq_eq_iff` — the order compares keys;
* `Entry.Classified.compare_eq_eq_iff` — which classified entries tie;
* `Entry.isSorting_sort`, `Entry.IsSorting.eq` — a sort is the one list like that;
* `Entry.IsSorting.lt_of_leads` — what is needed comes first.
-/
import StoryPack.Proofs.Entry.Address
import StoryPack.Proofs.Entry.Order

namespace StoryPack

open Std

namespace Address

/-- The first address is needed before the second: the options before the pack, and what stands
above a place before the place. -/
inductive Leads : Address → Address → Prop where
  | pack : Leads .options (.script .pack)
  | phase (p : String) : Leads (.script .pack) (.script (.phase p))
  | stage (p s : String) : Leads (.script (.phase p)) (.script (.stage p s))
  | action (who : Author) (p s a : String) :
    Leads (.script (.stage p s)) (.script (.action who p s a))

theorem Leads.compare_eq {a b : Address} (h : Leads a b) : compare a b = .lt := by
  have hrank : a.kind.rank < b.kind.rank := by
    rcases h with _ | _ | _ | ⟨_ | _, _, _, _⟩ <;> simp [kind, Kind.rank]
  rw [compare, Nat.compare_eq_lt.mpr hrank]
  rfl

theorem compareNames_eq_lt_iff {a b : List String} : compareNames a b = .lt ↔ a < b := by
  induction a generalizing b with
  | nil => cases b <;> simp [compareNames]
  | cons first rest ih =>
    cases b with
    | nil => simp [compareNames]
    | cons first' rest' =>
      rw [compareNames, Ordering.then_eq_lt, List.cons_lt_cons_iff, ih, Std.compare_eq_iff_eq]
      exact or_congr_left compareOfLessAndEq_eq_lt

end Address

namespace Entry

variable {a b : Entry} {es l l' : List Entry}

/-- What entries are sorted by: the rank and the names. -/
def key (e : Entry) : Nat × List String := (e.rank, e.address.names)

/-- The key of an entry is less than that of another: its rank is, or its names are when the ranks
are the same. -/
def Less (a b : Entry) : Prop := Prod.Lex (· < ·) (· < ·) a.key b.key

theorem compare_eq_lt_iff : compare a b = .lt ↔ a.Less b := by
  rw [compare, Address.compare, Ordering.then_eq_lt, Nat.compare_eq_lt, Std.compare_eq_iff_eq,
    Address.compareNames_eq_lt_iff, Less, Prod.lex_def]
  rfl

theorem compare_eq_eq_iff : compare a b = .eq ↔ a.key = b.key := by
  rw [compare, Address.compare, Ordering.then_eq_eq, Std.compare_eq_iff_eq,
    Address.compareNames_eq_eq_iff, key, key, Prod.mk.injEq]
  rfl

theorem compare_eq_gt_iff : compare a b = .gt ↔ b.Less a := by
  rw [OrientedCmp.gt_iff_lt, compare_eq_lt_iff]

theorem not_less_self (a : Entry) : ¬a.Less a := fun h => by
  have hself : compare a a = .eq := ReflCmp.compare_self
  rw [compare_eq_lt_iff.mpr h] at hself
  cases hself

theorem isLE_of_not_less (h : ¬b.Less a) : (compare a b).isLE := by
  rw [← compare_eq_gt_iff] at h
  cases hab : compare a b with
  | gt => exact absurd hab h
  | _ => rfl

/-! ### Classified entries -/

/-- The address of the entry comes from the classifier. -/
def Classified (e : Entry) : Prop := ∃ p, Address.ofPath? p = some e.address

theorem Classified.named (h : a.Classified) : a.address.Named := by
  obtain ⟨p, hp⟩ := h
  exact (Address.ofPath?_eq_some_iff.mp hp).1

theorem Classified.options (members : List (String × Json)) : Classified (.options members) :=
  ⟨"options.json", rfl⟩

theorem Classified.of_script? {path : String} {source : ByteArray}
    (h : script? path source = some a) : a.Classified := by
  refine ⟨path, ?_⟩
  unfold script? at h
  split at h
  · rename_i place hplace
    cases h
    exact hplace
  · cases h

/-- Classified entries tie that have one path, and actions of both authors under one name. -/
theorem Classified.compare_eq_eq_iff (ha : a.Classified) (hb : b.Classified) :
    compare a b = .eq ↔ a.path = b.path ∨ ∃ who who' p s n, who ≠ who' ∧
      a.address = .script (.action who p s n) ∧ b.address = .script (.action who' p s n) := by
  have hpath : a.path = b.path ↔ a.address = b.address := Address.path_inj ha.named hb.named
  rw [hpath, compare, Address.compare_eq_eq_iff]
  constructor
  · rintro (h | ⟨who, who', p, s, n, h, h'⟩)
    · exact .inl h
    · by_cases hwho : who = who'
      · exact .inl (by rw [h, h', hwho])
      · exact .inr ⟨who, who', p, s, n, hwho, h, h'⟩
  · rintro (h | ⟨who, who', p, s, n, -, h, h'⟩)
    · exact .inl h
    · exact .inr ⟨who, who', p, s, n, h, h'⟩

/-! ### The sorted list -/

/-- The entries of a list in ascending order of their keys, those with one key in the order of the
list. -/
structure IsSorting (es l : List Entry) : Prop where
  perm : l.Perm es
  ascending : l.Pairwise fun a b => ¬b.Less a
  stable : ∀ k, l.filter (·.key = k) = es.filter (·.key = k)

theorem isSorting_sort (es : List Entry) : IsSorting es (sort es) where
  perm := sort_perm es
  ascending := (pairwise_sort es).imp fun {a b} hle hless => by
    rw [compare_eq_gt_iff.mpr hless] at hle
    cases hle
  stable k := by
    rw [sort_eq_mergeSort]
    refine StableSort.filter_mergeSort (fun a b ha hb => ?_) es
    rw [decide_eq_true_eq] at ha hb
    rw [compare_eq_eq_iff.mpr (ha.trans hb.symm)]
    rfl

/-- There is one list only that is a sorting of a list. -/
theorem IsSorting.eq (h : IsSorting es l) (h' : IsSorting es l') : l = l' := by
  have hascending {l : List Entry} (h : IsSorting es l) :
      l.Pairwise fun a b => (compare a b).isLE :=
    h.ascending.imp fun hless => isLE_of_not_less hless
  have hties {l : List Entry} (h : IsSorting es l) (a : Entry) :
      l.filter (compare a · == .eq) = es.filter (·.key = a.key) := by
    rw [← h.stable a.key]
    refine List.filter_congr fun b _ => ?_
    rw [Bool.eq_iff_iff, beq_iff_eq, decide_eq_true_eq, compare_eq_eq_iff, eq_comm]
  exact StableSort.eq_of_ascending (hascending h) (hascending h') fun a =>
    (hties h a).trans (hties h' a).symm

theorem IsSorting.self (h : IsSorting es l) : IsSorting l l where
  perm := .refl l
  ascending := h.ascending
  stable _ := rfl

theorem sort_sort (es : List Entry) : sort (sort es) = sort es :=
  (isSorting_sort (sort es)).eq (isSorting_sort es).self

/-- What is needed before an entry stands before it. -/
theorem IsSorting.lt_of_leads (h : IsSorting es l) {i j : Nat} (hi : i < l.length)
    (hj : j < l.length) (hleads : l[i].address.Leads l[j].address) : i < j := by
  have hless : l[i].Less l[j] := compare_eq_lt_iff.mp hleads.compare_eq
  rcases Nat.lt_trichotomy i j with hlt | rfl | hgt
  · exact hlt
  · exact absurd hless (not_less_self _)
  · exact absurd hless (List.pairwise_iff_getElem.mp h.ascending j i hj hi hgt)

/-- The order of processing is a total preorder, which compares keys; classified entries tie that
have one path, as all options do, and actions of both authors under one name.  A sort is the one
list that is a sorting, so that a second sort changes nothing, and in it no entry stands before
what it needs. -/
theorem sort_exact :
    (∀ a b : Entry, (compare a b = .lt ↔ a.Less b) ∧ (compare a b = .eq ↔ a.key = b.key) ∧
      (compare a b = .gt ↔ b.Less a)) ∧
    (∀ a : Entry, (compare a a).isLE) ∧
    (∀ a b : Entry, (compare a b).isLE ∨ (compare b a).isLE) ∧
    (∀ a b c : Entry, (compare a b).isLE → (compare b c).isLE → (compare a c).isLE) ∧
    (∀ a b : Entry, a.Classified → b.Classified → (compare a b = .eq ↔
      a.path = b.path ∨ (a.address = .options ∧ b.address = .options) ∨
      ∃ who who' p s n, who ≠ who' ∧ a.address = .script (.action who p s n) ∧
        b.address = .script (.action who' p s n))) ∧
    ∀ es : List Entry, IsSorting es (sort es) ∧ (∀ l, IsSorting es l → l = sort es) ∧
      sort (sort es) = sort es ∧
      ∀ (i j : Nat) (hi : i < (sort es).length) (hj : j < (sort es).length),
        (sort es)[i].address.Leads (sort es)[j].address → i < j := by
  refine ⟨fun a b => ⟨compare_eq_lt_iff, compare_eq_eq_iff, compare_eq_gt_iff⟩, fun a => ?_,
    fun a b => ?_, fun a b c => TransCmp.isLE_trans, fun a b ha hb => ?_, fun es =>
    ⟨isSorting_sort es, fun l hl => hl.eq (isSorting_sort es), sort_sort es, fun i j hi hj =>
      (isSorting_sort es).lt_of_leads hi hj⟩⟩
  · have hself : compare a a = .eq := ReflCmp.compare_self
    rw [hself]
    rfl
  · have htotal : ((compare a b).isLE || (compare b a).isLE) = true := StableSort.isLE_total a b
    rwa [Bool.or_eq_true] at htotal
  · rw [ha.compare_eq_eq_iff hb]
    constructor
    · exact Or.imp_right .inr
    · rintro (hpath | ⟨hoptions, hoptions'⟩ | hactions)
      · exact .inl hpath
      · exact .inl (by rw [path, path, hoptions, hoptions'])
      · exact .inr hactions

/-- Actions of both authors under one name tie. -/
theorem compare_actions_of_one_name :
    Classified (.script (.action .player "p" "s" "a") ByteArray.empty) ∧
    Classified (.script (.action .npc "p" "s" "a") ByteArray.empty) ∧
    compare (.script (.action .player "p" "s" "a") ByteArray.empty)
      (.script (.action .npc "p" "s" "a") ByteArray.empty) = .eq := by
  have hplayer : Classified (.script (.action .player "p" "s" "a") ByteArray.empty) :=
    ⟨"phases/p/s/player/a.lua", rfl⟩
  have hnpc : Classified (.script (.action .npc "p" "s" "a") ByteArray.empty) :=
    ⟨"phases/p/s/npc/a.lua", rfl⟩
  refine ⟨hplayer, hnpc, (sort_exact.2.2.2.2.1 _ _ hplayer hnpc).mpr (.inr (.inr ?_))⟩
  exact ⟨.player, .npc, "p", "s", "a", by decide, rfl, rfl⟩

end Entry

end StoryPack
