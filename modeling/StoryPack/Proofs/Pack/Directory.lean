/-
What an insertion does to a directory.

* `Directory.find?_insert` — what stands under a name after an insertion;
* `Directory.find?_eq_some_iff` — looking up finds exactly the entries;
* `Directory.perm_flatMap_insert` — an insertion under a new name adds one entry;
* `Directory.perm_flatMap_replace` — one under a name that is there changes the
  entry of that name only;
* `Directory.map` — a directory with all that it holds changed.
-/
import StoryPack.Pack.Directory
import StoryPack.Proofs.Association
import Mathlib.Data.List.Perm.Basic

namespace StoryPack.Directory

variable {α : Type}

theorem lookup_put (name other : String) (a : α) (l : List (String × α)) :
    (put name a l).lookup other = if other = name then some a else l.lookup other := by
  induction l with
  | nil =>
    by_cases h : other = name <;>
      simp [put, List.lookup_nil, List.lookup_cons, h, beq_eq_false_iff_ne.mpr]
  | cons e rest ih =>
    obtain ⟨first, b⟩ := e
    rw [put]
    by_cases hname : name = first
    · subst hname
      by_cases h : other = name <;> simp [List.lookup_cons, h, beq_eq_false_iff_ne.mpr]
    · rw [if_neg hname]
      split
      · by_cases h : other = name <;> simp [List.lookup_cons, h, beq_eq_false_iff_ne.mpr]
      · by_cases h : other = name
        · subst h
          simp [List.lookup_cons, beq_eq_false_iff_ne.mpr hname, ih]
        · by_cases hfirst : other = first
          · subst hfirst
            simp [h]
          · simp [List.lookup_cons, h, beq_eq_false_iff_ne.mpr hfirst, ih]

/-- An insertion changes what stands under its own name, and nothing else. -/
theorem find?_insert (d : Directory α) (name other : String) (a : α) :
    (d.insert name a).find? other = if other = name then some a else d.find? other :=
  lookup_put name other a d.entries

theorem lookup_eq_some_iff {name : String} {a : α} {l : List (String × α)}
    (h : l.Pairwise fun a b => a.1 < b.1) : l.lookup name = some a ↔ (name, a) ∈ l := by
  have hnames : (l.map (·.1)).Nodup :=
    List.pairwise_map.mpr (h.imp fun {e e'} hlt (heq : e.1 = e'.1) =>
      String.lt_irrefl e.1 (heq ▸ hlt))
  exact Association.lookup_eq_some_iff hnames

/-- Looking up a name finds the entry of that name. -/
theorem find?_eq_some_iff {d : Directory α} {name : String} {a : α} :
    d.find? name = some a ↔ (name, a) ∈ d.entries :=
  lookup_eq_some_iff d.ordered

theorem perm_put {name : String} (a : α) {l : List (String × α)} (h : l.lookup name = none) :
    (put name a l).Perm ((name, a) :: l) := by
  induction l with
  | nil => exact .refl _
  | cons e rest ih =>
    obtain ⟨first, b⟩ := e
    by_cases hname : name = first
    · simp [hname] at h
    · rw [List.lookup_cons, beq_eq_false_iff_ne.mpr hname] at h
      rw [put, if_neg hname]
      split
      · exact .refl _
      · exact ((ih h).cons _).trans (.swap ..)

/-- An insertion under a name that is not there adds its entry. -/
theorem perm_flatMap_insert {β : Type} (f : String × α → List β) {d : Directory α} {name : String}
    (a : α) (h : d.find? name = none) :
    ((d.insert name a).entries.flatMap f).Perm (f (name, a) ++ d.entries.flatMap f) :=
  (perm_put a h).flatMap_right f

theorem exists_perm_put {name : String} {old : α} (a : α) {l : List (String × α)}
    (hl : l.Pairwise fun a b => a.1 < b.1) (h : l.lookup name = some old) :
    ∃ rest, l.Perm ((name, old) :: rest) ∧ (put name a l).Perm ((name, a) :: rest) := by
  induction l with
  | nil => simp at h
  | cons e rest ih =>
    obtain ⟨first, b⟩ := e
    obtain ⟨hfirst, hrest⟩ := List.pairwise_cons.mp hl
    by_cases hname : name = first
    · subst hname
      simp only [List.lookup_cons, beq_self_eq_true, Option.some.injEq] at h
      subst h
      exact ⟨rest, .refl _, by rw [put, if_pos rfl]⟩
    · rw [List.lookup_cons, beq_eq_false_iff_ne.mpr hname] at h
      obtain ⟨others, hbefore, hafter⟩ := ih hrest h
      have hmem : (name, old) ∈ rest := (lookup_eq_some_iff hrest).mp h
      -- the name comes later, so it is greater than the first one
      have hlt : ¬ name < first := String.lt_asymm (hfirst _ hmem)
      refine ⟨(first, b) :: others, (hbefore.cons _).trans (.swap ..), ?_⟩
      rw [put, if_neg hname, if_neg hlt]
      exact (hafter.cons _).trans (.swap ..)

/-- An insertion under a name that is there changes what its entry contributes. -/
theorem perm_flatMap_replace {β : Type} (f : String × α → List β) {d : Directory α} {name : String}
    {old : α} (a : α) (more : List β) (h : d.find? name = some old)
    (hf : (f (name, a)).Perm (more ++ f (name, old))) :
    ((d.insert name a).entries.flatMap f).Perm (more ++ d.entries.flatMap f) := by
  obtain ⟨rest, hbefore, hafter⟩ := exists_perm_put a d.ordered h
  calc ((d.insert name a).entries.flatMap f).Perm (f (name, a) ++ rest.flatMap f) :=
        hafter.flatMap_right f
    _ |>.Perm (more ++ f (name, old) ++ rest.flatMap f) := hf.append_right _
    _ |>.Perm (more ++ d.entries.flatMap f) := by
        rw [List.append_assoc]
        exact ((hbefore.flatMap_right f).symm).append_left more

/-! ### Changing all that a directory holds -/

variable {β : Type} (f : α → β)

/-- A directory with all that it holds changed. -/
def map (d : Directory α) : Directory β :=
  ⟨d.entries.map fun e => (e.1, f e.2), List.pairwise_map.mpr d.ordered⟩

theorem find?_map (d : Directory α) (name : String) : (d.map f).find? name = (d.find? name).map f :=
  Association.lookup_map f d.entries name

theorem contains_map (d : Directory α) (name : String) :
    (d.map f).contains name = d.contains name := by
  rw [contains, find?_map, Option.isSome_map, contains]

theorem put_map (name : String) (a : α) (l : List (String × α)) :
    put name (f a) (l.map fun e => (e.1, f e.2)) = (put name a l).map fun e => (e.1, f e.2) := by
  induction l with
  | nil => rfl
  | cons e rest ih =>
    obtain ⟨first, b⟩ := e
    simp only [List.map_cons, put, ih]
    split
    · rfl
    · split <;> rfl

theorem insert_map (d : Directory α) (name : String) (a : α) :
    (d.map f).insert name (f a) = (d.insert name a).map f := by
  simp only [insert, map, put_map]

end StoryPack.Directory
