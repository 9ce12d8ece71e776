/-
Directories: finite maps from names, in the order of the names.

* `Directory.find?` — what stands under a name;
* `Directory.insert` — puts something under a name, in place of what stood there.
-/

namespace StoryPack

/-- A finite map from names: its entries in ascending order of their names. -/
structure Directory (α : Type) where
  entries : List (String × α) := []
  ordered : entries.Pairwise fun a b => a.1 < b.1 := by exact List.Pairwise.nil

namespace Directory

variable {α : Type}

instance : Inhabited (Directory α) := ⟨{}⟩

/-- Puts something into a list of entries at the place of its name. -/
def put (name : String) (a : α) : List (String × α) → List (String × α)
  | [] => [(name, a)]
  | (other, b) :: rest =>
    if name = other then (name, a) :: rest
    else if name < other then (name, a) :: (other, b) :: rest
    else (other, b) :: put name a rest

theorem mem_put {name : String} {a : α} {e : String × α} :
    ∀ {l : List (String × α)}, e ∈ put name a l → e = (name, a) ∨ e ∈ l
  | [], h => by simpa [put] using h
  | (other, b) :: rest, h => by
    rw [put] at h
    split at h
    · rcases List.mem_cons.mp h with h | h
      · exact .inl h
      · exact .inr (List.mem_cons_of_mem _ h)
    · split at h
      · exact List.mem_cons.mp h
      · rcases List.mem_cons.mp h with h | h
        · exact .inr (h ▸ List.mem_cons_self)
        · exact (mem_put h).imp_right (List.mem_cons_of_mem _)

theorem pairwise_put (name : String) (a : α) : ∀ {l : List (String × α)},
    l.Pairwise (fun a b => a.1 < b.1) → (put name a l).Pairwise fun a b => a.1 < b.1
  | [], _ => List.pairwise_singleton _ _
  | (other, b) :: rest, h => by
    obtain ⟨hfirst, hrest⟩ := List.pairwise_cons.mp h
    rw [put]
    split
    · rename_i heq
      exact List.pairwise_cons.mpr ⟨fun e he => heq ▸ hfirst e he, hrest⟩
    · rename_i hne
      split
      · rename_i hlt
        refine List.pairwise_cons.mpr ⟨fun e he => ?_, h⟩
        rcases List.mem_cons.mp he with rfl | he
        · exact hlt
        · exact String.lt_trans hlt (hfirst e he)
      · rename_i hge
        refine List.pairwise_cons.mpr ⟨fun e he => ?_, pairwise_put name a hrest⟩
        rcases mem_put he with rfl | he
        · -- neither equal nor less, so greater
          exact Decidable.byContradiction fun hlt =>
            hne (String.le_antisymm (String.not_lt.mp hlt) (String.not_lt.mp hge))
        · exact hfirst e he

/-- What stands under a name. -/
def find? (d : Directory α) (name : String) : Option α := d.entries.lookup name

/-- Whether something stands under a name. -/
def contains (d : Directory α) (name : String) : Bool := (d.find? name).isSome

/-- Puts something under a name, in place of what stood there. -/
def insert (d : Directory α) (name : String) (a : α) : Directory α :=
  ⟨put name a d.entries, pairwise_put name a d.ordered⟩

/-- The names in ascending order. -/
def names (d : Directory α) : List String := d.entries.map (·.1)

end Directory

end StoryPack
