/-
Members that are no entries.

Only members with the path of an entry are read.  All others are passed over, so
that what an archive gives depends only on its entries and on its fault.  The name
of a directory ends with a slash, and no entry has such a path.

* `Member.entries_filter` — only the entries among the members count;
* `Listing.entries_of_filter` — archives with the same entries give the same;
* `Member.isEntry_of_isDirectoryName` — directories are no entries.
-/
import StoryPack.Archive.Zip

namespace StoryPack

/-- A name with slashes for its backslashes. -/
def slashes (name : String) : List Char := name.toList.map fun c => if c = '\\' then '/' else c

theorem toList_normalize (name : String) : (normalize name).toList = stripDots (slashes name) :=
  String.toList_ofList

namespace Member

/-- Whether a member has the path of an entry. -/
def isEntry (m : Member) : Bool := m.address?.isSome

theorem entry?_of_not_isEntry {m : Member} (h : m.isEntry = false) (limit : Nat) :
    m.entry? limit = .ok none := by
  cases haddress : m.address? with
  | none =>
    unfold entry?
    rw [haddress]
  | some address =>
    rw [isEntry, haddress] at h
    cases h

theorem entries_cons_of_not_isEntry {m : Member} (h : m.isEntry = false) (limit : Nat)
    (ms : List Member) : entries limit (m :: ms) = entries limit ms := by
  rw [entries, entry?_of_not_isEntry h]
  cases entries limit ms <;> rfl

/-- Members that are no entries change nothing. -/
theorem entries_filter (limit : Nat) (ms : List Member) :
    entries limit (ms.filter isEntry) = entries limit ms := by
  induction ms with
  | nil => rfl
  | cons m rest ih =>
    cases hm : m.isEntry with
    | true => rw [List.filter_cons_of_pos hm, entries, entries, ih]
    | false =>
      rw [List.filter_cons_of_neg (by rw [hm]; exact Bool.false_ne_true), ih,
        entries_cons_of_not_isEntry hm]

/-! ### Names of directories -/

theorem stripDots_suffix (cs : List Char) : stripDots cs <:+ cs := by
  fun_induction stripDots cs with
  | case1 rest ih => exact ih.trans ⟨['.', '/'], rfl⟩
  | case2 cs _ => exact List.suffix_rfl

/-- A path that ends with a slash is not that of an entry. -/
theorem ofPath?_of_slash {path : String} (h : path.toList.getLast? = some '/') :
    Address.ofPath? path = none := by
  have hoptions : path ≠ "options.json" := fun heq => by
    rw [heq] at h
    exact absurd h (by decide)
  have hstem : Address.stem? path.toList = none := by
    refine if_neg fun hdrop => ?_
    have hlast : path.toList.getLast? = some 'a' := by
      rw [← List.take_append_drop (path.toList.length - 4) path.toList, hdrop,
        List.getLast?_append]
      rfl
    rw [h] at hlast
    exact absurd hlast (by decide)
  rw [Address.ofPath?, if_neg hoptions, hstem]

theorem getLast?_slashes {name : String} (h : Zip.isDirectoryName name = true) :
    (slashes name).getLast? = some '/' := by
  unfold Zip.isDirectoryName at h
  rw [slashes, List.getLast?_map]
  cases hc : name.toList.getLast? with
  | none =>
    rw [hc] at h
    cases h
  | some c =>
    rw [hc] at h
    simp only [decide_eq_true_eq, Bool.or_eq_true] at h
    rcases h with rfl | rfl <;> rfl

theorem ofPath?_normalize_of_isDirectoryName {name : String} (h : Zip.isDirectoryName name = true) :
    Address.ofPath? (normalize name) = none := by
  have hlast := getLast?_slashes h
  obtain ⟨dots, hdots⟩ := stripDots_suffix (slashes name)
  rw [← hdots, List.getLast?_append, ← toList_normalize] at hlast
  cases hpath : (normalize name).toList.getLast? with
  | none =>
    rw [List.getLast?_eq_none_iff, ← String.toList_empty, String.toList_inj] at hpath
    rw [hpath]
    rfl
  | some c =>
    rw [hpath] at hlast
    exact ofPath?_of_slash (hpath.trans hlast)

/-- A directory is no entry. -/
theorem isEntry_of_isDirectoryName {name : String} (h : Zip.isDirectoryName name = true)
    (size : Nat) (body : Stream) : isEntry ⟨normalize name, size, body⟩ = false := by
  rw [isEntry, address?, ofPath?_normalize_of_isDirectoryName h, Option.isSome_none]

end Member

namespace Listing

/-- Archives with the same entries and without a fault give the same. -/
theorem entries_of_filter {fs gs : List Member}
    (h : fs.filter Member.isEntry = gs.filter Member.isEntry) (limit : Nat) :
    entries { files := fs } limit = entries { files := gs } limit := by
  rw [entries, entries, ← Member.entries_filter limit fs, h, Member.entries_filter]

end Listing

end StoryPack
