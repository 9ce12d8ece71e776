/-
Members that change nothing.

A member that is no entry may stand anywhere in an archive.  In a tar archive it
is passed over whatever it holds.  In a zip archive every member is opened before
its name is looked at, so it may hold anything but what cannot be opened: an
encrypted member, or one that is packed in an unknown way, is a fault of the whole
archive.

* `Tar.listing_insert` — members between others in a tar archive;
* `Archive.entries_insert`, `Archive.entries_insert_of_gzip` — they change nothing
  when they are no entries;
* `Zip.filesOf_eq` — the files of a zip archive, when all its members can be opened;
* `Zip.entries_insert` — then a member that is no entry changes nothing;
* `Zip.entries_of_not_opens` — otherwise there is a fault, whatever its name is.
-/
import StoryPack.Proofs.Archive.Container
import StoryPack.Proofs.Archive.Member
import StoryPack.Proofs.Archive.Tar

namespace StoryPack

open Bytes (At Begins)

namespace Tar

variable {p m r : ByteArray} {fs ms : List Member} {y : Bool}

/-- Whole members between others: their files come between those of the others. -/
theorem listing_insert (hp : Whole p fs) (hm : Whole m ms) (hbound : (p ++ m ++ r).size < sizeBound)
    (hread : (listing ⟨p ++ r, y⟩).fault = none) :
    ∃ gs, listing ⟨p ++ r, y⟩ = { files := fs ++ gs } ∧
      listing ⟨p ++ m ++ r, y⟩ = { files := fs ++ ms ++ gs } := by
  have hbefore := hp.listing r y
  rw [hbefore, Listing.fault_prepend] at hread
  have hsize : (p ++ m).size < sizeBound ∧ (p ++ r).size < sizeBound := by
    simp only [ByteArray.size_append] at hbound ⊢
    omega
  -- what follows is read from its own beginning on, wherever it stands
  have hafter := following_suffix hsize.2 hbound hread
  have hrest : following ⟨p ++ r, y⟩ p.size {} =
      { files := (following ⟨p ++ r, y⟩ p.size {}).files } := by rw [← hread]
  refine ⟨(following ⟨p ++ r, y⟩ p.size {}).files, ?_, ?_⟩
  · rw [hbefore, hrest]
    rfl
  · rw [(hp.append hm hsize.1).listing r y, hafter, hrest]
    rfl

/-- Members that are no entries change nothing. -/
theorem entries_insert (hp : Whole p fs) (hm : Whole m ms) (hms : ∀ f ∈ ms, f.isEntry = false)
    (hbound : (p ++ m ++ r).size < sizeBound) (hread : (listing ⟨p ++ r, y⟩).fault = none)
    (limit : Nat) :
    (listing ⟨p ++ m ++ r, y⟩).entries limit = (listing ⟨p ++ r, y⟩).entries limit := by
  obtain ⟨gs, hwithout, hwith⟩ := listing_insert hp hm hbound hread
  have hnone : ms.filter Member.isEntry = [] :=
    List.filter_eq_nil_iff.mpr fun f hf => by rw [hms f hf]; exact Bool.false_ne_true
  rw [hwithout, hwith]
  refine Listing.entries_of_filter ?_ limit
  simp only [List.filter_append, hnone, List.append_nil]

end Tar

namespace Zip

variable {b : ByteArray} {e : Listed} {es before after : List Listed}

/-- Whether a member can be opened. -/
def Listed.opens (b : ByteArray) (e : Listed) : Bool := (body? b e).isSome

/-- The file that a member is, unless it is a directory. -/
def fileOf? (b : ByteArray) (e : Listed) : Option Member :=
  if isDirectoryName e.name then none
  else (body? b e).map fun body => ⟨normalize e.name, e.size, body⟩

/-- When all members can be opened, the files are all that are no directories. -/
theorem filesOf_eq (h : ∀ e ∈ es, e.opens b = true) :
    filesOf b es = { files := es.filterMap (fileOf? b) } := by
  induction es with
  | nil => rfl
  | cons e rest ih =>
    obtain ⟨hopens, hrest⟩ := List.forall_mem_cons.mp h
    obtain ⟨body, hbody⟩ := Option.isSome_iff_exists.mp hopens
    rw [filesOf, hbody]
    simp only
    cases hname : isDirectoryName e.name with
    | true =>
      rw [if_pos rfl, ih hrest, List.filterMap_cons_none]
      rw [fileOf?, hname, if_pos rfl]
    | false =>
      have hfile : fileOf? b e = some ⟨normalize e.name, e.size, body⟩ := by
        rw [fileOf?, hname, hbody]
        rfl
      rw [if_neg Bool.false_ne_true, ih hrest, List.filterMap_cons_some hfile]
      rfl

/-- A member that cannot be opened is a fault of the archive. -/
theorem filesOf_of_not_opens (hmem : e ∈ es) (h : e.opens b = false) :
    (filesOf b es).fault = some .zip := by
  induction es with
  | nil => cases hmem
  | cons e' rest ih =>
    rw [filesOf]
    cases hbody : body? b e' with
    | none => rfl
    | some body =>
      -- members that can be opened do not hide the fault of a later one
      have hrest : (filesOf b rest).fault = some .zip := by
        rcases List.mem_cons.mp hmem with rfl | hrest
        · rw [Listed.opens, hbody] at h
          cases h
        · exact ih hrest
      simp only
      split <;> exact hrest

/-- A member that can be opened and is no entry changes nothing. -/
theorem entries_insert (he : e.opens b = true) (hname : Address.ofPath? (normalize e.name) = none)
    (h : ∀ e ∈ before ++ after, e.opens b = true) (limit : Nat) :
    (filesOf b (before ++ e :: after)).entries limit =
      (filesOf b (before ++ after)).entries limit := by
  have hall : ∀ x ∈ before ++ e :: after, x.opens b = true := fun x hx => by
    rcases List.mem_append.mp hx with hx | hx
    · exact h x (List.mem_append_left _ hx)
    · rcases List.mem_cons.mp hx with rfl | hx
      · exact he
      · exact h x (List.mem_append_right _ hx)
  rw [filesOf_eq hall, filesOf_eq h]
  -- only the files that are entries count, and the member gives none
  refine Listing.entries_of_filter ?_ limit
  have hfile : ∀ f, fileOf? b e = some f → f.isEntry = false := fun f hf => by
    rw [fileOf?] at hf
    split at hf
    · cases hf
    · obtain ⟨body, -, rfl⟩ := Option.map_eq_some_iff.mp hf
      rw [Member.isEntry, Member.address?, hname, Option.isSome_none]
  simp only [List.filterMap_append, List.filter_append]
  cases hf : fileOf? b e with
  | none => rw [List.filterMap_cons_none hf]
  | some f =>
    rw [List.filterMap_cons_some hf, List.filter_cons_of_neg]
    rw [hfile f hf]
    exact Bool.false_ne_true

/-- A member that cannot be opened spoils the archive, whatever its name is. -/
theorem entries_of_not_opens (hmem : e ∈ es) (h : e.opens b = false) (limit : Nat) :
    ∃ f, (filesOf b es).entries limit = .error f := by
  have hfault := filesOf_of_not_opens hmem h
  unfold Listing.entries
  cases hentries : Member.entries limit (filesOf b es).files with
  | error f => exact ⟨f, rfl⟩
  | ok found =>
    rw [hfault]
    exact ⟨.zip, rfl⟩

end Zip

namespace Archive

variable {p m r g g' : ByteArray} {fs ms : List Member} {y : Bool}

/-- Members of a tar archive that are no entries change nothing, wherever they stand and whatever
they hold; but the first two bytes still have to announce a tar archive. -/
theorem entries_insert (hp : Tar.Whole p fs) (hm : Tar.Whole m ms)
    (hms : ∀ f ∈ ms, f.isEntry = false) (hbound : (p ++ m ++ r).size < Tar.sizeBound)
    (htar : Container.of (p ++ r) = .tar) (htar' : Container.of (p ++ m ++ r) = .tar)
    (hread : (ofBytes (p ++ r)).listing.fault = none) (limit : Nat) :
    (ofBytes (p ++ m ++ r)).entries limit = (ofBytes (p ++ r)).entries limit := by
  rw [listing_of_tar htar] at hread
  rw [entries, entries, listing_of_tar htar, listing_of_tar htar']
  exact Tar.entries_insert hp hm hms hbound hread limit

/-- The same inside of gzip files, where the first bytes of the tar archive do not matter. -/
theorem entries_insert_of_gzip (hg : Stream.ofGzip g = ⟨p ++ r, true⟩)
    (hg' : Stream.ofGzip g' = ⟨p ++ m ++ r, true⟩) (hp : Tar.Whole p fs) (hm : Tar.Whole m ms)
    (hms : ∀ f ∈ ms, f.isEntry = false) (hbound : (p ++ m ++ r).size < Tar.sizeBound)
    (hread : (ofBytes g).listing.fault = none) (limit : Nat) :
    (ofBytes g').entries limit = (ofBytes g).entries limit := by
  have hgzip := Stream.container_of_ofGzip (show (Stream.ofGzip g).intact = true by rw [hg])
  have hgzip' := Stream.container_of_ofGzip (show (Stream.ofGzip g').intact = true by rw [hg'])
  rw [listing_of_gzip hgzip, hg] at hread
  rw [entries, entries, listing_of_gzip hgzip, listing_of_gzip hgzip', hg, hg']
  exact Tar.entries_insert hp hm hms hbound hread limit

end Archive

end StoryPack
