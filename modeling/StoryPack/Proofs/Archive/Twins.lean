/-
Twins in archives.

Twins are members whose names announce one entry, or actions of both authors under
one name.  No pack has twins: the later of them finds its key taken.  But this
holds only of members that reach the loader.  All files of a tar archive do.  The
records of a zip archive are first put into a table by their names, where a record
takes the place of an earlier one with the very same name, and the earlier member is
not even opened.  Twins with different names are both in the table.

* `Zip.mem_foldl_putListed` — what is left of the records: the last of each name;
* `Zip.perm_foldl_putListed` — a record with a later one of its name is not missed;
* `Loader.load_tar_twins`, `load_gzip_twins` — twins in a tar archive make no pack;
* `Loader.load_zip_twins` — nor do twins in a zip archive, when their names differ;
* `Loader.load_zip_superseded` — of members with one name the last is loaded;
* `Loader.load_writeParts_superseded` — such an archive loads like one without the others.
-/
import StoryPack.Proofs.Archive.Truncation
import StoryPack.Proofs.Archive.ZipWriting
import StoryPack.Proofs.Pack.Shuffle

namespace StoryPack

open Bytes (At)

namespace Zip

variable {b : ByteArray} {e e' f : Listed} {acc es es' before after : List Listed}

/-! ### Records with one name -/

/-- The last record with a name. -/
def last? (es : List Listed) (name : String) : Option Listed :=
  es.reverse.find? fun e => e.name = name

theorem last?_concat (es : List Listed) (e : Listed) (name : String) :
    last? (es ++ [e]) name = if e.name = name then some e else last? es name := by
  rw [last?, List.reverse_concat, List.find?_cons]
  split <;> simp_all [last?]

theorem exists_last? {name : String} (h : name ∈ es.map Listed.name) :
    ∃ e, last? es name = some e ∧ e.name = name := by
  obtain ⟨e, he, rfl⟩ := List.mem_map.mp h
  cases hlast : last? es e.name with
  | none =>
    have hno := List.find?_eq_none.mp hlast e (List.mem_reverse.mpr he)
    exact absurd (decide_eq_true rfl) hno
  | some f =>
    have hname := List.find?_some hlast
    exact ⟨f, rfl, of_decide_eq_true hname⟩

/-- A record is not the last of its name when a later one has that name. -/
theorem last?_superseded (h : e.name ∈ after.map Listed.name) (name : String) :
    last? (before ++ e :: after) name = last? (before ++ after) name := by
  have hsplit (rest : List Listed) :
      last? (rest ++ after) name = (last? after name).or (last? rest name) := by
    rw [last?, List.reverse_append, List.find?_append]
    rfl
  rw [List.append_cons, hsplit, hsplit, last?_concat]
  by_cases hname : e.name = name
  · obtain ⟨f, hf, -⟩ := exists_last? (hname ▸ h)
    rw [hf, Option.some_or, Option.some_or]
  · rw [if_neg hname]

theorem map_name_putListed (acc : List Listed) (e : Listed) :
    (putListed acc e).map Listed.name =
      if e.name ∈ acc.map Listed.name then acc.map Listed.name
      else acc.map Listed.name ++ [e.name] := by
  induction acc with
  | nil => rfl
  | cons f rest ih =>
    rw [putListed]
    by_cases hname : f.name = e.name
    · rw [if_pos hname, List.map_cons, List.map_cons, hname, if_pos List.mem_cons_self]
    · rw [if_neg hname, List.map_cons, List.map_cons, ih]
      by_cases hmem : e.name ∈ rest.map Listed.name
      · rw [if_pos hmem, if_pos (List.mem_cons_of_mem _ hmem)]
      · have hnew := List.not_mem_cons_of_ne_of_not_mem (Ne.symm hname) hmem
        rw [if_neg hmem, if_neg hnew, List.cons_append]

/-- A record is put beside those with other names. -/
theorem mem_putListed (h : (acc.map Listed.name).Nodup) :
    f ∈ putListed acc e ↔ f = e ∨ f ∈ acc ∧ f.name ≠ e.name := by
  induction acc with
  | nil => simp [putListed]
  | cons g rest ih =>
    rw [List.map_cons, List.nodup_cons] at h
    rw [putListed]
    by_cases hname : g.name = e.name
    · -- no other record has the name of the one that goes
      have hrest : f ∈ rest → f.name ≠ e.name := fun hf heq =>
        h.1 (hname.trans heq.symm ▸ List.mem_map_of_mem hf)
      rw [if_pos hname, List.mem_cons, List.mem_cons]
      constructor
      · rintro (rfl | hf)
        · exact .inl rfl
        · exact .inr ⟨.inr hf, hrest hf⟩
      · rintro (rfl | ⟨rfl | hf, hne⟩)
        · exact .inl rfl
        · exact absurd hname hne
        · exact .inr hf
    · rw [if_neg hname, List.mem_cons, List.mem_cons, ih h.2]
      constructor
      · rintro (rfl | rfl | hf)
        · exact .inr ⟨.inl rfl, hname⟩
        · exact .inl rfl
        · exact .inr ⟨.inr hf.1, hf.2⟩
      · rintro (rfl | ⟨rfl | hf, hne⟩)
        · exact .inr (.inl rfl)
        · exact .inl rfl
        · exact .inr (.inr ⟨hf, hne⟩)

/-- The table has each name once. -/
theorem nodup_foldl_putListed (es : List Listed) :
    ((es.foldl putListed []).map Listed.name).Nodup := by
  induction es using List.reverseRecOn with
  | nil => exact List.nodup_nil
  | append_singleton es e ih =>
    rw [List.foldl_concat, map_name_putListed]
    split
    · exact ih
    · rename_i hnew
      exact List.concat_eq_append ▸ ih.concat hnew

/-- Of the records with one name the last is in the table. -/
theorem mem_foldl_putListed : f ∈ es.foldl putListed [] ↔ last? es f.name = some f := by
  induction es using List.reverseRecOn with
  | nil => simp [last?]
  | append_singleton es e ih =>
    rw [List.foldl_concat, mem_putListed (nodup_foldl_putListed es), ih, last?_concat]
    by_cases hname : e.name = f.name
    · simp [hname, eq_comm]
    · rw [if_neg hname]
      constructor
      · rintro (rfl | hf)
        · exact absurd rfl hname
        · exact hf.1
      · exact fun hf => .inr ⟨hf, Ne.symm hname⟩

/-- A record with a later one of its name may as well be missing, but for the order. -/
theorem perm_foldl_putListed (h : e.name ∈ after.map Listed.name) :
    ((before ++ e :: after).foldl putListed []).Perm ((before ++ after).foldl putListed []) := by
  refine (List.perm_ext_iff_of_nodup (nodup_foldl_putListed _).of_map
    (nodup_foldl_putListed _).of_map).mpr fun f => ?_
  rw [mem_foldl_putListed, mem_foldl_putListed, last?_superseded h]

/-! ### Twins -/

/-- The names are those of entries, and neither comes before the other. -/
def Listed.Ties (e e' : Listed) : Prop :=
  ∃ a a', Address.ofPath? (normalize e.name) = some a ∧
    Address.ofPath? (normalize e'.name) = some a' ∧ Address.compare a a' = .eq

/-- A member with the name of an entry is a file when it can be opened. -/
theorem exists_fileOf? {a : Address} (ha : Address.ofPath? (normalize e.name) = some a)
    (hopens : e.opens b = true) : ∃ m, fileOf? b e = some m ∧ m.path = normalize e.name := by
  have hname : ¬ isDirectoryName e.name = true := fun hname => by
    rw [Member.ofPath?_normalize_of_isDirectoryName hname] at ha
    cases ha
  obtain ⟨body, hbody⟩ := Option.isSome_iff_exists.mp hopens
  exact ⟨⟨normalize e.name, e.size, body⟩, by rw [fileOf?, if_neg hname, hbody]; rfl, rfl⟩

/-- Without a fault all members can be opened. -/
theorem opens_of_filesOf (h : (filesOf b es).fault = none) : ∀ e ∈ es, e.opens b = true := by
  intro e he
  by_contra hopens
  rw [filesOf_of_not_opens he (Bool.eq_false_iff.mpr hopens)] at h
  cases h

/-- Where no files tie, no two members with different names do. -/
theorem not_ties_of_untied (hes : ∀ e ∈ es, e.opens b = true)
    (h : Member.Untied (filesOf b es).files) (he : e ∈ es) (he' : e' ∈ es)
    (hname : e.name ≠ e'.name) : ¬ e.Ties e' := by
  rintro ⟨a, a', ha, ha', htie⟩
  obtain ⟨m, hm, hpath⟩ := exists_fileOf? ha (hes e he)
  obtain ⟨m', hm', hpath'⟩ := exists_fileOf? ha' (hes e' he')
  rw [filesOf_eq hes, Member.Untied, List.pairwise_filterMap] at h
  -- the files may be equal, but the records are not, as their names differ
  have : Std.Symm fun e e' : Listed => ∀ m, fileOf? b e = some m →
      ∀ m', fileOf? b e' = some m' → ¬ m.Ties m' :=
    ⟨fun _ _ hno m hm m' hm' htie => hno m' hm' m hm htie.symm⟩
  refine h.forall he he' (fun heq => hname (congrArg _ heq)) m hm m' hm' ⟨a, a', ?_, ?_, htie⟩
  · rw [Member.address?, hpath, ha]
  · rw [Member.address?, hpath', ha']

end Zip

namespace Loader

variable (l : Loader) (build : Pack → Except String Pack)
variable {b g p r : ByteArray} {fs : List Member} {y : Bool}

/-! ### Tar archives -/

/-- Twins among the files of an archive make no pack. -/
theorem load_twins {a : Archive} (hfiles : fs.Sublist a.listing.files)
    (htwins : ¬ Member.Untied fs) (pack : Pack) : (l.load a build).2 ≠ .ok pack := fun hload =>
  htwins ((l.untied_of_loadFiles build hload).sublist hfiles)

/-- Twins among the members of a tar archive make no pack, whatever follows. -/
theorem load_tar_twins (hp : Tar.Whole p fs) (htwins : ¬ Member.Untied fs)
    (htar : Container.of (p ++ r) = .tar) (pack : Pack) :
    (l.load (.ofBytes (p ++ r)) build).2 ≠ .ok pack := by
  refine l.load_twins build ?_ htwins pack
  rw [Archive.listing_of_tar htar, hp.listing r true, Listing.files_prepend]
  exact List.sublist_append_left _ _

/-- The same inside of gzip files. -/
theorem load_gzip_twins (hg : Stream.ofGzip g = ⟨p ++ r, y⟩) (hgzip : Container.of g = .gzipTar)
    (hp : Tar.Whole p fs) (htwins : ¬ Member.Untied fs) (pack : Pack) :
    (l.load (.ofBytes g) build).2 ≠ .ok pack := by
  refine l.load_twins build ?_ htwins pack
  rw [Archive.listing_of_gzip hgzip, hg, hp.listing r y, Listing.files_prepend]
  exact List.sublist_append_left _ _

/-! ### Zip archives -/

section Zip

open Zip

variable {e e' : Listed} {es es' before after : List Listed}

theorem load_of_zip (hzip : Container.of b = .zip)
    (hes : directoryBefore b (b.size + 1) b.size = some es) :
    l.load (.ofBytes b) build = l.loadFiles (filesOf b (es.foldl putListed [])) build := by
  rw [load, Archive.listing_of_zip hzip, listing, directory, hes]
  rfl

/-- Twins with different names in the directory of a zip archive make no pack. -/
theorem load_zip_twins (hzip : Container.of b = .zip)
    (hes : directoryBefore b (b.size + 1) b.size = some es) (he : e ∈ es) (he' : e' ∈ es)
    (hname : e.name ≠ e'.name) (htwins : e.Ties e') (pack : Pack) :
    (l.load (.ofBytes b) build).2 ≠ .ok pack := by
  intro hload
  rw [l.load_of_zip build hzip hes] at hload
  -- for each of the twins there is a record with its name in the table
  obtain ⟨f, hf, hfname⟩ := exists_last? (List.mem_map_of_mem (f := Listed.name) he)
  obtain ⟨f', hf', hfname'⟩ := exists_last? (List.mem_map_of_mem (f := Listed.name) he')
  rw [← hfname] at hf
  rw [← hfname'] at hf'
  have hties : f.Ties f' := by
    rw [Listed.Ties, hfname, hfname']
    exact htwins
  refine not_ties_of_untied (opens_of_filesOf (l.fault_of_loadFiles build hload))
    (l.untied_of_loadFiles build hload) (mem_foldl_putListed.mpr hf) (mem_foldl_putListed.mpr hf')
    ?_ hties
  rw [hfname, hfname']
  exact hname

/-- The order of the members of a zip archive does not matter. -/
theorem filesOf_agree (h : es.Perm es') :
    LoaderFault.Agree (l.loadFiles (filesOf b es) build).2
      (l.loadFiles (filesOf b es') build).2 := by
  by_cases hall : ∀ e ∈ es, e.opens b = true
  · have hall' : ∀ e ∈ es', e.opens b = true := fun e he => hall e (h.mem_iff.mpr he)
    rw [filesOf_eq hall, filesOf_eq hall']
    exact l.loadFiles_agree build (h.filterMap _) rfl
  · have hall' : ¬ ∀ e ∈ es', e.opens b = true := fun hopens =>
      hall fun e he => hopens e (h.mem_iff.mp he)
    obtain ⟨f, hf⟩ := l.loadFiles_of_fault build fun hfault => absurd (opens_of_filesOf hfault) hall
    obtain ⟨f', hf'⟩ :=
      l.loadFiles_of_fault build fun hfault => absurd (opens_of_filesOf hfault) hall'
    rw [hf, hf']
    rfl

/-- A member is not loaded, and its body is not looked at, when a later record has its name: the
load goes as it would without its record. -/
theorem load_zip_superseded (hzip : Container.of b = .zip)
    (hes : directoryBefore b (b.size + 1) b.size = some (before ++ e :: after))
    (hname : e.name ∈ after.map Listed.name) :
    LoaderFault.Agree (l.load (.ofBytes b) build).2
      (l.loadFiles (filesOf b ((before ++ after).foldl putListed [])) build).2 := by
  rw [l.load_of_zip build hzip hes]
  exact l.filesOf_agree build (perm_foldl_putListed hname)

/-- An archive in which a later member has the name of an earlier one loads like the archive without
the earlier one. -/
theorem load_writeParts_superseded {p : Part} {before after : List Part}
    (hwith : Zip.Fits (before ++ p :: after)) (hwithout : Zip.Fits (before ++ after))
    (hname : p.name ∈ after.map Part.name) (hnames : ((before ++ after).map Part.name).Nodup) :
    LoaderFault.Agree (l.load (.ofBytes (writeParts (before ++ p :: after))) build).2
      (l.load (.ofBytes (writeParts (before ++ after))) build).2 := by
  have hrecords := (At.self (writeParts (before ++ p :: after))).left
  rw [records_append] at hrecords
  have hfirst := hrecords.left
  have hlast := hrecords.right.right
  have hfits := List.forall_mem_append.mp hwithout.each
  -- the records of the others are where they were
  let kept := listedFrom 0 before ++ listedFrom (0 + (records before).size + p.record.size) after
  have hkept : kept.map Listed.name = (before ++ after).map Part.name := by
    rw [List.map_append, List.map_append, map_name_listedFrom, map_name_listedFrom]
  have hopens : ∀ e ∈ kept, e.opens (writeParts (before ++ p :: after)) = true :=
    List.forall_mem_append.mpr ⟨opens_of_at hfirst hfits.1, opens_of_at hlast hfits.2⟩
  have hfiles : filesOf (writeParts (before ++ p :: after)) kept =
      listing (writeParts (before ++ after)) := by
    rw [filesOf_eq hopens, listing_writeParts hwithout hnames, List.filterMap_append,
      filterMap_fileOf? hfirst hfits.1, filterMap_fileOf? hlast hfits.2, List.filterMap_append]
  have hes := directoryBefore_writeParts hwith
  rw [listedFrom_append, listedFrom] at hes
  have hload := l.load_zip_superseded build (container_writeParts _) hes
    (by rwa [map_name_listedFrom])
  rw [foldl_putListed (by rwa [hkept]), hfiles] at hload
  have hless : l.load (.ofBytes (writeParts (before ++ after))) build =
      l.loadFiles (listing (writeParts (before ++ after))) build := by
    rw [load, Archive.listing_of_zip (container_writeParts _)]
  rwa [hless]

end Zip

end Loader

end StoryPack
