/-
The same items in both kinds of archives.

A tar archive says of each member what it is, and only regular files are read.  In
a zip archive only names tell directories from files, so a link is read as a file
that holds its target.  Apart from that the container does not matter: the items
give the same entries in the same order, or the same fault.

* `Archive.entries_zip` — what a zip archive of some items gives;
* `Archive.entries_tar` — what a tar archive of them gives;
* `Archive.entries_zip_eq_tar` — the two agree, up to links;
* `Archive.entries_zip_insert` — items that are no entries change nothing;
* `Archive.entries_tar_cut` — nor does it matter that the end of a tar archive is missing.
-/
import StoryPack.Proofs.Archive.TarWriting
import StoryPack.Proofs.Archive.Truncation
import StoryPack.Proofs.Archive.ZipWriting

namespace StoryPack

open Bytes (At Begins)

/-- The name under which a zip archive holds an item. -/
def Item.zipName (it : Item) : String :=
  match it.kind with
  | .directory => Zip.directoryName it.name
  | .file _ | .link _ => it.name

/-- The items can be put into a zip archive: the numbers have room, and the names are different. -/
structure Zip.Holds (packing : Item → Packing) (items : List Item) : Prop where
  fits : Fits (items.map (partOf packing))
  names : (items.map Item.zipName).Nodup

/-- The items can be put into a tar archive, which is not taken for something else. -/
structure Tar.Holds (items : List Item) : Prop where
  plain : ∀ it ∈ items, Plain it
  size : (write items).size < 8 ^ 11
  container : Container.of (write items) = .tar

namespace Zip

theorem name_partOf (packing : Item → Packing) (it : Item) :
    (partOf packing it).name = it.zipName := by
  obtain ⟨name, kind⟩ := it
  cases kind <;> rfl

end Zip

namespace Archive

variable {packing : Item → Zip.Packing} {items before after : List Item} {it : Item}

/-- A zip archive gives the entries among its items, with links taken for files. -/
theorem entries_zip (h : Zip.Holds packing items) (limit : Nat) :
    (ofBytes (Zip.write packing items)).entries limit =
      Listing.entries { files := items.filterMap fun it => it.followed.file? } limit := by
  have hnames : ((items.map (Zip.partOf packing)).map Zip.Part.name).Nodup := by
    rw [List.map_map]
    have hname : Zip.Part.name ∘ Zip.partOf packing = Item.zipName :=
      funext (Zip.name_partOf packing)
    rw [hname]
    exact h.names
  rw [Zip.write, entries, listing_of_zip (Zip.container_writeParts _),
    Zip.listing_writeParts h.fits hnames]
  refine Listing.entries_of_filter ?_ limit
  rw [List.filterMap_map, List.filter_filterMap, List.filter_filterMap]
  exact congrArg (List.filterMap · items) (funext (Zip.filter_file?_partOf packing))

/-- A tar archive gives the entries among its regular files. -/
theorem entries_tar (h : Tar.Holds items) (limit : Nat) :
    (ofBytes (Tar.write items)).entries limit =
      Listing.entries { files := items.filterMap Item.file? } limit := by
  rw [entries, listing_of_tar h.container, Tar.listing_write h.plain h.size]

/-- The container does not matter, but that a zip archive gives links as files: it gives what a tar
archive gives that holds such files in place of the links. -/
theorem entries_zip_eq_tar_followed (hzip : Zip.Holds packing items)
    (htar : Tar.Holds (items.map Item.followed)) (limit : Nat) :
    (ofBytes (Zip.write packing items)).entries limit =
      (ofBytes (Tar.write (items.map Item.followed))).entries limit := by
  rw [entries_zip hzip, entries_tar htar, List.filterMap_map]
  rfl

/-- Without links both archives give the same. -/
theorem entries_zip_eq_tar (hzip : Zip.Holds packing items) (htar : Tar.Holds items)
    (hlinks : ∀ it ∈ items, it.isLink = false) (limit : Nat) :
    (ofBytes (Zip.write packing items)).entries limit =
      (ofBytes (Tar.write items)).entries limit := by
  have hsame : items.map Item.followed = items := by
    have hid := List.map_congr_left fun it hit => Item.followed_of_not_isLink (hlinks it hit)
    rw [hid, List.map_id']
  rw [← hsame] at htar
  rw [entries_zip_eq_tar_followed hzip htar, hsame]

/-- An item that is no entry changes nothing in a zip archive, wherever it stands, whatever it holds
and however it is packed. -/
theorem entries_zip_insert (hit : ∀ m ∈ it.followed.file?, m.isEntry = false)
    (hwith : Zip.Holds packing (before ++ it :: after))
    (hwithout : Zip.Holds packing (before ++ after)) (limit : Nat) :
    (ofBytes (Zip.write packing (before ++ it :: after))).entries limit =
      (ofBytes (Zip.write packing (before ++ after))).entries limit := by
  rw [entries_zip hwith, entries_zip hwithout]
  refine Listing.entries_of_filter ?_ limit
  have hnone : it.followed.file?.filter Member.isEntry = none := by
    cases hfile : it.followed.file? with
    | none => rfl
    | some m => rw [Option.filter_some, hit m hfile]; rfl
  rw [List.filter_filterMap, List.filter_filterMap]
  simp only [List.filterMap_append, List.filterMap_cons, hnone]

/-- The blocks of zeros that end a tar archive are not missed. -/
theorem entries_tar_cut (h : Tar.Holds items) (limit : Nat) :
    (ofBytes (Tar.writeItems items)).entries limit = (ofBytes (Tar.write items)).entries limit := by
  have hsize := h.size
  rw [Tar.write, ByteArray.size_append] at hsize
  have htar : Container.of (Tar.writeItems items) = .tar := by
    rcases Nat.lt_or_ge (Tar.writeItems items).size 2 with hshort | hlong
    · exact Container.of_eq_tar_of_short hshort
    · rw [← Container.of_begins (Begins.append _ _) hlong]
      exact h.container
  have hwhole := Tar.whole_writeItems h.plain (Nat.lt_of_le_of_lt (Nat.le_add_right _ _) hsize)
  rw [entries_tar h, entries, listing_of_tar htar, hwhole.listing_end]

end Archive

end StoryPack
