/-
Archives that are cut short.

What is left of an archive can be read without a fault only in a few ways.  A gzip
stream checks its own end, so it has to be there as a whole.  A zip archive ends
with its directory; a cut leaves a directory only if one stands inside of the
archive.  A tar archive need not have the block of zeros at its end: when it is cut
between two members, the files before the cut make an archive of their own.

* `Tar.listing_of_begins` — the beginning of a tar archive;
* `Zip.directory_of_cut` — the beginning of a zip archive;
* `Archive.listing_of_begins` — the beginning of any archive;
* `Loader.load_of_whole` — a tar archive that is cut between two members is loaded;
* `Loader.load_of_begins` — otherwise what is left gives the same pack, or none.
-/
import StoryPack.Proofs.Archive.Container
import StoryPack.Proofs.Archive.Tar
import StoryPack.Proofs.Pack.Shuffle

namespace StoryPack

open Bytes (At Begins)

namespace Tar

variable {q : ByteArray} {x : Bool} {fs : List Member}

/-- Where a stream ends, the reader takes the archive to end. -/
theorem headerAt_size (b : ByteArray) : headerAt ⟨b, true⟩ b.size = .finished := by
  have hfits : ¬ b.size + blockSize ≤ b.size := by
    simp only [blockSize]
    omega
  simp only [headerAt]
  rw [if_neg hfits]
  simp

/-- A tar archive that is cut after some members is an archive of these. -/
theorem Whole.listing_end (h : Whole q fs) : Tar.listing ⟨q, true⟩ = { files := fs } :=
  Scans.files h (headerAt_size q)

/-- When the beginning of a tar archive can be read, then the archive ends in it, or it is cut
between two members. -/
theorem listing_of_begins {s t : Stream} (hst : Begins s.data t.data)
    (h : (listing s).fault = none) :
    listing t = listing s ∨ s.intact = true ∧ Whole s.data (listing s).files := by
  obtain ⟨q, x⟩ := s
  obtain ⟨b, y⟩ := t
  obtain ⟨j, hscan, hend⟩ := exists_scans h
  rw [← listing_eq] at hscan
  rcases headerAt_eq_finished hend with hfits | ⟨hj, hx⟩
  · -- the block of zeros is there, and the reader does not look at what follows
    have hfits : j + blockSize ≤ q.size := hfits
    have hscan' : Scans ⟨b, y⟩ 0 {} (listing ⟨q, x⟩).files j {} := hscan.of_begins hst (by omega)
    have hend' : headerAt ⟨b, y⟩ j = .finished := (headerAt_of_begins hst hfits).trans hend
    rw [listing_eq, hscan'.files hend', listing_eq, hscan.files hend]
    exact .inl rfl
  · obtain rfl : j = q.size := hj
    obtain rfl : x = true := hx
    exact .inr ⟨rfl, hscan⟩

/-- Less than a block is no archive, unless there is nothing. -/
theorem size_eq_zero_of_short (hshort : q.size < blockSize) (h : (listing ⟨q, x⟩).fault = none) :
    q.size = 0 := by
  obtain ⟨j, hscan, hend⟩ := exists_scans h
  rcases headerAt_eq_finished hend with hfits | ⟨hj, -⟩
  · simp only at hfits
    omega
  · generalize (following ⟨q, x⟩ 0 {}).files = files at hscan
    cases hscan with
    | here => exact hj.symm
    | member hheader _ _ =>
      have := (headerAt_eq_header hheader).1
      simp only at this
      omega

end Tar

namespace Zip

variable {q b : ByteArray}

/-- Every record in the archive ends where the archive does. -/
def EndsOnce (b : ByteArray) : Prop :=
  ∀ i, Bytes.hasAt b endMark i = true → b.size ≤ i + 22 + Bytes.word b (i + 20) 2

/-- That is so when nothing looks like the record at the end before it. -/
theorem endsOnce_of_record {record : Nat} (hend : b.size = record + 22)
    (hfirst : ∀ i, Bytes.hasAt b endMark i = true → record ≤ i) : EndsOnce b := fun i hi => by
  have := hfirst i hi
  omega

theorem directoryBefore_eq_none (h : ∀ i, Bytes.hasAt b endMark i = true → locus? b i = none)
    (fuel stop : Nat) : directoryBefore b fuel stop = none := by
  induction fuel generalizing stop with
  | zero => rfl
  | succ fuel ih =>
    rw [directoryBefore]
    cases hrecord : Bytes.findLast? b endMark stop with
    | none => rfl
    | some record =>
      simp only [h record (Bytes.hasAt_of_findLast? hrecord), Option.bind_none]
      exact ih _

/-- A zip archive whose records all end with it has no directory any more when it is cut. -/
theorem directory_of_cut (hb : EndsOnce b) (hq : Begins q b) (hcut : q.size < b.size) :
    directory q = none := by
  -- a record that is left over stands in the whole as well, where it needs all that has been cut
  have hlocus (i : Nat) (hi : Bytes.hasAt q endMark i = true) : locus? q i = none := by
    have hmark : Bytes.hasAt b endMark i = true := by
      have hat := (At.of_begins hq).trans (Bytes.hasAt_iff.mp hi)
      rw [Nat.zero_add] at hat
      exact Bytes.hasAt_iff.mpr hat
    have hlast := hb i hmark
    rw [locus?]
    refine if_pos ?_
    rw [Bool.or_eq_true, decide_eq_true_iff, decide_eq_true_iff]
    rcases Nat.lt_or_ge q.size (i + 22) with hshort | hlong
    · exact .inl hshort
    · have hword := hq.word_eq (show i + 20 + 2 ≤ q.size from hlong)
      rw [hword] at hlast
      exact .inr (by omega)
  rw [directory, directoryBefore_eq_none hlocus]
  rfl

end Zip

namespace Archive

variable {q b : ByteArray}

/-- When the beginning of an archive can be read, then it holds the same files, or nothing is left,
or it is a tar archive that is cut between two members. -/
theorem listing_of_begins (hq : Begins q b) (hb : (ofBytes b).listing.fault = none)
    (hread : (ofBytes q).listing.fault = none) (hzip : Container.of b = .zip → Zip.EndsOnce b) :
    (ofBytes q).listing = (ofBytes b).listing ∨ q.size = 0 ∨
      Container.of b = .tar ∧ Tar.Whole q (ofBytes q).listing.files := by
  rcases Nat.lt_or_ge q.size 2 with hshort | hlong
  · rw [listing_of_tar (Container.of_eq_tar_of_short hshort)] at hread
    refine .inr (.inl (Tar.size_eq_zero_of_short ?_ hread))
    simp only [Tar.blockSize]
    omega
  · have hcontainer := Container.of_begins hq hlong
    cases hkind : Container.of b with
    | tar =>
      rw [listing_of_tar hkind]
      rw [listing_of_tar (hcontainer ▸ hkind)] at hread ⊢
      rcases Tar.listing_of_begins (t := ⟨b, true⟩) hq hread with hsame | ⟨-, hwhole⟩
      · exact .inl hsame.symm
      · exact .inr (.inr ⟨rfl, hwhole⟩)
    | gzipTar =>
      rw [listing_of_gzip hkind] at hb ⊢
      rw [listing_of_gzip (hcontainer ▸ hkind)] at hread ⊢
      refine .inl ?_
      rcases Stream.ofGzip_of_begins hq with hsame | ⟨hcut, hdata | ⟨hcut', hdata⟩⟩
      · rw [hsame]
      · -- the data end in a fault, so the end of the tar archive comes before it
        rcases Tar.listing_of_begins hdata hread with hsame | ⟨hintact, -⟩
        · exact hsame.symm
        · rw [hcut] at hintact
          cases hintact
      · rcases Tar.listing_of_begins hdata hb with hsame | ⟨hintact, -⟩
        · exact hsame
        · rw [hcut'] at hintact
          cases hintact
    | zip =>
      rw [listing_of_zip (hcontainer ▸ hkind)] at hread
      refine .inl ?_
      rcases Nat.lt_or_ge q.size b.size with hcut | hall
      · rw [Zip.listing, Zip.directory_of_cut (hzip hkind) hq hcut] at hread
        cases hread
      · obtain ⟨r, rfl⟩ := hq
        rw [ByteArray.size_append] at hall
        have hr : r = ByteArray.empty := ByteArray.size_eq_zero_iff.mp (by omega)
        rw [hr, ByteArray.append_empty]

end Archive

namespace Loader

variable (l : Loader) (build : Pack → Except String Pack) {q b : ByteArray} {p p' : Pack}

theorem fault_of_loadFiles {x : Listing} (h : (l.loadFiles x build).2 = .ok p) :
    x.fault = none := by
  cases hfault : x.fault with
  | none => rfl
  | some f =>
    obtain ⟨g, hg⟩ := l.loadFiles_of_fault build fun hnone => absurd (hfault.symm.trans hnone) nofun
    rw [hg] at h
    cases h

/-- No files make no pack. -/
theorem loadFiles_nil (p : Pack) : (l.loadFiles {} build).2 ≠ .ok p := by
  have hsort : Entry.sort [] = [] := List.mergeSort_nil
  have hload := l.loadFiles_of_entries build (x := {}) rfl rfl
  rw [hsort] at hload
  rw [hload]
  rcases hnew : Assembler.new l.host with ⟨host, f | a⟩
  · have hfault : (l.execute []).2 = .error (.script "<globals>" f) := by
      simp only [execute, assemble, hnew]
    rw [hfault]
    intro h
    cases h
  · obtain ⟨host₁, globals, -, -, rfl⟩ := Assembler.new_eq_ok_iff.mp hnew
    rw [execute_of_accepted hnew rfl]
    intro h
    cases h

/-- A tar archive that is cut between two members is loaded as if nothing followed. -/
theorem load_of_whole {fs : List Member} (hq : Tar.Whole q fs) (htar : Container.of q = .tar) :
    l.load (.ofBytes q) build = l.loadFiles { files := fs } build := by
  rw [load, Archive.listing_of_tar htar, hq.listing_end]

/-- What is left of an archive that has been cut short either cannot be loaded, or gives the same
pack, or the archive is a tar archive and the first of its files make a pack. -/
theorem load_of_begins (hq : Begins q b) (hb : (l.load (.ofBytes b) build).2 = .ok p)
    (hcut : (l.load (.ofBytes q) build).2 = .ok p')
    (hzip : Container.of b = .zip → Zip.EndsOnce b) :
    p' = p ∨ Container.of b = .tar ∧ ∃ k,
      Tar.Whole q ((Archive.ofBytes b).listing.files.take k) ∧
      (l.loadFiles { files := (Archive.ofBytes b).listing.files.take k } build).2 = .ok p' := by
  have hread := l.fault_of_loadFiles build hb
  have hread' := l.fault_of_loadFiles build hcut
  rcases Archive.listing_of_begins hq hread hread' hzip with hsame | hnothing | ⟨htar, hwhole⟩
  · refine .inl ?_
    simp only [load] at hb hcut
    rw [hsame, hb] at hcut
    exact (Except.ok.inj hcut).symm
  · have hnil : (Archive.ofBytes q).listing = {} := by
      obtain rfl := ByteArray.size_eq_zero_iff.mp hnothing
      rw [Archive.listing_of_tar (Container.of_eq_tar_of_short (by decide)),
        Tar.Whole.nil.listing_end]
    simp only [load, hnil] at hcut
    exact absurd hcut (l.loadFiles_nil build p')
  · refine .inr ⟨htar, (Archive.ofBytes q).listing.files.length, ?_⟩
    obtain ⟨r, rfl⟩ := hq
    have hfiles : (Archive.ofBytes (q ++ r)).listing.files.take
        (Archive.ofBytes q).listing.files.length = (Archive.ofBytes q).listing.files := by
      rw [Archive.listing_of_tar htar, hwhole.listing r true, Listing.files_prepend,
        List.take_left]
    have hall : ({ files := (Archive.ofBytes q).listing.files } : Listing) =
        (Archive.ofBytes q).listing := by rw [← hread']
    rw [hfiles, hall]
    exact ⟨hwhole, hcut⟩

end Loader

end StoryPack
