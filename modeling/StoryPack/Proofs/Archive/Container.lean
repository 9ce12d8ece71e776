/-
The containers of an archive.

An archive is told by its first two bytes.  A compressed archive stands for the
tar archive inside of it, and the gzip format lets such streams follow one
another; but only the first stream is read.  Where that one holds a whole archive,
the rest is not missed.  Where it does not, the reader sees an archive that is cut
short there, and does not see that more streams follow.

* `Archive.listing_of_zip`, `listing_of_gzip`, `listing_of_tar` — one equation per container;
* `Container.of_begins` — two bytes tell;
* `Archive.entries_of_gzip` — a gzip file is the archive in its first stream;
* `Archive.entries_pack`, `entries_pack_append` — for every tar archive there is one.
-/
import StoryPack.Archive.Container
import StoryPack.Proofs.Archive.Gzip

namespace StoryPack

open Bytes (At Begins)

namespace Container

theorem size_zipMark : zipMark.size = 2 := by decide +kernel

theorem of_eq_zip {b : ByteArray} : Container.of b = .zip ↔ Bytes.hasAt b zipMark 0 = true := by
  unfold Container.of
  split
  · rename_i hzip
    exact ⟨fun _ => hzip, fun _ => rfl⟩
  · rename_i hzip
    split <;> exact ⟨nofun, fun h => absurd h hzip⟩

/-- Two bytes tell the container. -/
theorem of_begins {q b : ByteArray} (hq : Begins q b) (hsize : 2 ≤ q.size) :
    Container.of b = Container.of q := by
  have hzip : Bytes.hasAt b zipMark 0 = Bytes.hasAt q zipMark 0 :=
    hq.hasAt_eq (by rw [size_zipMark]; omega)
  have hgzip : Bytes.hasAt b Gzip.magic 0 = Bytes.hasAt q Gzip.magic 0 :=
    hq.hasAt_eq (show 0 + 2 ≤ q.size by omega)
  rw [Container.of, hzip, hgzip, Container.of]

/-- Less than two bytes are taken for a tar archive. -/
theorem of_eq_tar_of_short {b : ByteArray} (h : b.size < 2) : Container.of b = .tar := by
  have hno (mark : ByteArray) (hmark : mark.size = 2) :
      ¬ Bytes.hasAt b mark 0 = true := fun hat => by
    have := (Bytes.hasAt_iff.mp hat).fits
    omega
  unfold Container.of
  rw [if_neg (hno _ size_zipMark), if_neg (hno _ rfl)]

theorem of_eq_gzipTar {b : ByteArray} {i : Nat} (h : Gzip.bodyStart b = some i) :
    Container.of b = .gzipTar := by
  have hmagic := Gzip.hasAt_magic_of_bodyStart h
  have hzip : ¬ Bytes.hasAt b zipMark 0 = true := fun hzip => by
    have hz := (Bytes.hasAt_iff.mp hzip).byte (show 0 < zipMark.size by rw [size_zipMark]; omega)
    have hg := (Bytes.hasAt_iff.mp hmagic).byte (show 0 < Gzip.magic.size by decide)
    exact absurd (hz.symm.trans hg) (by decide +kernel)
  unfold Container.of
  rw [if_neg hzip, if_pos hmagic]

end Container

namespace Stream

/-- What gives a sound stream is a gzip archive. -/
theorem container_of_ofGzip {g : ByteArray} (h : (ofGzip g).intact = true) :
    Container.of g = .gzipTar := by
  cases hstart : Gzip.bodyStart g with
  | none =>
    rw [ofGzip, hstart] at h
    cases h
  | some i => exact Container.of_eq_gzipTar hstart

end Stream

namespace Archive

variable {b g t : ByteArray}

@[simp] theorem bytes_ofBytes (b : ByteArray) : (ofBytes b).bytes = b := ByteArray.empty_append

@[simp] theorem container_ofBytes (b : ByteArray) : (ofBytes b).container = Container.of b := rfl

/-- Of bytes that come in one piece nothing is there before the damage. -/
@[simp] theorem inflated_ofBytes (b : ByteArray) : (ofBytes b).inflated = Stream.ofGzip b := by
  have hnone : ((ofBytes b).before 0).bytes = ByteArray.empty := rfl
  have hempty : (Stream.ofGzip ByteArray.empty).data.size = 0 := by decide +kernel
  rw [inflated, bytes_ofBytes]
  split
  · rfl
  · show (Stream.ofGzip b).longer (Stream.ofGzip ((ofBytes b).before 0).bytes) = _
    rw [hnone, Stream.longer, hempty, if_neg (Nat.not_lt_zero _)]

theorem listing_of_zip (h : Container.of b = .zip) : (ofBytes b).listing = Zip.listing b := by
  rw [listing, container_ofBytes, h, bytes_ofBytes]

theorem listing_of_gzip (h : Container.of b = .gzipTar) :
    (ofBytes b).listing = Tar.listing (Stream.ofGzip b) := by
  rw [listing, container_ofBytes, h, inflated_ofBytes]

theorem listing_of_tar (h : Container.of b = .tar) :
    (ofBytes b).listing = Tar.listing ⟨b, true⟩ := by
  rw [listing, container_ofBytes, h, bytes_ofBytes]

/-- A gzip file is the archive in its first stream, whatever follows that stream. -/
theorem listing_of_ofGzip (hg : Stream.ofGzip g = ⟨t, true⟩) (ht : Container.of t = .tar)
    (r : ByteArray) : (ofBytes (g ++ r)).listing = (ofBytes t).listing := by
  have hintact : (Stream.ofGzip g).intact = true := by rw [hg]
  have hall : Stream.ofGzip (g ++ r) = ⟨t, true⟩ := (Stream.ofGzip_append hintact r).trans hg
  rw [listing_of_gzip (Stream.container_of_ofGzip (by rw [hall])), listing_of_tar ht, hall]

theorem entries_of_gzip (hg : Stream.ofGzip g = ⟨t, true⟩) (ht : Container.of t = .tar)
    (r : ByteArray) (limit : Nat) :
    (ofBytes (g ++ r)).entries limit = (ofBytes t).entries limit := by
  rw [entries, entries, listing_of_ofGzip hg ht]

/-- Every tar archive can be read from a gzip file, with the same result. -/
theorem entries_pack (ht : Container.of t = .tar) (limit : Nat) :
    (ofBytes (Gzip.pack t)).entries limit = (ofBytes t).entries limit := by
  have := entries_of_gzip (Gzip.ofGzip_pack t) ht ByteArray.empty limit
  rwa [ByteArray.append_empty] at this

/-- Of a tar archive that is spread over two gzip streams only the first part is read. -/
theorem entries_pack_append (ht : Container.of t = .tar) (rest : ByteArray) (limit : Nat) :
    (ofBytes (Gzip.pack t ++ Gzip.pack rest)).entries limit = (ofBytes t).entries limit :=
  entries_of_gzip (Gzip.ofGzip_pack t) ht _ limit

end Archive

end StoryPack
