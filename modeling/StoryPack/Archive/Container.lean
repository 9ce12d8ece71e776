/-
Archives in any container.

A pack is a zip archive or a tar archive, and the tar archive may be compressed.
The bytes at the beginning tell which.  They are looked for in what the source
delivers first: a source that delivers less than the two bytes of a mark hides
it, and what it delivers is taken for a tar archive.

* `Container.of` — the container that the first bytes announce;
* `Archive.ofBytes`, `Archive.ofFile` — bytes at hand, and a file that is read piece by piece;
* `Archive.inflated` — the stream inside of a compressed archive;
* `Archive.listing` — the files of an archive;
* `Archive.entries` — its entries in processing order.
-/
import StoryPack.Archive.Tar
import StoryPack.Archive.Zip

namespace StoryPack

/-- What the members of a pack are packed in. -/
inductive Container where
  | zip | gzipTar | tar
deriving DecidableEq, Repr, Inhabited

namespace Container

/-- What a zip archive begins with. -/
def zipMark : ByteArray := "PK".toUTF8

/-- The container that the first bytes announce. -/
def of (head : ByteArray) : Container :=
  if Bytes.hasAt head zipMark 0 then .zip
  else if Bytes.hasAt head Gzip.magic 0 then .gzipTar
  else .tar

end Container

/-- The bytes of an archive, in the pieces in which its source delivers them. -/
structure Archive where
  pieces : List ByteArray
deriving Inhabited

namespace Archive

/-- An archive that is delivered in one piece. -/
def ofBytes (b : ByteArray) : Archive := ⟨[b]⟩

/-- How many bytes of a file are read at a time. -/
def bufferSize : Nat := 8192

/-- An archive in a file, which delivers as many bytes at a time as the buffer holds. -/
def ofFile (b : ByteArray) : Archive :=
  ⟨(List.range ((b.size + (bufferSize - 1)) / bufferSize)).map fun k =>
    b.extract (bufferSize * k) (bufferSize * k + bufferSize)⟩

/-- All bytes of an archive. -/
def bytes (a : Archive) : ByteArray := a.pieces.foldl (· ++ ·) ByteArray.empty

/-- The container of an archive, told by its first piece. -/
def container (a : Archive) : Container := Container.of (a.pieces.headD ByteArray.empty)

/-- The archive as it is before its last pieces, `k` of them being there. -/
def before (a : Archive) (k : Nat) : Archive := ⟨a.pieces.take k⟩

/-- The stream inside of a compressed archive. Damage is met when its piece is there, and what comes
out of the pieces before it has been seen by then. -/
def inflated (a : Archive) : Stream :=
  let s := Stream.ofGzip a.bytes
  if s.intact then s
  else (List.range a.pieces.length).foldl
    (fun s k => s.longer (Stream.ofGzip (a.before k).bytes)) s

/-- The files of an archive. -/
def listing (a : Archive) : Listing :=
  match a.container with
  | .zip => Zip.listing a.bytes
  | .gzipTar => Tar.listing a.inflated
  | .tar => Tar.listing { data := a.bytes, intact := true }

/-- The entries of an archive in processing order. -/
def entries (a : Archive) (limit : Nat) : Except ReadFault (List Entry) :=
  a.listing.entries limit

end Archive

end StoryPack
