/-
Archives that come in pieces.

A source hands out its bytes in pieces, and where it cuts them says nothing about
the archive.  Two things look at the pieces all the same.  The container is told
by the first piece, and damage of compressed data is met when its piece comes.  So
only the bytes count as long as the first piece holds the two bytes of a mark and
the data are not damaged.

* `Archive.entries_of_bytes` — two deliveries of the same bytes give the same entries;
* `Archive.entries_ofFile` — a file that is read through a buffer gives those of its bytes;
* `Archive.listing_of_reads` — damaged or not, the deliveries that can be read agree;
* `Archive.listing_of_before` — damage that comes after a whole archive is not met;
* `Archive.listing_of_damage` — a tar archive for which it is met when all comes at once;
* `Archive.fault_of_short` — a first piece of less than two bytes hides the container.
-/
import StoryPack.Proofs.Archive.Truncation
import StoryPack.Proofs.Archive.TarWriting

namespace StoryPack

open Bytes (Begins)

namespace Gzip

/-- All bytes that come out of a gzip stream, those before its damage among them. -/
def contents (b : ByteArray) : ByteArray :=
  match bodyStart b with
  | none => ByteArray.empty
  | some i => (inflate b i).1

/-- The deflated data are no deflated data from some point on. -/
def Damaged (b : ByteArray) : Prop := ∃ i, bodyStart b = some i ∧ (inflate b i).2 = .corrupt

end Gzip

namespace Stream

open Gzip

variable {q b : ByteArray} {s t : Stream}

theorem longer_of_le (h : t.data.size ≤ s.data.size) : s.longer t = s := if_neg (Nat.not_lt.mpr h)

theorem size_le_longer (s t : Stream) :
    s.data.size ≤ (s.longer t).data.size ∧ t.data.size ≤ (s.longer t).data.size := by
  unfold longer
  split <;> omega

theorem le_foldl_longer (f : Nat → Stream) {ks : List Nat} (s : Stream) {k : Nat} (hk : k ∈ ks) :
    (f k).data.size ≤ (ks.foldl (fun s k => s.longer (f k)) s).data.size := by
  have hmono (ks : List Nat) (s : Stream) :
      s.data.size ≤ (ks.foldl (fun s k => s.longer (f k)) s).data.size := by
    induction ks generalizing s with
    | nil => exact Nat.le_refl _
    | cons j ks ih => exact Nat.le_trans (size_le_longer s (f j)).1 (ih _)
  induction ks generalizing s with
  | nil => cases hk
  | cons j ks ih =>
    rcases List.mem_cons.mp hk with rfl | hk
    · exact Nat.le_trans (size_le_longer s (f k)).2 (hmono ks _)
    · exact ih _ hk

/-- What is seen of the beginning of a gzip stream is a beginning of its contents. -/
theorem ofGzip_begins_contents (hq : Begins q b) : Begins (ofGzip q).data (contents b) := by
  cases hstart : bodyStart q with
  | none =>
    rw [ofGzip, hstart]
    exact .empty _
  | some i =>
    have hinflate := inflate_window (.of_begins hq) i
    rw [Nat.zero_add] at hinflate
    simp only [ofGzip, contents, hstart, bodyStart_of_begins hq hstart]
    generalize inflate q i = r at hinflate
    obtain ⟨data, ending⟩ := r
    rcases hinflate with heq | ⟨rfl, hdata⟩
    · rw [heq]
      cases ending with
      | corrupt => exact .extract _ _
      | finished | truncated => exact .refl _
    · exact hdata

/-- A stream that shows a part of some contents and ends in a fault. -/
structure Shows (s : Stream) (whole : ByteArray) : Prop where
  fault : s.intact = false
  begins : Begins s.data whole

/-- Where the fault of a stream is not met, the rest would not have been looked at. -/
theorem Shows.listing (h : s.Shows t.data) (hread : (Tar.listing s).fault = none) :
    Tar.listing t = Tar.listing s := by
  rcases Tar.listing_of_begins h.begins hread with hsame | ⟨hintact, -⟩
  · exact hsame
  · rw [h.fault] at hintact
    cases hintact

theorem Shows.ofGzip (hq : Begins q b) (hb : (ofGzip b).intact = false) :
    (ofGzip q).Shows (contents b) where
  fault := by
    cases hintact : (Stream.ofGzip q).intact with
    | false => rfl
    | true =>
      obtain ⟨r, rfl⟩ := hq
      rw [ofGzip_append hintact, hintact] at hb
      cases hb
  begins := ofGzip_begins_contents hq

/-- Of data that are not damaged all is seen. -/
theorem ofGzip_data_of_sound (h : ¬ Damaged b) : (ofGzip b).data = contents b := by
  unfold ofGzip contents
  cases hstart : bodyStart b with
  | none => rfl
  | some i =>
    have hsound : (inflate b i).2 ≠ .corrupt := fun hcorrupt => h ⟨i, hstart, hcorrupt⟩
    simp only
    generalize inflate b i = r at hsound
    obtain ⟨data, ending⟩ := r
    cases ending with
    | corrupt => exact absurd rfl hsound
    | finished | truncated => rfl

end Stream

namespace Archive

open Gzip (contents Damaged)

variable {a a' : Archive} {b : ByteArray}

/-! ### Pieces -/

/-- The first piece. -/
def first (a : Archive) : ByteArray := a.pieces.headD ByteArray.empty

theorem bytes_cons (p : ByteArray) (ps : List ByteArray) :
    (⟨p :: ps⟩ : Archive).bytes = p ++ (⟨ps⟩ : Archive).bytes := by
  have hfold (x : ByteArray) : ps.foldl (· ++ ·) x = x ++ ps.foldl (· ++ ·) ByteArray.empty := by
    induction ps generalizing x with
    | nil => exact ByteArray.append_empty.symm
    | cons p ps ih =>
      rw [List.foldl_cons, List.foldl_cons, ih, ih (ByteArray.empty ++ p), ByteArray.empty_append,
        ByteArray.append_assoc]
  rw [bytes, List.foldl_cons, hfold, ByteArray.empty_append, bytes]

theorem bytes_append (ps qs : List ByteArray) :
    (⟨ps ++ qs⟩ : Archive).bytes = (⟨ps⟩ : Archive).bytes ++ (⟨qs⟩ : Archive).bytes := by
  induction ps with
  | nil => exact ByteArray.empty_append.symm
  | cons p ps ih => rw [List.cons_append, bytes_cons, ih, bytes_cons, ByteArray.append_assoc]

theorem first_begins (a : Archive) : Begins a.first a.bytes := by
  obtain ⟨_ | ⟨p, ps⟩⟩ := a
  · exact .refl _
  · rw [bytes_cons]
    exact .append _ _

theorem before_begins (a : Archive) (k : Nat) : Begins (a.before k).bytes a.bytes := by
  have hsplit := bytes_append (a.pieces.take k) (a.pieces.drop k)
  rw [List.take_append_drop] at hsplit
  exact ⟨_, hsplit⟩

/-! ### The container -/

/-- The first piece tells the container: it has the two bytes of a mark, or it is all there is. -/
def Tells (a : Archive) : Prop := 2 ≤ a.first.size ∨ a.first = a.bytes

theorem Tells.container (h : a.Tells) : a.container = Container.of a.bytes := by
  rcases h with hlong | hall
  · exact (Container.of_begins a.first_begins hlong).symm
  · exact congrArg Container.of hall

/-- A first piece that is too short for a mark is taken for the beginning of a tar archive. -/
theorem listing_of_short (h : a.first.size < 2) : a.listing = Tar.listing ⟨a.bytes, true⟩ := by
  have hcontainer : a.container = .tar := Container.of_eq_tar_of_short h
  rw [listing, hcontainer]

/-! ### Compressed data -/

theorem inflated_of_intact (h : (Stream.ofGzip a.bytes).intact = true) :
    a.inflated = Stream.ofGzip a.bytes := if_pos h

theorem inflated_of_fault (h : (Stream.ofGzip a.bytes).intact = false) :
    a.inflated = (List.range a.pieces.length).foldl
      (fun s k => s.longer (Stream.ofGzip (a.before k).bytes)) (Stream.ofGzip a.bytes) :=
  if_neg (Bool.eq_false_iff.mp h)

/-- A sound stream is seen whole. Of any other a beginning of the contents is seen, and then a
fault. -/
theorem inflated_cases (a : Archive) :
    (Stream.ofGzip a.bytes).intact = true ∨
      (Stream.ofGzip a.bytes).intact = false ∧ a.inflated.Shows (contents a.bytes) := by
  cases hintact : (Stream.ofGzip a.bytes).intact with
  | true => exact .inl rfl
  | false =>
    refine .inr ⟨rfl, ?_⟩
    rw [inflated_of_fault hintact]
    refine List.foldlRecOn (motive := fun s : Stream => s.Shows (contents a.bytes)) _ _
      (.ofGzip (.refl _) hintact) fun s hs k _ => ?_
    unfold Stream.longer
    split
    · exact .ofGzip (a.before_begins k) hintact
    · exact hs

/-- The pieces of data that are not damaged do not matter. -/
theorem inflated_of_sound (h : ¬ Damaged a.bytes) : a.inflated = Stream.ofGzip a.bytes := by
  cases hintact : (Stream.ofGzip a.bytes).intact with
  | true => exact inflated_of_intact hintact
  | false =>
    rw [inflated_of_fault hintact]
    refine List.foldlRecOn (motive := (· = Stream.ofGzip a.bytes)) _ _ rfl fun s hs k _ => ?_
    have hle := (Stream.ofGzip_begins_contents (a.before_begins k)).size_le
    rw [← Stream.ofGzip_data_of_sound h] at hle
    rw [hs, Stream.longer_of_le hle]

/-- What is seen of the first pieces is seen of all of them. -/
theorem begins_inflated (a : Archive) {k : Nat} (hk : k < a.pieces.length) :
    Stream.ofGzip (a.before k).bytes = a.inflated ∨
      (Stream.ofGzip (a.before k).bytes).Shows a.inflated.data := by
  rcases a.inflated_cases with hintact | ⟨hfault, hseen⟩
  · rw [inflated_of_intact hintact]
    rcases Stream.ofGzip_of_begins (a.before_begins k) with hsame | ⟨hcut, hbegins | ⟨hfault, -⟩⟩
    · exact .inl hsame.symm
    · exact .inr ⟨hcut, hbegins⟩
    · rw [hintact] at hfault
      cases hfault
  · have hbefore := Stream.Shows.ofGzip (a.before_begins k) hfault
    refine .inr ⟨hbefore.fault, hbefore.begins.of_size_le hseen.begins ?_⟩
    rw [inflated_of_fault hfault]
    exact Stream.le_foldl_longer (fun k => Stream.ofGzip (a.before k).bytes) _
      (List.mem_range.mpr hk)

/-! ### Files -/

/-- Only the bytes of an archive count when its first piece tells the container and its compressed
data are not damaged. -/
theorem listing_of_bytes (hbytes : a.bytes = a'.bytes) (ha : a.Tells) (ha' : a'.Tells)
    (hsound : Container.of a.bytes = .gzipTar → ¬ Damaged a.bytes) : a.listing = a'.listing := by
  rw [listing, listing, ha.container, ha'.container, ← hbytes]
  cases hkind : Container.of a.bytes with
  | zip => rfl
  | tar => rfl
  | gzipTar =>
    have hsound := hsound hkind
    simp only
    rw [inflated_of_sound hsound, inflated_of_sound (hbytes ▸ hsound), hbytes]

theorem entries_of_bytes (hbytes : a.bytes = a'.bytes) (ha : a.Tells) (ha' : a'.Tells)
    (hsound : Container.of a.bytes = .gzipTar → ¬ Damaged a.bytes) (limit : Nat) :
    a.entries limit = a'.entries limit := by
  rw [entries, listing_of_bytes hbytes ha ha' hsound, entries]

/-- Two deliveries of an archive that can both be read hold the same files, damaged or not. -/
theorem listing_of_reads (hbytes : a.bytes = a'.bytes) (ha : a.Tells) (ha' : a'.Tells)
    (hread : a.listing.fault = none) (hread' : a'.listing.fault = none) :
    a.listing = a'.listing := by
  rw [listing, ha.container] at hread ⊢
  rw [listing, ha'.container, ← hbytes] at hread' ⊢
  cases hkind : Container.of a.bytes with
  | zip => rfl
  | tar => rfl
  | gzipTar =>
    simp only [hkind] at hread hread' ⊢
    rcases a.inflated_cases with hintact | ⟨hfault, hseen⟩
    · rw [inflated_of_intact hintact, inflated_of_intact (hbytes ▸ hintact), hbytes]
    · rcases a'.inflated_cases with hintact' | ⟨-, hseen'⟩
      · rw [← hbytes, hfault] at hintact'
        cases hintact'
      · rw [← hbytes] at hseen'
        rcases Nat.le_total a.inflated.data.size a'.inflated.data.size with hle | hle
        · exact (Stream.Shows.listing ⟨hseen.fault, hseen.begins.of_size_le hseen'.begins hle⟩
            hread).symm
        · exact Stream.Shows.listing ⟨hseen'.fault, hseen'.begins.of_size_le hseen.begins hle⟩
            hread'

/-- Damage that comes after a whole archive is not met. -/
theorem listing_of_before {k : Nat} (hk : k < a.pieces.length) (hkind : a.container = .gzipTar)
    (hread : (Tar.listing (Stream.ofGzip (a.before k).bytes)).fault = none) :
    a.listing = Tar.listing (Stream.ofGzip (a.before k).bytes) := by
  rw [listing, hkind]
  rcases a.begins_inflated hk with hsame | hshows
  · rw [hsame]
  · exact hshows.listing hread

/-! ### Files on disk -/

theorem bytes_ofFile (b : ByteArray) : (ofFile b).bytes = b := by
  have hpieces (n : Nat) :
      (⟨(List.range n).map fun k => b.extract (bufferSize * k) (bufferSize * k + bufferSize)⟩ :
        Archive).bytes = b.extract 0 (bufferSize * n) := by
    induction n with
    | zero => exact ByteArray.extract_same.symm
    | succ n ih =>
      rw [List.range_succ, List.map_append, bytes_append, ih, List.map_singleton, bytes_cons,
        show (⟨[]⟩ : Archive).bytes = ByteArray.empty from rfl, ByteArray.append_empty,
        ByteArray.extract_append_extract, Nat.zero_min, Nat.max_eq_right (Nat.le_add_right _ _),
        Nat.mul_succ]
  have hall : b.size ≤ bufferSize * ((b.size + (bufferSize - 1)) / bufferSize) := by
    simp only [bufferSize]
    omega
  rw [ofFile, hpieces, ← Nat.max_eq_left hall, ByteArray.extract_zero_max_size]

theorem tells_ofFile (b : ByteArray) : (ofFile b).Tells := by
  rcases Nat.eq_zero_or_pos b.size with hempty | hpos
  · rw [ByteArray.size_eq_zero_iff] at hempty
    subst hempty
    exact .inr rfl
  · obtain ⟨n, hn⟩ : ∃ n, (b.size + (bufferSize - 1)) / bufferSize = n + 1 :=
      ⟨_, (Nat.sub_add_cancel (by simp only [bufferSize]; omega)).symm⟩
    have hfirst : (ofFile b).first = b.extract 0 bufferSize := by
      rw [first, ofFile, hn, List.range_succ_eq_map, List.map_cons, List.headD_cons, Nat.mul_zero,
        Nat.zero_add]
    rw [Tells, hfirst, bytes_ofFile]
    rcases Nat.lt_or_ge b.size bufferSize with hshort | hlong
    · rw [← Nat.max_eq_left (Nat.le_of_lt hshort)]
      exact .inr ByteArray.extract_zero_max_size
    · rw [ByteArray.size_extract, Nat.min_eq_left hlong]
      exact .inl (by decide)

/-- A file that is read through a buffer gives the entries of its bytes. -/
theorem entries_ofFile {b : ByteArray} (hsound : Container.of b = .gzipTar → ¬ Damaged b)
    (limit : Nat) : (ofFile b).entries limit = (ofBytes b).entries limit := by
  refine entries_of_bytes ?_ (tells_ofFile b) ?_ ?_ limit
  · rw [bytes_ofFile, bytes_ofBytes]
  · exact .inr (bytes_ofBytes b).symm
  · rwa [bytes_ofFile]

/-! ### Pieces that matter -/

/-- A first piece that hides the mark makes a short archive unreadable, whatever it is. -/
theorem fault_of_short (hfirst : a.first.size < 2) (hpos : 0 < a.bytes.size)
    (hshort : a.bytes.size < Tar.blockSize) : a.listing.fault ≠ none := fun hread => by
  rw [listing_of_short hfirst] at hread
  have := Tar.size_eq_zero_of_short hshort hread
  omega

end Archive

/-! ### Damage -/

namespace Gzip

variable {data : ByteArray}

/-- The beginning of a gzip stream: up to the end of a block that is not the last one. -/
def opened (data : ByteArray) : ByteArray := header ++ Inflate.storedBlock 0 data

/-- A byte with which no block begins. -/
def noBlock : ByteArray := Bytes.single 7

theorem size_opened (data : ByteArray) : (opened data).size = 15 + data.size := by
  rw [opened, ByteArray.size_append, Inflate.size_storedBlock, show header.size = 10 from rfl]
  omega

theorem bodyStart_opened (data r : ByteArray) : bodyStart (opened data ++ r) = some 10 := by
  rw [opened, ByteArray.append_assoc]
  exact bodyStart_of_begins (.append header _) (by decide +kernel)

theorem inflate_opened (hsize : data.size ≤ 65535) (r : ByteArray) :
    inflate (opened data ++ r) 10 =
      Inflate.blocks (opened data ++ r) (8 * (opened data ++ r).size) (8 * (opened data).size)
        data := by
  have hat : Bytes.At (opened data ++ r) header.size (Inflate.storedBlock 0 data) :=
    .of_append _ _ _
  have hblocks := Inflate.blocks_storedBlock hat hsize (8 * (opened data ++ r).size) ByteArray.empty
  rw [show header.size = 10 from rfl, ByteArray.empty_append] at hblocks
  rw [inflate, hblocks, Inflate.size_storedBlock, size_opened]
  congr 1
  omega

theorem ofGzip_opened (hsize : data.size ≤ 65535) :
    Stream.ofGzip (opened data) = ⟨data, false⟩ := by
  have hstart := bodyStart_opened data ByteArray.empty
  have hinflate := inflate_opened hsize ByteArray.empty
  obtain ⟨n, hn⟩ : ∃ n, 8 * (opened data).size = n + 1 :=
    ⟨_, (Nat.sub_add_cancel (by rw [size_opened]; omega)).symm⟩
  rw [ByteArray.append_empty] at hstart hinflate
  have hend : inflate (opened data) 10 = (data, .truncated) := by
    rw [hinflate, hn, Inflate.blocks_succ, ← hn, Bits.read?_of_le (Nat.le_refl _)]
  rw [Stream.ofGzip, hstart]
  simp only [hend]

theorem inflate_noBlock (hsize : data.size ≤ 65535) :
    inflate (opened data ++ noBlock) 10 = (data, .corrupt) := by
  have hat : Bytes.At (opened data ++ noBlock) (opened data).size noBlock := by
    have := Bytes.At.of_append (opened data) noBlock ByteArray.empty
    rwa [ByteArray.append_empty] at this
  obtain ⟨n, hn⟩ : ∃ n, 8 * (opened data ++ noBlock).size = n + 1 :=
    ⟨_, (Nat.sub_add_cancel (by rw [ByteArray.size_append, size_opened]; omega)).symm⟩
  have hlast : Bits.read? (opened data ++ noBlock) (8 * (opened data).size) 1 = some 1 :=
    Bits.read?_window hat (i := 0) (by decide)
  have htype : Bits.read? (opened data ++ noBlock) (8 * (opened data).size + 1) 2 = some 3 :=
    Bits.read?_window hat (by decide)
  rw [inflate_opened hsize, hn, Inflate.blocks_succ, hlast, htype]
  rfl

theorem ofGzip_noBlock (hsize : data.size ≤ 65535) :
    Stream.ofGzip (opened data ++ noBlock) = ⟨data.extract 0 (data.size - 1), false⟩ := by
  rw [Stream.ofGzip, bodyStart_opened]
  simp only [inflate_noBlock hsize]

theorem contents_noBlock (hsize : data.size ≤ 65535) :
    contents (opened data ++ noBlock) = data := by
  rw [contents, bodyStart_opened]
  simp only [inflate_noBlock hsize]

end Gzip

namespace Tar

variable {q : ByteArray} {fs : List Member}

/-- Where less than a block is left before a fault, there is no header. -/
theorem headerAt_of_cut {s : Stream} {i : Nat} (hs : s.intact = false)
    (hi : s.data.size < i + blockSize) : headerAt s i = .fault := by
  simp only [headerAt]
  rw [if_neg (by omega), hs, Bool.and_false]
  rfl

/-- An archive that ends with one block of zeros. -/
def ended (q : ByteArray) : ByteArray := q ++ Bytes.replicate blockSize 0

theorem listing_ended (hq : Whole q fs) : listing ⟨ended q, false⟩ = { files := fs } := by
  rw [ended, hq.listing, following_of_finished (headerAt_zeros q false (Nat.le_refl _)),
    Listing.prepend_empty]

/-- The block of zeros has to be whole when a fault comes after it. -/
theorem listing_ended_cut (hq : Whole q fs) :
    listing ⟨(ended q).extract 0 ((ended q).size - 1), false⟩ =
      { files := fs, fault := some .io } := by
  have hsize : (ended q).size = q.size + blockSize := by
    rw [ended, ByteArray.size_append, Bytes.size_replicate]
  have hblock : 0 < blockSize := by decide +kernel
  have hbegin : q.extract 0 (q.size + blockSize - 1) = q := by
    rw [← Nat.max_eq_left (show q.size ≤ q.size + blockSize - 1 by omega),
      ByteArray.extract_zero_max_size]
  have hfault : following ⟨(ended q).extract 0 ((ended q).size - 1), false⟩ q.size {} =
      .fail .io := by
    rw [following_eq, headerAt_of_cut rfl (by rw [ByteArray.size_extract]; omega)]
  rw [hsize, ended, ByteArray.extract_append, hbegin] at hfault ⊢
  rw [hq.listing, hfault]
  exact congrArg (Listing.mk · (some .io)) (List.append_nil fs)

end Tar

namespace Archive

open Gzip (opened noBlock)

variable {t q : ByteArray} {fs : List Member}

/-- Of data that come before the damage nothing is lost. -/
theorem inflated_opened (hsize : t.size ≤ 65535) :
    (⟨[opened t, noBlock]⟩ : Archive).inflated = ⟨t, false⟩ := by
  have hbytes : (⟨[opened t, noBlock]⟩ : Archive).bytes = opened t ++ noBlock := by
    rw [bytes_cons, bytes_cons, show (⟨[]⟩ : Archive).bytes = ByteArray.empty from rfl,
      ByteArray.append_empty]
  have hbefore : ((⟨[opened t, noBlock]⟩ : Archive).before 1).bytes = opened t :=
    ByteArray.empty_append
  rcases begins_inflated ⟨[opened t, noBlock]⟩ (k := 1) Nat.one_lt_two with hsame | hshows
  · rw [← hsame, hbefore, Gzip.ofGzip_opened hsize]
  · rcases inflated_cases ⟨[opened t, noBlock]⟩ with hintact | ⟨-, hseen⟩
    · rw [hbytes, Gzip.ofGzip_noBlock hsize] at hintact
      cases hintact
    · rw [hbefore, Gzip.ofGzip_opened hsize] at hshows
      rw [hbytes, Gzip.contents_noBlock hsize] at hseen
      generalize (⟨[opened t, noBlock]⟩ : Archive).inflated = s at hshows hseen
      obtain ⟨data, intact⟩ := s
      obtain ⟨rfl, rfl⟩ : intact = false ∧ t = data :=
        ⟨hseen.fault, hshows.begins.antisymm hseen.begins⟩
      rfl

/-- A tar archive that has come before the damage is read, and is not when all comes at once. -/
theorem listing_of_damage (hq : Tar.Whole q fs) (hsize : (Tar.ended q).size ≤ 65535) :
    (⟨[opened (Tar.ended q), noBlock]⟩ : Archive).listing = { files := fs } ∧
      (ofBytes (opened (Tar.ended q) ++ noBlock)).listing = { files := fs, fault := some .io } := by
  have hkind (r : ByteArray) : Container.of (opened (Tar.ended q) ++ r) = .gzipTar :=
    Container.of_eq_gzipTar (Gzip.bodyStart_opened _ r)
  have hfirst : (⟨[opened (Tar.ended q), noBlock]⟩ : Archive).container = .gzipTar := by
    have := hkind ByteArray.empty
    rwa [ByteArray.append_empty] at this
  rw [listing_of_gzip (hkind _), Gzip.ofGzip_noBlock hsize, Tar.listing_ended_cut hq, listing,
    hfirst, inflated_opened hsize]
  exact ⟨Tar.listing_ended hq, rfl⟩

end Archive

end StoryPack
