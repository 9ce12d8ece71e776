/-
Writing zip archives.

A writer for archives in one part and of less than four gigabytes: a record for
each member with its data, as they are or deflated, then the directory, and the
record at the end.  Reading what it writes gives all members back that are no
directories, the links among them with their targets: a reader of the directory
does not look at the modes that are recorded there.

* `Zip.Packing` — a way to pack data that can be undone;
* `Zip.Part`, `Zip.writeParts` — a member as it is written, and an archive;
* `Zip.body?_of_at`, `Zip.listedAt_of_at` — a member and its entry are read back;
* `Zip.directoryBefore_of_record` — the record at the end is found;
* `Zip.listing_writeParts` — the files of an archive.
-/
import StoryPack.Proofs.Archive.Gzip
import StoryPack.Proofs.Archive.Inert
import StoryPack.Proofs.Archive.Item
import StoryPack.Proofs.Text.Ascii

namespace StoryPack

open Bytes (At Begins byte word)

namespace Zip

/-! ### Parts of an archive -/

/-- A way to pack data: as they are, or deflated. -/
structure Packing where
  method : Nat
  pack : ByteArray → ByteArray
  /-- What is packed can be read back. -/
  sound : ∀ data, method = 0 ∧ pack data = data ∨
    method = 8 ∧ ∃ i, inflate (pack data) 0 = (data, .finished i)

/-- Data as they are. -/
def Packing.stored : Packing where
  method := 0
  pack data := data
  sound _ := .inl ⟨rfl, rfl⟩

/-- Deflated data. -/
def Packing.deflated : Packing where
  method := 8
  pack := Inflate.store
  sound _ := .inr ⟨rfl, _, inflate_store (.self _)⟩

/-- A member as it is written. -/
structure Part where
  name : String
  packing : Packing
  data : ByteArray
  /-- The mode that is recorded. -/
  mode : Nat

namespace Part

/-- The data as they are written. -/
def packed (p : Part) : ByteArray := p.packing.pack p.data

/-- The flags: whether the name needs Unicode. -/
def flags (p : Part) : Nat := if p.name.toList.all fun c => c.val ≤ 127 then 0 else 0x800

/-- A member with its data. -/
def record (p : Part) : ByteArray :=
  Bytes.fields [(4, 0x04034b50), (2, 20), (2, p.flags), (2, p.packing.method), (2, 0), (2, 0x21),
    (4, (crc32 p.data).toNat), (4, p.packed.size), (4, p.data.size), (2, p.name.toUTF8.size),
    (2, 0)] ++ (p.name.toUTF8 ++ p.packed)

/-- The entry of the directory for a member that stands at `start`. -/
def entry (p : Part) (start : Nat) : ByteArray :=
  Bytes.fields [(4, 0x02014b50), (2, 0x314), (2, 20), (2, p.flags), (2, p.packing.method), (2, 0),
    (2, 0x21), (4, (crc32 p.data).toNat), (4, p.packed.size), (4, p.data.size),
    (2, p.name.toUTF8.size), (2, 0), (2, 0), (2, 0), (2, 0), (4, p.mode * 0x10000), (4, start)] ++
    p.name.toUTF8

/-- What the reader makes of the entry. -/
def listed (p : Part) (start : Nat) : Listed where
  name := p.name
  encrypted := false
  method := Method.ofNumber p.packing.method
  checksum := (crc32 p.data).toNat
  compressedSize := p.packed.size
  size := p.data.size
  start := start

/-- The file that a member becomes, unless it is a directory. -/
def file? (p : Part) : Option Member :=
  if isDirectoryName p.name then none else some ⟨normalize p.name, p.data.size, ⟨p.data, true⟩⟩

/-- The numbers in the records of a member have room there. -/
structure Fits (p : Part) : Prop where
  name : p.name.toUTF8.size < 256 ^ 2
  packed : p.packed.size < 256 ^ 4
  data : p.data.size < 256 ^ 4

end Part

/-! ### One member -/

theorem plainName_ascii {cs : List Char} (h : Utf8.Ascii cs) :
    plainName (String.ofList cs).toUTF8 = String.ofList cs := by
  have key (cs : List Char) (h : Utf8.Ascii cs) (s : String) :
      (cs.map fun c => c.val.toUInt8).foldl (fun (s : String) x => s.push
        (if x < 128 then Char.ofNat x.toNat else upperHalf.getD (x.toNat - 128) '?')) s =
        s ++ String.ofList cs := by
    induction cs generalizing s with
    | nil => simp
    | cons c rest ih =>
      obtain ⟨hc, hrest⟩ := List.forall_mem_cons.mp h
      have hnat : c.val.toUInt8.toNat = c.toNat := by
        have : c.val.toNat ≤ 127 := UInt32.le_iff_toNat_le.mp hc
        rw [UInt32.toNat_toUInt8]
        exact Nat.mod_eq_of_lt (by omega)
      have hlow : c.val.toUInt8 < 128 := by
        have : c.val.toNat ≤ 127 := UInt32.le_iff_toNat_le.mp hc
        rw [UInt8.lt_iff_toNat_lt, hnat]
        exact Nat.lt_of_le_of_lt this (by decide)
      rw [List.map_cons, List.foldl_cons, ih hrest, if_pos hlow, hnat, Char.ofNat_toNat]
      simp [← String.toList_inj]
  rw [plainName, Bytes.foldl_eq, Utf8.toUTF8_ascii h, List.data_toByteArray]
  have := key cs h ""
  rwa [String.empty_append] at this

section Member

variable {b : ByteArray} {p : Part} {i start : Nat}

theorem Part.flags_cases (p : Part) :
    p.flags = 0 ∧ plainName p.name.toUTF8 = p.name ∨ p.flags = 0x800 := by
  unfold flags
  split
  · rename_i hascii
    refine .inl ⟨rfl, ?_⟩
    have h : Utf8.Ascii p.name.toList := fun c hc => by
      simpa using List.all_eq_true.mp hascii c hc
    have := plainName_ascii h
    rwa [String.ofList_toList] at this
  · exact .inr rfl

theorem Part.size_record (p : Part) :
    p.record.size = 30 + p.name.toUTF8.size + p.packed.size := by
  simp only [record, ByteArray.size_append, Bytes.size_fields, Bytes.width_cons, Bytes.width_nil]
  omega

theorem Part.size_entry (p : Part) (start : Nat) :
    (p.entry start).size = 46 + p.name.toUTF8.size := by
  simp only [entry, ByteArray.size_append, Bytes.size_fields, Bytes.width_cons, Bytes.width_nil]

theorem hasAt_of_field {mark : ByteArray} {value : Nat} {fs : List (Nat × Nat)}
    (hat : At b i (Bytes.fields ((4, value) :: fs))) (hmark : Bytes.little 4 value = mark) :
    Bytes.hasAt b mark i = true :=
  Bytes.hasAt_iff.mpr (hmark ▸ hat.left)

/-- The data of a member are read where they stand. -/
theorem bodyFrom_of_at (hat : At b i p.packed) :
    bodyFrom b (p.listed start) i = ⟨p.data, true⟩ := by
  have hfits := hat.fits
  have hpacked : b.extract i (min (i + p.packed.size) b.size) = p.packed := by
    rw [Nat.min_eq_left hfits]
    exact hat.extract_self
  simp only [bodyFrom, Part.listed, hpacked]
  rcases p.packing.sound p.data with ⟨hmethod, hpack⟩ | ⟨hmethod, n, hpack⟩
  · have hdata : p.packed = p.data := hpack
    simp only [hmethod, Method.ofNumber, hdata, beq_self_eq_true]
  · have hdata : inflate p.packed 0 = (p.data, .finished n) := hpack
    simp only [hmethod, Method.ofNumber, hdata, beq_self_eq_true]

theorem Part.method_ne_unsupported (p : Part) :
    Method.ofNumber p.packing.method ≠ .unsupported := by
  rcases p.packing.sound p.data with ⟨hmethod, -⟩ | ⟨hmethod, -⟩ <;> rw [hmethod] <;> decide

/-- A member can be opened where it stands, and its data are read. -/
theorem body?_of_at (hat : At b start p.record) (hfits : p.Fits) :
    body? b (p.listed start) = some ⟨p.data, true⟩ := by
  have hend := hat.fits
  rw [p.size_record] at hend
  have hmark : Bytes.hasAt b memberMark start = true := hasAt_of_field hat.left (by decide +kernel)
  have hname : word b (start + 26) 2 = p.name.toUTF8.size :=
    hat.left.field (k := 9) rfl (by simp) hfits.name
  have hextra : word b (start + 28) 2 = 0 := hat.left.field (k := 10) rfl (by simp) (by decide)
  have hpacked : At b (start + 30 + p.name.toUTF8.size + 0) p.packed := hat.right.right
  have hopen : ¬ ((p.listed start).encrypted || b.size < (p.listed start).start + 30 ||
      !Bytes.hasAt b memberMark (p.listed start).start ||
      (p.listed start).method == .unsupported) = true := by
    have hroom : ¬ b.size < start + 30 := by omega
    simp [Part.listed, hmark, p.method_ne_unsupported, hroom]
  rw [body?, if_neg hopen]
  simp only [Part.listed] at hname hextra ⊢
  rw [hname, hextra]
  exact congrArg some (bodyFrom_of_at hpacked)

/-- The entry of a member is read where it stands. -/
theorem listedAt_of_at (hat : At b i (p.entry start)) (hfits : p.Fits) (hstart : start < 256 ^ 4) :
    listedAt b 0 i = some (p.listed start, i + (p.entry start).size) := by
  have hend := hat.fits
  rw [p.size_entry] at hend ⊢
  have hfields := hat.left
  have hmark : Bytes.hasAt b directoryMark i = true := hasAt_of_field hfields (by decide +kernel)
  have hflags : word b (i + 8) 2 = p.flags := hfields.field (k := 3) rfl (by simp) (by
    rcases p.flags_cases with ⟨hflags, -⟩ | hflags <;> rw [hflags] <;> decide)
  have hmethod : word b (i + 10) 2 = p.packing.method := hfields.field (k := 4) rfl (by simp) (by
    rcases p.packing.sound p.data with ⟨hmethod, -⟩ | ⟨hmethod, -⟩ <;> rw [hmethod] <;> decide)
  have hchecksum : word b (i + 16) 4 = (crc32 p.data).toNat :=
    hfields.field (k := 7) rfl (by simp) (crc32 p.data).toNat_lt
  have hpacked : word b (i + 20) 4 = p.packed.size :=
    hfields.field (k := 8) rfl (by simp) hfits.packed
  have hsize : word b (i + 24) 4 = p.data.size := hfields.field (k := 9) rfl (by simp) hfits.data
  have hname : word b (i + 28) 2 = p.name.toUTF8.size :=
    hfields.field (k := 10) rfl (by simp) hfits.name
  have hextra : word b (i + 30) 2 = 0 := hfields.field (k := 11) rfl (by simp) (by decide)
  have hcomment : word b (i + 32) 2 = 0 := hfields.field (k := 12) rfl (by simp) (by decide)
  have hplace : word b (i + 42) 4 = start := hfields.field (k := 16) rfl (by simp) hstart
  have hraw : b.extract (i + 46) (i + 46 + p.name.toUTF8.size) = p.name.toUTF8 :=
    hat.right.extract_self
  -- the name is read from its bytes with Unicode and, when it needs none, without
  have htext : (if p.flags &&& 0x800 != 0 then Utf8.lossy p.name.toUTF8
      else plainName p.name.toUTF8) = p.name := by
    rcases p.flags_cases with ⟨hflags, hplain⟩ | hflags
    · rw [hflags, hplain]
      rfl
    · rw [hflags, Utf8.lossy_toUTF8]
      rfl
  have hencrypted : (p.flags &&& 1 != 0) = false := by
    rcases p.flags_cases with ⟨hflags, -⟩ | hflags <;> rw [hflags] <;> rfl
  have hroom : ¬ (b.size < i + 46 || !Bytes.hasAt b directoryMark i) = true := by
    have : ¬ b.size < i + 46 := by omega
    simp [hmark, this]
  have hextras (e : Listed) :
      takeExtras p.name.toUTF8 ByteArray.empty (ByteArray.empty.size + 1) 0 e = some e := rfl
  have hbound : start < sizeBound := Nat.lt_trans hstart (by decide)
  unfold listedAt
  rw [if_neg hroom]
  simp only [hflags, hmethod, hchecksum, hpacked, hsize, hname, hextra, hcomment, hplace, hraw,
    htext, hencrypted, Nat.add_zero, ByteArray.extract_same, hextras]
  rw [if_neg (by omega), if_pos hbound, Nat.add_assoc]
  rfl

end Member

/-! ### Archives -/

/-- The members one after another. -/
def records : List Part → ByteArray
  | [] => ByteArray.empty
  | p :: rest => p.record ++ records rest

/-- The directory of members of which the first one stands at `start`. -/
def entriesFrom (start : Nat) : List Part → ByteArray
  | [] => ByteArray.empty
  | p :: rest => p.entry start ++ entriesFrom (start + p.record.size) rest

/-- What the reader makes of the directory. -/
def listedFrom (start : Nat) : List Part → List Listed
  | [] => []
  | p :: rest => p.listed start :: listedFrom (start + p.record.size) rest

theorem records_append (ps qs : List Part) : records (ps ++ qs) = records ps ++ records qs := by
  induction ps with
  | nil => rw [List.nil_append, records, ByteArray.empty_append]
  | cons p rest ih => rw [List.cons_append, records, records, ih, ByteArray.append_assoc]

theorem listedFrom_append (start : Nat) (ps qs : List Part) :
    listedFrom start (ps ++ qs) =
      listedFrom start ps ++ listedFrom (start + (records ps).size) qs := by
  induction ps generalizing start with
  | nil => rfl
  | cons p rest ih =>
    rw [List.cons_append, listedFrom, listedFrom, ih, records, ByteArray.size_append, Nat.add_assoc,
      List.cons_append]

/-- The record at the end. -/
def endRecord (count size start : Nat) : ByteArray :=
  Bytes.fields
    [(4, 0x06054b50), (2, 0), (2, 0), (2, count), (2, count), (4, size), (4, start), (2, 0)]

/-- An archive of some members. -/
def writeParts (parts : List Part) : ByteArray :=
  records parts ++ (entriesFrom 0 parts ++
    endRecord parts.length (entriesFrom 0 parts).size (records parts).size)

section Parts

variable {b : ByteArray} {parts : List Part} {i start : Nat}

theorem listed_of_at (hat : At b i (entriesFrom start parts)) (hfits : ∀ p ∈ parts, p.Fits)
    (hstart : start + (records parts).size ≤ 256 ^ 4) :
    listed b 0 parts.length i = some (listedFrom start parts) := by
  -- both places move on: that of the entry in the directory and that of the member it leads to
  induction parts generalizing i start with
  | nil => rfl
  | cons p rest ih =>
    obtain ⟨hp, hrest⟩ := List.forall_mem_cons.mp hfits
    have hsize := p.size_record
    rw [records, ByteArray.size_append] at hstart
    have hfirst := listedAt_of_at hat.left hp (by omega)
    have hothers := ih hat.right hrest (by omega)
    rw [List.length_cons, listed, hfirst]
    simp only [Option.bind_eq_bind, Option.bind_some, hothers, listedFrom]

theorem opens_of_at (hat : At b start (records parts)) (hfits : ∀ p ∈ parts, p.Fits) :
    ∀ e ∈ listedFrom start parts, e.opens b = true := by
  induction parts generalizing start with
  | nil => nofun
  | cons p rest ih =>
    obtain ⟨hp, hrest⟩ := List.forall_mem_cons.mp hfits
    refine List.forall_mem_cons.mpr ⟨?_, ih hat.right hrest⟩
    rw [Listed.opens, body?_of_at hat.left hp]
    rfl

theorem filterMap_fileOf? (hat : At b start (records parts)) (hfits : ∀ p ∈ parts, p.Fits) :
    (listedFrom start parts).filterMap (fileOf? b) = parts.filterMap Part.file? := by
  induction parts generalizing start with
  | nil => rfl
  | cons p rest ih =>
    obtain ⟨hp, hrest⟩ := List.forall_mem_cons.mp hfits
    have hfile : fileOf? b (p.listed start) = p.file? := by
      rw [fileOf?, body?_of_at hat.left hp]
      rfl
    rw [listedFrom, List.filterMap_cons, hfile, ih hat.right hrest, List.filterMap_cons]

/-- Entries with different names are all kept. -/
theorem foldl_putListed {es : List Listed} (h : (es.map Listed.name).Nodup) :
    es.foldl putListed [] = es := by
  have hput (acc : List Listed) (e : Listed) (hnew : e.name ∉ acc.map Listed.name) :
      putListed acc e = acc ++ [e] := by
    induction acc with
    | nil => rfl
    | cons f rest ih =>
      rw [List.map_cons, List.mem_cons, not_or] at hnew
      rw [putListed, if_neg (Ne.symm hnew.1), ih hnew.2, List.cons_append]
  -- nothing is replaced, as no name of the rest has been seen yet
  have key (es acc : List Listed) (hall : ((acc ++ es).map Listed.name).Nodup) :
      es.foldl putListed acc = acc ++ es := by
    induction es generalizing acc with
    | nil => rw [List.append_nil, List.foldl_nil]
    | cons e rest ih =>
      have hnew : e.name ∉ acc.map Listed.name := fun hmem => by
        rw [List.map_append, List.nodup_append] at hall
        exact hall.2.2 _ hmem _ List.mem_cons_self rfl
      have hassoc : acc ++ e :: rest = acc ++ [e] ++ rest := by simp
      rw [List.foldl_cons, hput acc e hnew, hassoc, ih]
      rwa [hassoc] at hall
  exact key es [] h

theorem map_name_listedFrom (start : Nat) (parts : List Part) :
    (listedFrom start parts).map Listed.name = parts.map Part.name := by
  induction parts generalizing start with
  | nil => rfl
  | cons p rest ih => rw [listedFrom, List.map_cons, List.map_cons, ih]; rfl

end Parts

/-! ### The record at the end -/

section Record

variable {b : ByteArray} {record : Nat}

/-- Marks do not overlap. -/
theorem endMark_apart {i j : Nat} (hi : Bytes.hasAt b endMark i = true)
    (hj : Bytes.hasAt b endMark j = true) (hij : i < j) : i + 4 ≤ j := by
  refine Nat.le_of_not_lt fun hlt => ?_
  obtain ⟨k, rfl⟩ : ∃ k, j = i + k := ⟨j - i, by omega⟩
  have hinner := (Bytes.hasAt_iff.mp hi).byte (show k < endMark.size by change k < 4; omega)
  have houter := (Bytes.hasAt_iff.mp hj).byte (show 0 < endMark.size by decide)
  rw [Nat.add_zero, hinner] at houter
  have hno : ∀ k < 4, 0 < k → byte endMark k ≠ byte endMark 0 := by decide
  exact hno k (by omega) (by omega) houter

/-- A record with which the archive ends is found: behind it there is no room for another one. -/
theorem directoryBefore_of_record {es : List Listed} (hmark : Bytes.hasAt b endMark record = true)
    (hend : b.size = record + 22) (hes : (locus? b record).bind (directoryAt b) = some es)
    {fuel stop : Nat} (hstop : record < stop) (hfuel : stop ≤ record + fuel) :
    directoryBefore b fuel stop = some es := by
  -- the search goes back from one mark to the one before, each time below the last `stop`
  induction fuel generalizing stop with
  | zero => omega
  | succ fuel ih =>
    obtain ⟨j, hij, hj, hfind⟩ := Bytes.exists_findLast? hmark hstop
    rw [directoryBefore, hfind]
    rcases Nat.eq_or_lt_of_le hij with rfl | hlt
    · simp only [hes]
    · have hnone : locus? b j = none := by
        rw [locus?, if_pos]
        rw [Bool.or_eq_true, decide_eq_true_iff]
        exact .inl (by omega)
      have happart := endMark_apart hmark (Bytes.hasAt_of_findLast? hfind) hlt
      simp only [hnone, Option.bind_none]
      exact ih (by omega) (by omega)

end Record

/-- The numbers in an archive have room in its records. -/
structure Fits (parts : List Part) : Prop where
  each : ∀ p ∈ parts, p.Fits
  count : parts.length < 0xffff
  size : (writeParts parts).size < 0xffffffff

theorem size_writeParts (parts : List Part) : (writeParts parts).size =
    (records parts).size + (entriesFrom 0 parts).size + 22 := by
  rw [writeParts, ByteArray.size_append, ByteArray.size_append, endRecord, Bytes.size_fields]
  simp only [Bytes.width_cons, Bytes.width_nil]
  omega

theorem findMark_of_hasAt {b mark : ByteArray} {i stop : Nat} (h : Bytes.hasAt b mark i = true)
    (hstop : i + 4 ≤ stop) : findMark b mark i stop = some i := by
  have hfits := (Bytes.hasAt_iff.mp h).fits
  rw [findMark, Bytes.find?, if_pos hfits, if_pos h]
  simp [hstop]

/-- The record at the end leads to the directory. -/
theorem locus?_writeParts {parts : List Part} (h : Fits parts) :
    locus? (writeParts parts) ((records parts).size + (entriesFrom 0 parts).size) =
      some
        { record := (records parts).size + (entriesFrom 0 parts).size
          shift := 0
          offset := (records parts).size
          count := parts.length
          isWhole := true } := by
  have hat := At.self (writeParts parts)
  have hentries := hat.right.left
  have hend := hat.right.right
  simp only [Nat.zero_add] at hentries hend
  have hsize := size_writeParts parts
  have hcount := h.count
  have hbound := h.size
  generalize hb : writeParts parts = b at *
  generalize hn : parts.length = n at *
  generalize hr : (records parts).size = r at *
  have hcomment : word b (r + (entriesFrom 0 parts).size + 20) 2 = 0 :=
    hend.field (k := 7) rfl (by simp) (by decide)
  have htotal : word b (r + (entriesFrom 0 parts).size + 10) 2 = n :=
    hend.field (k := 4) rfl (by simp) (by omega)
  have hhere : word b (r + (entriesFrom 0 parts).size + 8) 2 = n :=
    hend.field (k := 3) rfl (by simp) (by omega)
  have hoffset : word b (r + (entriesFrom 0 parts).size + 16) 4 = r :=
    hend.field (k := 6) rfl (by simp) (by omega)
  have hdisk : word b (r + (entriesFrom 0 parts).size + 4) 2 = 0 :=
    hend.field (k := 1) rfl (by simp) (by decide)
  have hdisk' : word b (r + (entriesFrom 0 parts).size + 6) 2 = 0 :=
    hend.field (k := 2) rfl (by simp) (by decide)
  have hroom : ¬ (b.size < r + (entriesFrom 0 parts).size + 22 ||
      b.size < r + (entriesFrom 0 parts).size + 22 + 0) = true := by
    simp [hsize]
  have hshort : ¬ (n == 0xffff || r == 0xffffffff) = true := by
    simp
    omega
  rw [locus?, hcomment, if_neg hroom]
  simp only [htotal, hhere, hoffset, hdisk, hdisk']
  rw [if_neg hshort]
  simp only
  cases parts with
  | nil =>
    obtain rfl : r = 0 := hr.symm
    obtain rfl : n = 0 := hn.symm
    rfl
  | cons p rest =>
    have hpos : ¬ (n == 0) = true := by
      rw [← hn]
      simp
    have hlarge : 46 ≤ (entriesFrom 0 (p :: rest)).size := by
      rw [entriesFrom, ByteArray.size_append, p.size_entry]
      omega
    have hmark : Bytes.hasAt b directoryMark r = true :=
      hasAt_of_field hentries.left.left (by decide +kernel)
    rw [if_neg hpos, if_neg (by omega), findMark_of_hasAt hmark (by omega)]
    simp

/-- What is written is a zip archive. -/
theorem container_writeParts (parts : List Part) : Container.of (writeParts parts) = .zip := by
  have hbegins (mark : ByteArray) (hmark : Begins Container.zipMark mark) (rest : ByteArray) :
      Container.of (mark ++ rest) = .zip := by
    have hat := At.of_begins (hmark.trans (.append mark rest))
    exact Container.of_eq_zip.mpr (Bytes.hasAt_iff.mpr hat)
  -- the first bytes are those of a member or of the record at the end
  cases parts with
  | nil =>
    simp only [writeParts, records, entriesFrom, ByteArray.empty_append, endRecord, Bytes.fields]
    exact hbegins _ ⟨⟨#[5, 6]⟩, by decide +kernel⟩ _
  | cons p rest =>
    simp only [writeParts, records, Part.record, Bytes.fields, ByteArray.append_assoc]
    exact hbegins _ ⟨⟨#[3, 4]⟩, by decide +kernel⟩ _

/-- The directory of an archive that has been written, with all its records. -/
theorem directoryBefore_writeParts {parts : List Part} (h : Fits parts) :
    directoryBefore (writeParts parts) ((writeParts parts).size + 1) (writeParts parts).size =
      some (listedFrom 0 parts) := by
  have hat := At.self (writeParts parts)
  have hentries := hat.right.left
  have hend := hat.right.right
  simp only [Nat.zero_add] at hentries hend
  have hbound := h.size
  have hmark : Bytes.hasAt (writeParts parts) endMark
      ((records parts).size + (entriesFrom 0 parts).size) = true :=
    hasAt_of_field hend (by decide +kernel)
  have hsize := size_writeParts parts
  have hlisted := listed_of_at hentries h.each (by omega)
  have hes : (locus? (writeParts parts) ((records parts).size + (entriesFrom 0 parts).size)).bind
      (directoryAt (writeParts parts)) = some (listedFrom 0 parts) := by
    rw [locus?_writeParts h, Option.bind_some, directoryAt, if_pos]
    · exact hlisted
    · have hoffset : (records parts).size < sizeBound := by
        simp only [sizeBound]
        omega
      simpa using hoffset
  exact directoryBefore_of_record hmark hsize hes (by omega) (by omega)

/-- The members of an archive that has been written. -/
theorem directory_writeParts {parts : List Part} (h : Fits parts)
    (hnames : (parts.map Part.name).Nodup) :
    directory (writeParts parts) = some (listedFrom 0 parts) := by
  rw [directory, directoryBefore_writeParts h, Option.map_some, foldl_putListed]
  rwa [map_name_listedFrom]

/-- The files of an archive are the members that are no directories. -/
theorem listing_writeParts {parts : List Part} (h : Fits parts)
    (hnames : (parts.map Part.name).Nodup) :
    listing (writeParts parts) = { files := parts.filterMap Part.file? } := by
  have hrecords := (At.self (writeParts parts)).left
  rw [listing, directory_writeParts h hnames]
  simp only
  rw [filesOf_eq (opens_of_at hrecords h.each), filterMap_fileOf? hrecords h.each]

/-! ### Items -/

/-- The name of a directory ends with a slash. -/
def directoryName (name : String) : String :=
  if name.toList.getLast? = some '/' then name else name.push '/'

/-- An item as a member. Its mode is recorded, and a link has its target as its data. -/
def partOf (packing : Item → Packing) (it : Item) : Part :=
  match it.kind with
  | .file data => { name := it.name, packing := packing it, data := data, mode := 0o100644 }
  | .directory =>
    { name := directoryName it.name, packing := .stored, data := ByteArray.empty, mode := 0o40755 }
  | .link target =>
    { name := it.name, packing := packing it, data := target.toUTF8, mode := 0o120777 }

/-- An archive of some items. -/
def write (packing : Item → Packing) (items : List Item) : ByteArray :=
  writeParts (items.map (partOf packing))

theorem isDirectoryName_directoryName (name : String) :
    isDirectoryName (directoryName name) = true := by
  have hlast : (directoryName name).toList.getLast? = some '/' := by
    unfold directoryName
    split
    · assumption
    · rw [String.toList_push, List.getLast?_concat]
  rw [isDirectoryName, hlast]
  rfl

/-- Of a member only that counts what a file in place of a link would count. -/
theorem filter_file?_partOf (packing : Item → Packing) (it : Item) :
    (partOf packing it).file?.filter Member.isEntry = it.followed.file?.filter Member.isEntry := by
  have hregular (data : ByteArray) (mode : Nat) (p : Packing) :
      (Part.file? { name := it.name, packing := p, data := data, mode := mode }).filter
        Member.isEntry = (Item.file? ⟨it.name, .file data⟩).filter Member.isEntry := by
    simp only [Part.file?, Item.file?]
    split
    · rename_i hname
      rw [Option.filter_some, Member.isEntry_of_isDirectoryName hname]
      rfl
    · rfl
  obtain ⟨name, kind⟩ := it
  cases kind with
  | file data => exact hregular data _ _
  | link target => exact hregular target.toUTF8 _ _
  | directory =>
    have hnone : (partOf packing ⟨name, .directory⟩).file? = none :=
      if_pos (isDirectoryName_directoryName name)
    rw [hnone]
    rfl

end Zip

end StoryPack
