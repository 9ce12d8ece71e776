/-
Writing tar archives.

A writer for the headers that GNU tar uses: numbers in octal digits, a checksum,
and members that describe the next one for names and targets that do not fit into
a header.  Reading what it writes gives the regular files back, and nothing else.

* `Tar.header`, `Tar.member` — a header, and a member with its blocks;
* `Tar.memberAt_member` — how the reader takes a member;
* `Tar.write`, `Tar.listing_write` — an archive of some items, and its files.
-/
import StoryPack.Proofs.Archive.Item
import StoryPack.Proofs.Archive.Tar
import StoryPack.Proofs.Text.Ascii

namespace StoryPack

open Bytes (At Begins byte)

namespace Tar

/-! ### Numbers -/

/-- So many octal digits of a number. -/
def octalDigits : (n value : Nat) → List Char
  | 0, _ => []
  | n + 1, value => octalDigits n (value / 8) ++ [Char.ofNat (48 + value % 8)]

/-- A number as a field of a header. -/
def octalField (n value : Nat) : ByteArray :=
  (String.ofList (octalDigits n value)).toUTF8 ++ Bytes.replicate 1 0

@[simp] theorem length_octalDigits (n value : Nat) : (octalDigits n value).length = n := by
  induction n generalizing value with
  | zero => rfl
  | succ n ih => rw [octalDigits, List.length_append, ih, List.length_singleton]

theorem digit_of_mem {n value : Nat} {c : Char} (h : c ∈ octalDigits n value) :
    ∃ k < 8, c = Char.ofNat (48 + k) := by
  induction n generalizing value with
  | zero => cases h
  | succ n ih =>
    rcases List.mem_append.mp h with h | h
    · exact ih h
    · exact ⟨value % 8, Nat.mod_lt _ (by decide), List.mem_singleton.mp h⟩

/-- What the reader asks of a digit. -/
theorem digit_facts : ∀ k < 8, isBlank (Char.ofNat (48 + k)) = false ∧ Char.ofNat (48 + k) ≠ '+' ∧
    (Char.ofNat (48 + k)).val ≤ 127 ∧ (Char.ofNat (48 + k)).val.toUInt8 ≠ 0 ∧
    (Char.ofNat (48 + k)).val.toUInt8 &&& 0x80 = 0 ∧ '0' ≤ Char.ofNat (48 + k) ∧
    (Char.ofNat (48 + k)).toNat = 48 + k := by
  decide

theorem ascii_octalDigits (n value : Nat) : Utf8.Ascii (octalDigits n value) := fun c hc => by
  obtain ⟨k, hk, rfl⟩ := digit_of_mem hc
  exact (digit_facts k hk).2.2.1

@[simp] theorem size_octalField (n value : Nat) : (octalField n value).size = n + 1 := by
  rw [octalField, ByteArray.size_append, Utf8.size_toUTF8_ascii (ascii_octalDigits n value),
    length_octalDigits, Bytes.size_replicate]

theorem trim_octalDigits (n value : Nat) : trim (octalDigits n value) = octalDigits n value := by
  have hkeep (cs : List Char) (h : ∀ c ∈ cs, isBlank c = false) : cs.dropWhile isBlank = cs := by
    cases cs with
    | nil => rfl
    | cons c rest => exact List.dropWhile_cons_of_neg (by simp [h c List.mem_cons_self])
  have hdigits : ∀ c ∈ octalDigits n value, isBlank c = false := fun c hc => by
    obtain ⟨k, hk, rfl⟩ := digit_of_mem hc
    exact (digit_facts k hk).1
  rw [trim, hkeep _ hdigits, hkeep _ fun c hc => hdigits c (List.mem_reverse.mp hc),
    List.reverse_reverse]

theorem foldlM_octalDigits (n value a : Nat) :
    (octalDigits n value).foldlM (fun n c =>
      if '0' ≤ c && c.toNat < 48 + 8 then some (n * 8 + (c.toNat - 48)) else none) a =
        some (a * 8 ^ n + value % 8 ^ n) := by
  -- on the digits: the last one stands for the remainder, those before it for the quotient
  induction n generalizing value with
  | zero => simp [octalDigits, Nat.mod_one]
  | succ n ih =>
    have hlt : value % 8 < 8 := Nat.mod_lt _ (by decide)
    obtain ⟨-, -, -, -, -, hlow, hnat⟩ := digit_facts (value % 8) hlt
    have hmod : value % 8 ^ (n + 1) = value % 8 + 8 * (value / 8 % 8 ^ n) := by
      rw [Nat.pow_succ', Nat.mod_mul]
    have hsum : (a * 8 ^ n + value / 8 % 8 ^ n) * 8 + value % 8 =
        a * 8 ^ (n + 1) + value % 8 ^ (n + 1) := by
      rw [hmod, Nat.pow_succ, Nat.add_mul, Nat.mul_assoc]
      omega
    rw [octalDigits, List.foldlM_append, ih]
    simp only [Option.bind_eq_bind, Option.bind_some, List.foldlM_cons, List.foldlM_nil]
    rw [if_pos (by simp [hlow, hnat]; omega), hnat, Nat.add_sub_cancel_left, ← hsum]
    rfl

theorem number?_octalDigits {n value : Nat} (hn : n ≠ 0) (hvalue : value < 8 ^ n)
    (hbound : value < sizeBound) : number? 8 (octalDigits n value) = some value := by
  have hfold := foldlM_octalDigits n value 0
  rw [Nat.zero_mul, Nat.zero_add, Nat.mod_eq_of_lt hvalue] at hfold
  have hdigits : ∀ c ∈ octalDigits n value, c ≠ '+' := fun c hc => by
    obtain ⟨k, hk, rfl⟩ := digit_of_mem hc
    exact (digit_facts k hk).2.1
  have hlength := length_octalDigits n value
  generalize octalDigits n value = cs at hfold hdigits hlength
  cases cs with
  | nil => exact absurd hlength.symm hn
  | cons c rest =>
    have hc := hdigits c List.mem_cons_self
    unfold number?
    split
    · rename_i h
      exact absurd (List.cons.inj h).1 hc
    · simp only [List.isEmpty_cons, Bool.false_eq_true, if_false]
      rw [hfold]
      simp [Option.filter, hbound]

/-- A number that fits is read back. -/
theorem octal?_octalField {n value : Nat} (hn : n ≠ 0) (hvalue : value < 8 ^ n)
    (hbound : value < sizeBound) : octal? (octalField n value) = some value := by
  have hbytes (k : Nat) (hk : k < (String.ofList (octalDigits n value)).toUTF8.size) :
      byte (String.ofList (octalDigits n value)).toUTF8 k ≠ 0 := by
    rw [Utf8.size_toUTF8_ascii (ascii_octalDigits n value)] at hk
    rw [Utf8.byte_toUTF8_ascii (ascii_octalDigits n value) hk]
    obtain ⟨d, hd, heq⟩ := digit_of_mem (List.getElem_mem hk)
    rw [heq]
    exact (digit_facts d hd).2.2.2.1
  rw [octal?, octalField, Bytes.beforeNul_append_replicate hbytes, Utf8.text?_toUTF8]
  simp only [String.toList_ofList]
  rw [trim_octalDigits, number?_octalDigits hn hvalue hbound]

theorem numeric?_octalField {n value : Nat} (hn : n ≠ 0) (hvalue : value < 8 ^ n)
    (hbound : value < sizeBound) : numeric? (octalField n value) = some value := by
  have hfirst : 0 < (octalDigits n value).length := by
    rw [length_octalDigits]
    omega
  have hbyte : byte (octalField n value) 0 &&& 0x80 = 0 := by
    rw [octalField,
      Bytes.byte_append_left (by rwa [Utf8.size_toUTF8_ascii (ascii_octalDigits n value)]),
      Utf8.byte_toUTF8_ascii (ascii_octalDigits n value) hfirst]
    obtain ⟨d, hd, heq⟩ := digit_of_mem (List.getElem_mem hfirst)
    rw [heq]
    exact (digit_facts d hd).2.2.2.2.1
  rw [numeric?, if_pos (by rw [hbyte]; rfl), octal?_octalField hn hvalue hbound]

/-! ### Headers -/

/-- Some bytes, filled up with zeros. -/
def filled (n : Nat) (b : ByteArray) : ByteArray := b ++ Bytes.replicate (n - b.size) 0

/-- The mark of the dialect. -/
def gnuMark : ByteArray := "ustar  ".toUTF8.push 0

/-- What stands in a header before its checksum: the name, the mode, the owner and the group, the
size and the time. -/
def headerFront (name : ByteArray) (size : Nat) : ByteArray :=
  filled 100 name ++ (octalField 7 0o644 ++ (octalField 7 0 ++ (octalField 7 0 ++
    (octalField 11 size ++ octalField 11 0))))

/-- What stands in a header behind its checksum: the type, the target of a link and the mark. -/
def headerBack (type : UInt8) (target : ByteArray) : ByteArray :=
  Bytes.single type ++ (filled 100 target ++ (gnuMark ++ Bytes.replicate 247 0))

/-- The sum of some bytes. -/
def byteSum (b : ByteArray) : Nat := b.foldl (fun n x => n + x.toNat) 0 0 b.size

/-- A header. -/
def header (name : ByteArray) (type : UInt8) (target : ByteArray) (size : Nat) : ByteArray :=
  let front := headerFront name size
  let back := headerBack type target
  front ++ octalField 7 (byteSum front + byteSum back + 8 * 32) ++ back

theorem size_filled {n : Nat} {b : ByteArray} (h : b.size ≤ n) : (filled n b).size = n := by
  rw [filled, ByteArray.size_append, Bytes.size_replicate]
  omega

theorem byteSum_le (b : ByteArray) : byteSum b ≤ 255 * b.size := by
  have key (xs : List UInt8) (n : Nat) :
      xs.foldl (fun n x => n + x.toNat) n ≤ n + 255 * xs.length := by
    induction xs generalizing n with
    | nil => exact Nat.le_refl _
    | cons x rest ih =>
      have := ih (n + x.toNat)
      have := x.toNat_lt
      rw [List.foldl_cons, List.length_cons]
      omega
  have := key b.data.toList 0
  rwa [Nat.zero_add, ← Bytes.foldl_eq] at this

section Header

variable {name target : ByteArray} {type : UInt8} {size : Nat}

theorem size_headerFront (hname : name.size ≤ 100) : (headerFront name size).size = 148 := by
  simp only [headerFront, ByteArray.size_append, size_filled hname, size_octalField]

theorem size_headerBack (htarget : target.size ≤ 100) : (headerBack type target).size = 356 := by
  have hmark : gnuMark.size = 8 := by decide +kernel
  simp only [headerBack, ByteArray.size_append, size_filled htarget, Bytes.size_single,
    Bytes.size_replicate, hmark]

theorem size_header (hname : name.size ≤ 100) (htarget : target.size ≤ 100) :
    (header name type target size).size = blockSize := by
  simp only [header, ByteArray.size_append, size_headerFront hname, size_headerBack htarget,
    size_octalField, blockSize]

/-- A header begins with the name and ends with the type and what follows it. -/
theorem at_header (target : ByteArray) (type : UInt8) (size : Nat) (hname : name.size ≤ 100) :
    At (header name type target size) 0 (headerFront name size) ∧
      At (header name type target size) 148
        (octalField 7
          (byteSum (headerFront name size) + byteSum (headerBack type target) + 8 * 32)) ∧
      At (header name type target size) 156 (headerBack type target) := by
  have hat := At.self (header name type target size)
  have hfront := hat.left.left
  have hsum := hat.left.right
  have hback := hat.right
  rw [Nat.zero_add] at hsum hback
  rw [ByteArray.size_append, size_octalField] at hback
  rw [size_headerFront hname] at hsum hback
  exact ⟨hfront, hsum, hback⟩

theorem field_of_at {h f : ByteArray} {i n : Nat} (hat : At h i f) (hn : f.size = n) :
    field h i n = f := by
  subst hn
  exact hat.extract_self

theorem isSound_header (hname : name.size ≤ 100) (htarget : target.size ≤ 100) :
    isSound (header name type target size) = true := by
  obtain ⟨hfront, hsum, hback⟩ := at_header target type size hname
  have hfits :
      byteSum (headerFront name size) + byteSum (headerBack type target) + 8 * 32 < 8 ^ 7 := by
    have hlow := byteSum_le (headerFront name size)
    have hhigh := byteSum_le (headerBack type target)
    rw [size_headerFront hname] at hlow
    rw [size_headerBack htarget] at hhigh
    omega
  have hdeclared := octal?_octalField (by decide) hfits (by simp only [sizeBound]; omega)
  have hbefore : (header name type target size).extract 0 148 = headerFront name size := by
    have := hfront.extract_self
    rwa [size_headerFront hname] at this
  have hafter : (header name type target size).extract 156 (header name type target size).size =
      headerBack type target := by
    have hend : (header name type target size).size = 156 + (headerBack type target).size := by
      rw [size_header hname htarget, size_headerBack htarget, blockSize]
    rw [hend]
    exact hback.extract_self
  have hchecksum : checksum (header name type target size) =
      byteSum (headerFront name size) + byteSum (headerBack type target) + 8 * 32 := by
    rw [← hbefore, ← hafter]
    rfl
  rw [isSound, field_of_at hsum (size_octalField _ _), hdeclared, hchecksum]
  exact beq_self_eq_true _

theorem field_size_header (hname : name.size ≤ 100) :
    field (header name type target size) 124 12 = octalField 11 size := by
  have hrest := (at_header target type size hname).1.right
  rw [size_filled hname] at hrest
  have hsize := hrest.right.right.right.left
  simp only [size_octalField] at hsize
  exact field_of_at hsize (size_octalField _ _)

theorem headerName_header (hname : name.size ≤ 100) (hplain : ∀ k < name.size, byte name k ≠ 0)
    (hgnu : dialect (header name type target size) = .gnu) :
    headerName (header name type target size) = name := by
  have hfirst := (at_header target type size hname).1.left
  rw [headerName, field_of_at hfirst (size_filled hname), hgnu, filled,
    Bytes.beforeNul_append_replicate hplain]

theorem byte_type_header (hname : name.size ≤ 100) :
    byte (header name type target size) 156 = type := by
  have hback := (at_header target type size hname).2.2
  exact hback.left.byte Nat.one_pos

theorem at_mark_header (hname : name.size ≤ 100) (htarget : target.size ≤ 100) :
    At (header name type target size) 257 gnuMark := by
  have hback := (at_header target type size hname).2.2
  have hmark := hback.right.right.left
  rwa [Bytes.size_single, size_filled htarget] at hmark

theorem dialect_header (hname : name.size ≤ 100) (htarget : target.size ≤ 100) :
    dialect (header name type target size) = .gnu := by
  have hat : At (header name type target size) 257 gnuMark := at_mark_header hname htarget
  have hmark (needle : ByteArray) (h : 0 + needle.size ≤ gnuMark.size) :
      Bytes.hasAt (header name type target size) needle 257 = Bytes.hasAt gnuMark needle 0 :=
    hat.hasAt h
  rw [dialect, hmark _ (by decide +kernel), hmark _ (by decide +kernel)]
  decide +kernel

/-- The kind of a member with this header, told by its type. -/
def kindOfType (type : UInt8) : MemberKind :=
  if type = 48 then .file
  else if type = 76 then .longName
  else if type = 75 then .longLink
  else .other

theorem memberKind_header (hname : name.size ≤ 100) (htarget : target.size ≤ 100)
    (htype : type = 48 ∨ type = 50 ∨ type = 53 ∨ type = 75 ∨ type = 76) :
    memberKind (header name type target size) = kindOfType type := by
  simp only [memberKind, dialect_header hname htarget, byte_type_header hname]
  rcases htype with rfl | rfl | rfl | rfl | rfl <;> rfl

theorem headerAt_of_at {s : Stream} {i : Nat}
    (hname : name.size ≤ 100) (htarget : target.size ≤ 100)
    (hat : At s.data i (header name type target size)) :
    headerAt s i = .header (header name type target size) := by
  have hsize : (header name type target size).size = blockSize := size_header hname htarget
  have hfits := hat.fits
  have hextract := hat.extract_self
  rw [hsize] at hfits hextract
  -- the mark is not zero
  have hzero : (header name type target size).foldl (fun zero x => zero && x == 0) true 0
      (header name type target size).size = false := by
    refine Bool.eq_false_iff.mpr fun hall => ?_
    have hmark : At (header name type target size) 257 gnuMark := at_mark_header hname htarget
    have hzero := Bytes.foldl_and_iff (p := (· == 0)).mp hall 257 (by rw [hsize, blockSize]; omega)
    rw [← Nat.add_zero 257, hmark.byte (by decide +kernel)] at hzero
    exact absurd hzero (by decide +kernel)
  simp only [headerAt]
  rw [if_pos hfits, hextract, hzero]
  rfl

end Header

/-! ### Members -/

/-- Some bytes in whole blocks. -/
def inBlocks (data : ByteArray) : ByteArray :=
  filled ((data.size + (blockSize - 1)) / blockSize * blockSize) data

/-- A member with its blocks. -/
def member (name : ByteArray) (type : UInt8) (target data : ByteArray) : ByteArray :=
  header name type target data.size ++ inBlocks data

theorem size_inBlocks (data : ByteArray) :
    (inBlocks data).size = (data.size + (blockSize - 1)) / blockSize * blockSize := by
  refine size_filled ?_
  simp only [blockSize]
  omega

section Member

variable {s : Stream} {i : Nat} {name target data : ByteArray} {type : UInt8} {d : Described}

theorem bodyAt_of_at (hat : At s.data i (inBlocks data)) : bodyAt s i data.size = ⟨data, true⟩ := by
  simp only [bodyAt, hat.left.extract_self, beq_self_eq_true, Bool.true_or]

/-- The reader takes a member by its type. -/
theorem memberAt_member (hat : At s.data i (member name type target data))
    (hname : name.size ≤ 100) (htarget : target.size ≤ 100) (hbound : s.data.size < 8 ^ 11)
    (hd : d.records = none) :
    memberAt s (header name type target data.size) (i + blockSize) d =
      partAt s (header name type target data.size) (i + blockSize) data.size
        (i + (member name type target data).size) d := by
  have hfits := hat.fits
  have hsize : (member name type target data).size = blockSize + (inBlocks data).size := by
    rw [member, ByteArray.size_append, size_header hname htarget]
  have hblocks := size_inBlocks data
  rw [hsize] at hfits ⊢
  have hdata : data.size < 8 ^ 11 := by
    simp only [blockSize] at hfits hblocks
    omega
  have hdeclared : sizeOf? (header name type target data.size) d = some data.size := by
    rw [sizeOf?, field_size_header hname,
      numeric?_octalField (by decide) hdata (by simp only [sizeBound]; omega), hd]
    rfl
  have hafter :
      afterBody? (i + blockSize) data.size = some (i + blockSize + (inBlocks data).size) := by
    simp only [afterBody?]
    rw [← hblocks, if_pos (by simp only [blockSize, sizeBound]; omega),
      if_pos (by simp only [sizeBound]; omega)]
  rw [memberAt, isSound_header hname htarget, if_pos rfl, hdeclared, Option.bind_some, hafter,
    Option.bind_some, Nat.add_assoc]

/-- The reader gets over a member. -/
theorem scans_member {files : List Member} {d' : Described}
    (hat : At s.data i (member name type target data)) (hname : name.size ≤ 100)
    (htarget : target.size ≤ 100) (hbound : s.data.size < 8 ^ 11) (hd : d.records = none)
    (hpart : partAt s (header name type target data.size) (i + blockSize) data.size
        (i + (member name type target data).size) d =
      some ⟨files, i + (member name type target data).size, d'⟩) :
    Scans s i d files (i + (member name type target data).size) d' := by
  have hheader := headerAt_of_at hname htarget hat.left
  have hmember := (memberAt_member hat hname htarget hbound hd).trans hpart
  have hscan := Scans.member hheader hmember (.here _ _)
  rwa [List.append_nil] at hscan

end Member

/-! ### Items -/

/-- The name of members that describe the next one. -/
def longMark : ByteArray := "././@LongLink".toUTF8

/-- A member that says what does not fit into the next header. -/
def longPart (type : UInt8) (b : ByteArray) : ByteArray :=
  if b.size ≤ 100 then ByteArray.empty
  else member longMark type ByteArray.empty (b ++ Bytes.replicate 1 0)

/-- The type, the target and the data of a member. -/
def parts : Item.Kind → UInt8 × ByteArray × ByteArray
  | .file data => (48, ByteArray.empty, data)
  | .directory => (53, ByteArray.empty, ByteArray.empty)
  | .link target => (50, target.toUTF8, ByteArray.empty)

/-- An item as a run of members. -/
def writeItem (it : Item) : ByteArray :=
  let name := it.name.toUTF8
  let (type, target, data) := parts it.kind
  longPart 76 name ++ (longPart 75 target ++
    member (name.extract 0 100) type (target.extract 0 100) data)

section Items

variable {s : Stream} {i : Nat} {b : ByteArray} {d : Described}

theorem scans_longName (hat : At s.data i (longPart 76 b)) (hbound : s.data.size < 8 ^ 11) :
    Scans s i {} [] (i + (longPart 76 b).size)
      { longName := if b.size ≤ 100 then none else some (b ++ Bytes.replicate 1 0) } := by
  unfold longPart at hat ⊢
  split
  · exact .here i {}
  · rename_i hlong
    rw [if_neg hlong] at hat
    have hmark : longMark.size ≤ 100 := by decide +kernel
    have hbody : At s.data (i + blockSize) (inBlocks (b ++ Bytes.replicate 1 0)) := by
      have := hat.right
      rwa [size_header hmark (Nat.zero_le _)] at this
    refine scans_member hat hmark (Nat.zero_le _) hbound rfl ?_
    rw [partAt, memberKind_header hmark (Nat.zero_le _) (by decide)]
    simp only [description?, bodyAt_of_at hbody]
    rfl

theorem scans_longLink (hat : At s.data i (longPart 75 b)) (hbound : s.data.size < 8 ^ 11)
    (hlink : d.longLink = false) (hd : d.records = none) :
    Scans s i d [] (i + (longPart 75 b).size) { d with longLink := decide (100 < b.size) } := by
  obtain ⟨name, link, records⟩ := d
  obtain rfl : link = false := hlink
  unfold longPart at hat ⊢
  split
  · rename_i hshort
    rw [decide_eq_false (by omega)]
    exact .here i _
  · rename_i hlong
    rw [if_neg hlong] at hat
    have hmark : longMark.size ≤ 100 := by decide +kernel
    have hbody : At s.data (i + blockSize) (inBlocks (b ++ Bytes.replicate 1 0)) := by
      have := hat.right
      rwa [size_header hmark (Nat.zero_le _)] at this
    refine scans_member hat hmark (Nat.zero_le _) hbound hd ?_
    rw [partAt, memberKind_header hmark (Nat.zero_le _) (by decide), decide_eq_true (by omega)]
    simp only [description?, bodyAt_of_at hbody]
    rfl

/-- An item has a name that tar archives can hold: without zero bytes. -/
def Plain (it : Item) : Prop := ∀ k < it.name.toUTF8.size, byte it.name.toUTF8 k ≠ 0

theorem extract_le (b : ByteArray) : (b.extract 0 100).size ≤ 100 := by
  rw [ByteArray.size_extract]
  omega

/-- The name of a member is the long one that has been given to it, if it does not fit. -/
theorem nameOf_header (it : Item) {target : ByteArray} {type : UInt8} {size : Nat}
    (htarget : target.size ≤ 100) (hplain : Plain it) (hd : d.records = none)
    (hlong : d.longName = if it.name.toUTF8.size ≤ 100 then none
      else some (it.name.toUTF8 ++ Bytes.replicate 1 0)) :
    nameOf (header (it.name.toUTF8.extract 0 100) type target size) d = it.name := by
  rw [nameOf, hlong]
  -- a name that does not fit is read from the member before, without the zero at its end
  by_cases hsize : it.name.toUTF8.size ≤ 100
  · have hall : it.name.toUTF8.extract 0 100 = it.name.toUTF8 := by
      have hmax := ByteArray.extract_zero_max_size (a := it.name.toUTF8) (i := 100)
      rwa [Nat.max_eq_left hsize] at hmax
    rw [if_pos hsize, hall, hd]
    simp only [Option.bind_none, Option.getD_none]
    rw [headerName_header hsize hplain (dialect_header hsize htarget), Utf8.lossy_toUTF8]
  · have hzero : byte (it.name.toUTF8 ++ Bytes.replicate 1 0)
        ((it.name.toUTF8 ++ Bytes.replicate 1 0).size - 1) = 0 := by
      rw [ByteArray.size_append, Bytes.size_replicate, Nat.add_sub_cancel]
      exact Bytes.byte_append_right _ _ 0
    have hname : (it.name.toUTF8 ++ Bytes.replicate 1 0).extract 0
        ((it.name.toUTF8 ++ Bytes.replicate 1 0).size - 1) = it.name.toUTF8 := by
      rw [ByteArray.size_append, Bytes.size_replicate, Nat.add_sub_cancel]
      exact ByteArray.extract_append_eq_left rfl
    rw [if_neg hsize]
    simp only [hzero, beq_self_eq_true, if_true, hname, Utf8.lossy_toUTF8]

/-- The reader gets over an item and finds its file. -/
theorem scans_writeItem {it : Item} (hat : At s.data i (writeItem it)) (hplain : Plain it)
    (hbound : s.data.size < 8 ^ 11) :
    Scans s i {} it.file?.toList (i + (writeItem it).size) {} := by
  obtain ⟨name, kind⟩ := it
  rcases hparts : parts kind with ⟨type, target, data⟩
  have hwrite : writeItem ⟨name, kind⟩ = longPart 76 name.toUTF8 ++ (longPart 75 target ++
      member (name.toUTF8.extract 0 100) type (target.extract 0 100) data) := by
    simp only [writeItem, hparts]
  rw [hwrite] at hat ⊢
  have hmember := hat.right.right
  -- first what describes the item, if it is too long, then the item itself
  have hscan :=
    (scans_longName hat.left hbound).trans (scans_longLink hat.right.left hbound rfl rfl)
  rw [ByteArray.size_append, ByteArray.size_append, ← Nat.add_assoc, ← Nat.add_assoc]
  refine hscan.trans (scans_member hmember (extract_le _) (extract_le _) hbound rfl ?_)
  have hbody := hmember.right
  rw [size_header (extract_le _) (extract_le _)] at hbody
  cases kind with
  | file content =>
    obtain ⟨rfl, rfl, rfl⟩ : 48 = type ∧ ByteArray.empty = target ∧ content = data := by
      simpa [parts] using hparts
    rw [partAt, memberKind_header (extract_le _) (extract_le _) (by decide)]
    simp only [kindOfType, if_true, bodyAt_of_at hbody]
    rw [nameOf_header ⟨name, .file content⟩ (extract_le _) hplain rfl rfl]
    rfl
  | directory =>
    obtain ⟨rfl, rfl, rfl⟩ : 53 = type ∧ ByteArray.empty = target ∧ ByteArray.empty = data := by
      simpa [parts] using hparts
    rw [partAt, memberKind_header (extract_le _) (extract_le _) (by decide)]
    rfl
  | link place =>
    obtain ⟨rfl, rfl, rfl⟩ : 50 = type ∧ place.toUTF8 = target ∧ ByteArray.empty = data := by
      simpa [parts] using hparts
    rw [partAt, memberKind_header (extract_le _) (extract_le _) (by decide)]
    rfl

end Items

/-! ### Archives -/

/-- Items one after another. -/
def writeItems (items : List Item) : ByteArray :=
  items.foldr (fun it b => writeItem it ++ b) ByteArray.empty

/-- An archive of some items, with two blocks of zeros at its end. -/
def write (items : List Item) : ByteArray := writeItems items ++ Bytes.replicate 1024 0

theorem scans_writeItems {s : Stream} {i : Nat} {items : List Item}
    (hat : At s.data i (writeItems items)) (hplain : ∀ it ∈ items, Plain it)
    (hbound : s.data.size < 8 ^ 11) :
    Scans s i {} (items.filterMap Item.file?) (i + (writeItems items).size) {} := by
  induction items generalizing i with
  | nil => exact .here i {}
  | cons it rest ih =>
    obtain ⟨hit, hrest⟩ := List.forall_mem_cons.mp hplain
    have hcons : writeItems (it :: rest) = writeItem it ++ writeItems rest := rfl
    have hfiles : (it :: rest).filterMap Item.file? =
        it.file?.toList ++ rest.filterMap Item.file? := by
      cases hfile : it.file? <;> simp [hfile]
    rw [hcons] at hat ⊢
    rw [hfiles, ByteArray.size_append, ← Nat.add_assoc]
    exact (scans_writeItem hat.left hit hbound).trans (ih hat.right hrest)

/-- Items are a run of whole members. -/
theorem whole_writeItems {items : List Item} (hplain : ∀ it ∈ items, Plain it)
    (hbound : (writeItems items).size < 8 ^ 11) :
    Whole (writeItems items) (items.filterMap Item.file?) := by
  have hscan := scans_writeItems (s := ⟨writeItems items, true⟩) (.self _) hplain
    hbound
  rwa [Nat.zero_add] at hscan

/-- A block of zeros ends an archive. -/
theorem headerAt_zeros (a : ByteArray) (y : Bool) {n : Nat} (hn : blockSize ≤ n) :
    headerAt ⟨a ++ Bytes.replicate n 0, y⟩ a.size = .finished := by
  have hzero : ((Bytes.replicate n 0).extract 0 blockSize).foldl
      (fun zero x => zero && x == 0) true 0
      ((Bytes.replicate n 0).extract 0 blockSize).size = true := by
    refine Bytes.foldl_and_iff.mpr fun k hk => ?_
    rw [ByteArray.size_extract, Bytes.size_replicate] at hk
    rw [Bytes.byte_extract (by omega), Nat.zero_add, Bytes.byte_replicate 0 (by omega)]
    rfl
  have hfits : 0 + blockSize ≤ (Bytes.replicate n 0).size := by
    rw [Bytes.size_replicate, Nat.zero_add]
    exact hn
  have hsuffix := headerAt_suffix a (Bytes.replicate n 0) y 0
  rw [Nat.add_zero] at hsuffix
  rw [hsuffix]
  simp only [headerAt]
  rw [if_pos hfits, Nat.zero_add, hzero]
  rfl

/-- Of some items in an archive the reader finds the regular files, in their order. -/
theorem listing_write {items : List Item} (hplain : ∀ it ∈ items, Plain it)
    (hbound : (write items).size < 8 ^ 11) :
    listing ⟨write items, true⟩ = { files := items.filterMap Item.file? } := by
  have hitems : (writeItems items).size < 8 ^ 11 := by
    rw [write, ByteArray.size_append] at hbound
    omega
  have hscan := (whole_writeItems hplain hitems).scans (Bytes.replicate 1024 0) true
  exact hscan.files (headerAt_zeros _ true (by decide +kernel))

end Tar

end StoryPack
