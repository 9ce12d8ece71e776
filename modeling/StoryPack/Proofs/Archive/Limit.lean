/-
The limit of entries.

No entry may have more bytes than the limit.  An archive declares the size of each
member, and the declared size is compared first; but it may be wrong, and so the
bytes that come are counted as well, up to one more than the limit.  An entry is
refused when one of the two sizes is too large, and otherwise it is all that its
body holds.  Members that are no entries are not compared with anything.

* `Member.read_eq` — what is read of a body;
* `Member.entry?_eq` — the entry that a member is, when its body can be read;
* `Member.of_entry?_script` — a script is the whole body of its member;
* `Archive.limit_exact` — the limit is exact, and nothing is cut.
-/
import StoryPack.Proofs.Archive.Agreement
import StoryPack.Proofs.Entry.Sorting
import StoryPack.Proofs.Pack.Shuffle

namespace StoryPack

namespace Member

variable {m : Member} {limit : Nat} {a : Address} {body : Stream}

/-- The body can be read to its end: no fault comes before it, and its bytes can be counted. -/
def Readable (body : Stream) : Prop := body.intact = true ∧ body.data.size ≤ limitBound

theorem readLength_of_lt (h : limit < limitBound) : readLength limit = limit + 1 :=
  Nat.min_eq_left h

theorem readLength_limitBound : readLength limitBound = limitBound :=
  Nat.min_eq_right (Nat.le_succ limitBound)

/-- What is read of a body: all of it, or one byte more than the limit. -/
theorem read_eq (hlimit : limit ≤ limitBound) (hbody : Readable body) :
    read body limit =
      .ok (if limit < body.data.size then body.data.extract 0 (limit + 1) else body.data) := by
  obtain ⟨hintact, hsize⟩ := hbody
  simp only [read, hintact, if_true]
  rcases Nat.lt_or_eq_of_le hlimit with hlt | rfl
  · rw [readLength_of_lt hlt]
    by_cases hlong : limit < body.data.size
    · rw [if_pos hlong, if_pos (Nat.succ_le_of_lt hlong)]
    · rw [if_neg hlong]
      exact if_neg hlong
  · -- no body is longer than the greatest limit, and one as long is read to its last byte
    rw [readLength_limitBound, if_neg (Nat.not_lt.mpr hsize)]
    split
    · rename_i hall
      rw [Nat.le_antisymm hall hsize, ByteArray.extract_zero_size]
    · rfl

/-- What a body within the limit is, under an address. -/
def contents (m : Member) : Address → Except ReadFault (Option Entry)
  | .options => (parseOptions m.path m.body.data).map some
  | .script place => .ok (some (.script place m.body.data))

theorem entry?_of_not_address (h : m.address? = none) (limit : Nat) :
    m.entry? limit = .ok none := by
  unfold entry?
  rw [h]

/-- The entry that a member is, when its body can be read. -/
theorem entry?_eq (hlimit : limit ≤ limitBound) (ha : m.address? = some a)
    (hdeclared : m.size ≤ capacityLimit) (hbody : Readable m.body) :
    m.entry? limit =
      if limit < m.size then .error (.entryTooLarge m.path m.size limit)
      else if limit < m.body.data.size then .error (.entryTooLarge m.path (limit + 1) limit)
      else m.contents a := by
  unfold entry?
  rw [ha, read_eq hlimit hbody]
  simp only [if_neg (Nat.not_lt.mpr hdeclared)]
  split
  · rfl
  by_cases hlong : limit < m.body.data.size
  · have hsize : (m.body.data.extract 0 (limit + 1)).size = limit + 1 := by
      rw [ByteArray.size_extract]
      omega
    simp only [if_pos hlong, hsize, if_pos (Nat.lt_succ_self limit)]
  · simp only [if_neg hlong]
    cases a <;> rfl

/-- A fault of the limit. -/
def TooLarge (r : Except ReadFault (Option Entry)) : Prop :=
  ∃ path size limit, r = .error (.entryTooLarge path size limit)

theorem not_tooLarge_contents (m : Member) (a : Address) : ¬TooLarge (m.contents a) := by
  rintro ⟨path, size, limit, h⟩
  cases a with
  | options =>
    rw [contents, parseOptions] at h
    cases hjson : Json.read m.body.data 127 with
    | error f => simp only [hjson] at h; cases h
    | ok j => cases j <;> simp only [hjson] at h <;> cases h
  | script place => cases h

/-- An entry is refused when its declared size or its body is too large. -/
theorem tooLarge_entry?_iff (hlimit : limit ≤ limitBound) (ha : m.address? = some a)
    (hdeclared : m.size ≤ capacityLimit) (hbody : Readable m.body) :
    TooLarge (m.entry? limit) ↔ limit < m.size ∨ limit < m.body.data.size := by
  rw [entry?_eq hlimit ha hdeclared hbody]
  by_cases hsize : limit < m.size
  · rw [if_pos hsize]
    exact iff_of_true ⟨_, _, _, rfl⟩ (.inl hsize)
  · rw [if_neg hsize, or_iff_right hsize]
    by_cases hlong : limit < m.body.data.size
    · rw [if_pos hlong]
      exact iff_of_true ⟨_, _, _, rfl⟩ hlong
    · rw [if_neg hlong]
      exact iff_of_false (m.not_tooLarge_contents a) hlong

/-- The options are the object that the body spells; a body that spells none is a fault of JSON. -/
theorem contents_options (m : Member) :
    (∀ members, Json.read m.body.data 127 = .ok (.obj members) →
      m.contents .options = .ok (some (.options members))) ∧
    ((∀ members, Json.read m.body.data 127 ≠ .ok (.obj members)) →
      m.contents .options = .error (.optionsNotObject m.path) ∨
        ∃ f, m.contents .options = .error (.invalidOptions m.path f)) := by
  rw [contents, parseOptions]
  cases hjson : Json.read m.body.data 127 with
  | error f => exact ⟨nofun, fun _ => .inr ⟨f, rfl⟩⟩
  | ok j =>
    cases j with
    | obj members =>
      refine ⟨fun members' h => ?_, fun hno => absurd rfl (hno members)⟩
      cases h
      rfl
    | _ => exact ⟨nofun, fun _ => .inl rfl⟩

/-- A script is what has been read of the body of its member, and within the limit. -/
theorem of_entry?_script {place : Place} {source : ByteArray}
    (h : m.entry? limit = .ok (some (.script place source))) :
    m.address? = some (.script place) ∧ source.size ≤ limit ∧ read m.body limit = .ok source := by
  have haddress : m.address? = some (.script place) := (address_of_found h).symm
  refine ⟨haddress, ?_⟩
  unfold entry? at h
  rw [haddress] at h
  simp only at h
  split at h
  · cases h
  split at h
  · cases h
  cases hread : read m.body limit with
  | error f =>
    rw [hread] at h
    cases h
  | ok body =>
    simp only [hread] at h
    split at h
    · cases h
    · rename_i hsize
      cases h
      exact ⟨Nat.le_of_not_lt hsize, rfl⟩

/-- What has been read is the whole body when it is within the limit, and the limit is not so great
that the body could go on where no more can be asked for. -/
theorem eq_of_read {source : ByteArray} (h : read body limit = .ok source)
    (hsource : source.size ≤ limit) (hfit : limit < limitBound ∨ body.data.size < limitBound) :
    source = body.data ∧ body.intact = true := by
  simp only [read] at h
  split at h
  · rename_i hlong
    cases h
    rw [ByteArray.size_extract] at hsource
    have hlength : readLength limit ≤ limit := by omega
    have hbound : limitBound ≤ limit := by
      rcases Nat.lt_or_ge limit limitBound with hlt | hge
      · rw [readLength_of_lt hlt] at hlength
        omega
      · exact hge
    have hmin : readLength limit = limitBound := Nat.min_eq_right (by omega)
    omega
  · split at h
    · rename_i hintact
      cases h
      exact ⟨rfl, hintact⟩
    · cases h

end Member

namespace Listing

variable {x : Listing} {limit : Nat} {es : List Entry}

theorem of_entries (h : x.entries limit = .ok es) :
    ∃ found, Member.entries limit x.files = .ok found ∧ es = Entry.sort found := by
  rw [entries] at h
  cases hfound : Member.entries limit x.files with
  | error f =>
    rw [hfound] at h
    cases h
  | ok found =>
    refine ⟨found, rfl, ?_⟩
    rw [hfound] at h
    cases hfault : x.fault with
    | none =>
      simp only [hfault] at h
      exact (Except.ok.inj h).symm
    | some f =>
      simp only [hfault] at h
      cases h

theorem exists_of_mem_entries {e : Entry} (h : x.entries limit = .ok es) (he : e ∈ es) :
    ∃ m ∈ x.files, m.entry? limit = .ok (some e) := by
  obtain ⟨found, hfound, rfl⟩ := of_entries h
  obtain ⟨hread, rfl⟩ := Member.entries_eq_ok_iff.mp hfound
  obtain ⟨m, hm, hme⟩ := List.mem_filterMap.mp ((Entry.sort_perm _).mem_iff.mp he)
  obtain ⟨o, ho⟩ := hread m hm
  rw [Member.found?, ho] at hme
  exact ⟨m, hm, ho.trans (congrArg Except.ok hme)⟩

/-- All entries that are read are classified. -/
theorem classified_of_mem_entries {e : Entry} (h : x.entries limit = .ok es) (he : e ∈ es) :
    e.Classified := by
  obtain ⟨m, -, hm⟩ := exists_of_mem_entries h he
  exact ⟨m.path, (Member.address_of_found hm).symm⟩

/-- A script that is read is the whole body of one of the files, and within the limit. -/
theorem of_mem_entries_script {place : Place} {source : ByteArray} (h : x.entries limit = .ok es)
    (hmem : .script place source ∈ es)
    (hfit : limit < Member.limitBound ∨ ∀ m ∈ x.files, m.body.data.size < Member.limitBound) :
    ∃ m ∈ x.files, m.address? = some (.script place) ∧ m.body.intact = true ∧
      source = m.body.data ∧ source.size ≤ limit := by
  obtain ⟨m, hm, hentry⟩ := exists_of_mem_entries h hmem
  obtain ⟨haddress, hsize, hread⟩ := Member.of_entry?_script hentry
  obtain ⟨hsource, hintact⟩ := Member.eq_of_read hread hsize (hfit.imp_right fun hall => hall m hm)
  exact ⟨m, hm, haddress, hintact, hsource, hsize⟩

end Listing

/-- The limit is exact, and nothing is cut.  A member that is an entry, with a body that can be
read, is refused when it declares too many bytes, with the number that it declares, or when it has
too many, with one more than the limit.  Otherwise it is all that its body holds.  Members that are
no entries are not looked into.  So the scripts of an archive are whole and within the limit.  (Only
for the greatest limit of all it has to be said that no body fills the range of all lengths.) -/
theorem Archive.limit_exact {limit : Nat} (hlimit : limit ≤ Member.limitBound) :
    (∀ (m : Member) (a : Address), m.address? = some a → m.size ≤ Member.capacityLimit →
      Member.Readable m.body →
      (Member.TooLarge (m.entry? limit) ↔ limit < m.size ∨ limit < m.body.data.size) ∧
      (limit < m.size → m.entry? limit = .error (.entryTooLarge m.path m.size limit)) ∧
      (m.size ≤ limit → limit < m.body.data.size →
        m.entry? limit = .error (.entryTooLarge m.path (limit + 1) limit)) ∧
      (m.size ≤ limit → m.body.data.size ≤ limit →
        (∀ place, a = .script place →
          m.entry? limit = .ok (some (.script place m.body.data))) ∧
        (a = .options → ∀ members, Json.read m.body.data 127 = .ok (.obj members) →
          m.entry? limit = .ok (some (.options members))) ∧
        (a = .options → (∀ members, Json.read m.body.data 127 ≠ .ok (.obj members)) →
          m.entry? limit = .error (.optionsNotObject m.path) ∨
            ∃ f, m.entry? limit = .error (.invalidOptions m.path f)))) ∧
    (∀ m : Member, m.address? = none → m.entry? limit = .ok none) ∧
    (∀ (x : Archive) (es : List Entry) (place : Place) (source : ByteArray),
      x.entries limit = .ok es → .script place source ∈ es →
      (limit < Member.limitBound ∨
        ∀ m ∈ x.listing.files, m.body.data.size < Member.limitBound) →
      ∃ m ∈ x.listing.files, m.address? = some (.script place) ∧ m.body.intact = true ∧
        source = m.body.data ∧ source.size ≤ limit) := by
  refine ⟨fun m a ha hdeclared hbody => ?_, fun m hm => Member.entry?_of_not_address hm limit,
    fun x es place source hread hmem hfit => Listing.of_mem_entries_script hread hmem hfit⟩
  have hentry := Member.entry?_eq hlimit ha hdeclared hbody
  refine ⟨Member.tooLarge_entry?_iff hlimit ha hdeclared hbody, fun hsize => ?_,
    fun hsize hlong => ?_, fun hsize hshort => ?_⟩
  · rw [hentry, if_pos hsize]
  · rw [hentry, if_neg (Nat.not_lt.mpr hsize), if_pos hlong]
  · rw [hentry, if_neg (Nat.not_lt.mpr hsize), if_neg (Nat.not_lt.mpr hshort)]
    refine ⟨fun place hplace => ?_, fun hoptions => ?_, fun hoptions => ?_⟩
    · rw [hplace, Member.contents]
    · rw [hoptions]
      exact m.contents_options.1
    · rw [hoptions]
      exact m.contents_options.2

/-- A script of one byte in a zip archive. -/
def oneByte : List Item := [⟨"pack.lua", .file "x".toUTF8⟩]

/-- A limit of one byte admits one byte, and refuses two that are declared as none. -/
theorem Archive.limit_one : 1 ≤ Member.limitBound ∧
    Member.entry? ⟨"pack.lua", 0, ⟨"xy".toUTF8, true⟩⟩ 1 =
      .error (.entryTooLarge "pack.lua" 2 1) ∧
    (ofBytes (Zip.write (fun _ => .stored) oneByte)).entries 1 =
      .ok [.script .pack "x".toUTF8] ∧
    ∃ m ∈ (ofBytes (Zip.write (fun _ => .stored) oneByte)).listing.files,
      m.address? = some (.script .pack) ∧ m.body.intact = true ∧
        "x".toUTF8 = m.body.data ∧ "x".toUTF8.size ≤ 1 := by
  have hlimit : 1 ≤ Member.limitBound := by decide
  have hholds : Zip.Holds (fun _ => .stored) oneByte := by
    refine ⟨⟨fun p hp => ?_, by decide, ?_⟩, by decide⟩
    · obtain rfl := List.mem_singleton.mp hp
      exact ⟨by decide +kernel, by decide +kernel, by decide +kernel⟩
    · rw [Zip.size_writeParts]
      decide +kernel
  have hread : (ofBytes (Zip.write (fun _ => .stored) oneByte)).entries 1 =
      .ok [.script .pack "x".toUTF8] := by
    have hfiles : Member.entries 1 (oneByte.filterMap fun it => it.followed.file?) =
        .ok [.script .pack "x".toUTF8] := rfl
    rw [Archive.entries_zip hholds, Listing.entries, hfiles]
    exact congrArg Except.ok (List.mergeSort_singleton _)
  obtain ⟨hmember, -, harchive⟩ := limit_exact hlimit
  obtain ⟨-, -, hlong, -⟩ := hmember ⟨"pack.lua", 0, ⟨"xy".toUTF8, true⟩⟩ (.script .pack) rfl
    (by decide) ⟨rfl, by decide +kernel⟩
  exact ⟨hlimit, hlong (by decide) (by decide +kernel), hread,
    harchive _ _ .pack _ hread List.mem_cons_self (.inl (by decide))⟩

end StoryPack
