/-
Reading tar archives member by member.

The reader of a tar archive goes from header to header.  What it makes of a member
depends on the header, on the blocks of its body and on what earlier members have
said about it, but not on where the member stands nor on what follows.  So runs of
members can be read apart: what a run of whole members gives, it gives in every
archive that holds it.

* `Tar.memberAt` — one member, and `following_eq`, the reader in terms of it;
* `Tar.Scans` — the reader gets from one header to another one;
* `Tar.Whole` — a run of whole members, with `Whole.append`;
* `Scans.of_begins`, `Scans.suffix` — what follows and what stands before do not matter;
* `exists_scans` — a listing without a fault comes from a scan that ends the archive.
-/
import StoryPack.Archive.Tar
import StoryPack.Proofs.Bytes

namespace StoryPack

open Bytes (At Begins)

namespace Listing

/-- Some files before those of a listing. -/
def prepend (fs : List Member) (x : Listing) : Listing := { x with files := fs ++ x.files }

@[simp] theorem prepend_empty (fs : List Member) : prepend fs {} = { files := fs } := by
  rw [prepend, List.append_nil]

@[simp] theorem prepend_append (fs gs : List Member) (x : Listing) :
    x.prepend (fs ++ gs) = (x.prepend gs).prepend fs := by
  simp only [prepend, List.append_assoc]

@[simp] theorem files_prepend (fs : List Member) (x : Listing) :
    (x.prepend fs).files = fs ++ x.files := rfl

@[simp] theorem fault_prepend (fs : List Member) (x : Listing) :
    (x.prepend fs).fault = x.fault := rfl

end Listing

namespace Tar

/-! ### One member -/

/-- What the reader makes of a member: the file that it is, if it is one, the position of the next
header, and what has been said about the next member. -/
structure Passed where
  files : List Member
  next : Nat
  described : Described

/-- The same member some bytes further on. -/
def Passed.shift (k : Nat) (p : Passed) : Passed := { p with next := k + p.next }

/-- A member of some size whose body stands at `start` and ends before `next`. -/
def partAt (s : Stream) (h : ByteArray) (start size next : Nat) (d : Described) : Option Passed :=
  match memberKind h with
  | .longName =>
    match d.longName, description? s start size with
    | none, some name => some ⟨[], next, { d with longName := some name }⟩
    | _, _ => none
  | .longLink =>
    match d.longLink, description? s start size with
    | false, some _ => some ⟨[], next, { d with longLink := true }⟩
    | _, _ => none
  | .records =>
    match d.records, description? s start size with
    | none, some b => some ⟨[], next, { d with records := some b }⟩
    | _, _ => none
  | .sparse => (sparseExtra? s h start size).map fun extra => ⟨[], next + extra, {}⟩
  | .other => some ⟨[], next, {}⟩
  | .file => some ⟨[⟨normalize (nameOf h d), size, bodyAt s start size⟩], next, {}⟩

/-- The member with a header whose blocks stand at `start`, if it is sound. -/
def memberAt (s : Stream) (h : ByteArray) (start : Nat) (d : Described) : Option Passed :=
  if isSound h then
    (sizeOf? h d).bind fun size =>
      (afterBody? start size).bind fun next => partAt s h start size next d
  else none

/-- Whether nothing has been said about the next member. -/
def Described.isEmpty (d : Described) : Bool :=
  !(d.longName.isSome || d.longLink || d.records.isSome)

theorem Described.eq_of_isEmpty {d : Described} (h : d.isEmpty) : d = {} := by
  obtain ⟨name, link, records⟩ := d
  cases name <;> cases link <;> cases records <;> simp [isEmpty] at h ⊢

/-- The reader takes one member after another. -/
theorem filesFrom_succ (s : Stream) (fuel i : Nat) (d : Described) :
    filesFrom s (fuel + 1) i d =
      match headerAt s i with
      | .fault => .fail .io
      | .finished => if d.isEmpty then {} else .fail .io
      | .header h =>
        match memberAt s h (i + blockSize) d with
        | none => .fail .io
        | some p => (filesFrom s fuel p.next p.described).prepend p.files := by
  rw [filesFrom]
  cases headerAt s i with
  | fault => rfl
  | finished => cases hd : d.longName.isSome || d.longLink || d.records.isSome <;>
      simp [Described.isEmpty, hd]
  | header h =>
    simp only [memberAt]
    cases isSound h with
    | false => rfl
    | true =>
      simp only [Bool.not_true, Bool.false_eq_true, if_false, if_true]
      cases sizeOf? h d with
      | none => rfl
      | some size =>
        simp only [Option.bind_some]
        cases afterBody? (i + blockSize) size with
        | none => rfl
        | some next =>
          simp only [Option.bind_some, partAt]
          cases memberKind h with
          | longName =>
            cases d.longName <;> cases description? s (i + blockSize) size <;> rfl
          | longLink =>
            cases d.longLink <;> cases description? s (i + blockSize) size <;> rfl
          | records =>
            cases d.records <;> cases description? s (i + blockSize) size <;> rfl
          | sparse => cases sparseExtra? s h (i + blockSize) size <;> rfl
          | other => rfl
          | file => rfl

/-! ### Positions -/

theorem afterBody?_eq_some {start size next : Nat} (h : afterBody? start size = some next) :
    start + size ≤ next ∧ next < sizeBound := by
  simp only [afterBody?] at h
  split at h
  · split at h
    · rename_i hbound
      cases h
      simp only [blockSize] at hbound ⊢
      exact ⟨by omega, hbound⟩
    · cases h
  · cases h

theorem afterBody?_shift {k start size next : Nat} (h : afterBody? start size = some next)
    (hk : k + next < sizeBound) : afterBody? (k + start) size = some (k + next) := by
  simp only [afterBody?] at h ⊢
  split at h
  · rename_i hsize
    split at h
    · cases h
      rw [if_pos hsize, Nat.add_assoc, if_pos hk]
    · cases h
  · cases h

theorem afterBody?_unshift {k start size next : Nat} (h : afterBody? (k + start) size = some next) :
    ∃ n, next = k + n ∧ afterBody? start size = some n := by
  simp only [afterBody?] at h ⊢
  split at h
  · rename_i hsize
    split at h
    · cases h
      refine ⟨_, Nat.add_assoc .., ?_⟩
      rw [if_pos hsize, if_pos (by omega)]
    · cases h
  · cases h

theorem le_next_of_partAt {s : Stream} {h : ByteArray} {start size next : Nat} {d : Described}
    {p : Passed} (hp : partAt s h start size next d = some p) : next ≤ p.next := by
  unfold partAt at hp
  split at hp
  · split at hp
    · cases hp
      exact Nat.le_refl _
    · cases hp
  · split at hp
    · cases hp
      exact Nat.le_refl _
    · cases hp
  · split at hp
    · cases hp
      exact Nat.le_refl _
    · cases hp
  · obtain ⟨extra, -, rfl⟩ := Option.map_eq_some_iff.mp hp
    exact Nat.le_add_right _ _
  · cases hp
    exact Nat.le_refl _
  · cases hp
    exact Nat.le_refl _

/-- A member is sound and has a size and a place for its body. -/
theorem memberAt_eq_some {s : Stream} {h : ByteArray} {start : Nat} {d : Described} {p : Passed} :
    memberAt s h start d = some p ↔
      isSound h = true ∧ ∃ size next, sizeOf? h d = some size ∧
        afterBody? start size = some next ∧ partAt s h start size next d = some p := by
  unfold memberAt
  split
  · rename_i hsound
    simp only [Option.bind_eq_some_iff, hsound, true_and]
    constructor
    · rintro ⟨size, hsize, next, hnext, hp⟩
      exact ⟨size, next, hsize, hnext, hp⟩
    · rintro ⟨size, next, hsize, hnext, hp⟩
      exact ⟨size, hsize, next, hnext, hp⟩
  · rename_i hsound
    simp [hsound]

theorem le_next_of_memberAt {s : Stream} {h : ByteArray} {start : Nat} {d : Described} {p : Passed}
    (hp : memberAt s h start d = some p) : start ≤ p.next := by
  obtain ⟨-, size, next, -, hnext, hpart⟩ := memberAt_eq_some.mp hp
  have := (afterBody?_eq_some hnext).1
  have := le_next_of_partAt hpart
  omega

theorem headerAt_eq_header {s : Stream} {i : Nat} {h : ByteArray} (hh : headerAt s i = .header h) :
    i + blockSize ≤ s.data.size ∧ h = s.data.extract i (i + blockSize) := by
  simp only [headerAt] at hh
  split at hh
  · rename_i hfits
    split at hh
    · cases hh
    · cases hh
      exact ⟨hfits, rfl⟩
  · split at hh <;> cases hh

/-! ### The reader without a bound of its steps -/

/-- The files from a position on. -/
def following (s : Stream) (i : Nat) (d : Described) : Listing :=
  filesFrom s (s.data.size / blockSize + 2) i d

theorem filesFrom_fuel (s : Stream) {fuel fuel' i : Nat} (d : Described)
    (h : (s.data.size - i) / blockSize < fuel) (h' : (s.data.size - i) / blockSize < fuel') :
    filesFrom s fuel i d = filesFrom s fuel' i d := by
  induction fuel generalizing fuel' i d with
  | zero => exact absurd h (Nat.not_lt_zero _)
  | succ fuel ih =>
    cases fuel' with
    | zero => exact absurd h' (Nat.not_lt_zero _)
    | succ fuel' =>
      rw [filesFrom_succ, filesFrom_succ]
      cases hheader : headerAt s i with
      | fault => rfl
      | finished => rfl
      | header hd =>
        simp only
        cases hp : memberAt s hd (i + blockSize) d with
        | none => rfl
        | some p =>
          have hnext := le_next_of_memberAt hp
          have hfits := (headerAt_eq_header hheader).1
          simp only [blockSize] at h h' hnext hfits
          -- a member takes at least the block of its header, so one unit of fuel pays for it
          have hrest : filesFrom s fuel p.next p.described = filesFrom s fuel' p.next p.described :=
            ih p.described (by simp only [blockSize]; omega) (by simp only [blockSize]; omega)
          simp only
          rw [hrest]

theorem listing_eq (s : Stream) : listing s = following s 0 {} := rfl

theorem following_eq (s : Stream) (i : Nat) (d : Described) :
    following s i d =
      match headerAt s i with
      | .fault => .fail .io
      | .finished => if d.isEmpty then {} else .fail .io
      | .header h =>
        match memberAt s h (i + blockSize) d with
        | none => .fail .io
        | some p => (following s p.next p.described).prepend p.files := by
  rw [following, filesFrom_succ]
  cases hheader : headerAt s i with
  | fault => rfl
  | finished => rfl
  | header hd =>
    simp only
    cases hp : memberAt s hd (i + blockSize) d with
    | none => rfl
    | some p =>
      have hnext := le_next_of_memberAt hp
      have hfits := (headerAt_eq_header hheader).1
      simp only [following]
      rw [filesFrom_fuel s p.described]
      · simp only [blockSize] at *
        omega
      · simp only [blockSize] at *
        omega

/-! ### Runs of members -/

/-- The reader gets from one header to another one: the files that it passes, and what has been said
about the next member there and here. -/
inductive Scans (s : Stream) : Nat → Described → List Member → Nat → Described → Prop
  | here (i : Nat) (d : Described) : Scans s i d [] i d
  | member {i j : Nat} {d d' : Described} {h : ByteArray} {p : Passed} {fs : List Member}
      (hheader : headerAt s i = .header h) (hmember : memberAt s h (i + blockSize) d = some p)
      (hrest : Scans s p.next p.described fs j d') : Scans s i d (p.files ++ fs) j d'

namespace Scans

variable {s t : Stream} {i j k : Nat} {d d' e : Described} {fs gs : List Member}

theorem le (h : Scans s i d fs j d') : i ≤ j := by
  induction h with
  | here i d => exact Nat.le_refl i
  | member _ hmember _ ih =>
    have := le_next_of_memberAt hmember
    omega

theorem trans (h : Scans s i d fs j d') (h' : Scans s j d' gs k e) :
    Scans s i d (fs ++ gs) k e := by
  induction h with
  | here i d => exact h'
  | member hheader hmember _ ih =>
    rw [List.append_assoc]
    exact .member hheader hmember (ih h')

/-- The files from a header on are those that are passed and those that follow. -/
theorem following (h : Scans s i d fs j d') :
    Tar.following s i d = (Tar.following s j d').prepend fs := by
  induction h with
  | here i d => rfl
  | member hheader hmember _ ih =>
    rw [following_eq, hheader]
    simp only [hmember]
    rw [ih, Listing.prepend_append]

end Scans

theorem following_of_finished {s : Stream} {i : Nat} (h : headerAt s i = .finished) :
    following s i {} = {} := by
  rw [following_eq, h]
  rfl

/-- What is passed on the way to the end of an archive are its files. -/
theorem Scans.files {s : Stream} {i j : Nat} {d : Described} {fs : List Member}
    (h : Scans s i d fs j {}) (hend : headerAt s j = .finished) :
    Tar.following s i d = { files := fs } := by
  rw [h.following, following_of_finished hend, Listing.prepend_empty]

/-- The files of an archive without a fault have been passed on the way to its end. -/
theorem exists_scans {s : Stream} {i : Nat} {d : Described} (h : (following s i d).fault = none) :
    ∃ j, Scans s i d (following s i d).files j {} ∧ headerAt s j = .finished := by
  -- on the bytes that are left, as every header brings the reader forward
  have key (fuel i : Nat) (d : Described) (hfuel : s.data.size - i < fuel)
      (h : (following s i d).fault = none) :
      ∃ j, Scans s i d (following s i d).files j {} ∧ headerAt s j = .finished := by
    induction fuel generalizing i d with
    | zero => exact absurd hfuel (Nat.not_lt_zero _)
    | succ fuel ih =>
      rw [following_eq] at h ⊢
      cases hheader : headerAt s i with
      | fault =>
        rw [hheader] at h
        cases h
      | finished =>
        rw [hheader] at h
        simp only at h ⊢
        split at h
        · rename_i hempty
          rw [if_pos hempty]
          exact ⟨i, Described.eq_of_isEmpty hempty ▸ .here i d, hheader⟩
        · cases h
      | header hd =>
        rw [hheader] at h
        simp only at h ⊢
        cases hp : memberAt s hd (i + blockSize) d with
        | none =>
          rw [hp] at h
          cases h
        | some p =>
          rw [hp] at h
          simp only [Listing.fault_prepend] at h
          have hnext := le_next_of_memberAt hp
          have hfits := (headerAt_eq_header hheader).1
          simp only [blockSize] at hnext hfits
          obtain ⟨j, hscan, hend⟩ := ih p.next p.described (by omega) h
          exact ⟨j, .member hheader hp hscan, hend⟩
  exact key _ i d (Nat.lt_succ_self _) h

/-- Where an archive ends it has a block of zeros, or the stream ends there. -/
theorem headerAt_eq_finished {s : Stream} {i : Nat} (h : headerAt s i = .finished) :
    i + blockSize ≤ s.data.size ∨ i = s.data.size ∧ s.intact = true := by
  simp only [headerAt] at h
  split at h
  · rename_i hfits
    exact .inl hfits
  · split at h
    · rename_i hend
      rw [Bool.and_eq_true, beq_iff_eq] at hend
      exact .inr hend
    · cases h

/-! ### What follows does not matter -/

section Beginning

variable {q b : ByteArray} {x y : Bool} {i start size next : Nat} {d : Described} {h : ByteArray}

theorem headerAt_of_begins (hq : Begins q b) (hi : i + blockSize ≤ q.size) :
    headerAt ⟨b, y⟩ i = headerAt ⟨q, x⟩ i := by
  have hsize := hq.size_le
  simp only [headerAt]
  rw [if_pos hi, if_pos (by omega), hq.extract_eq hi]

theorem bodyAt_of_begins (hq : Begins q b) (hi : start + size ≤ q.size) :
    bodyAt ⟨b, y⟩ start size = bodyAt ⟨q, x⟩ start size := by
  have hsize := hq.size_le
  simp only [bodyAt]
  rw [hq.extract_eq hi]
  have : (q.extract start (start + size)).size = size := by rw [ByteArray.size_extract]; omega
  simp only [this, beq_self_eq_true, Bool.true_or]

theorem description?_of_begins (hq : Begins q b) (hi : start + size ≤ q.size) :
    description? ⟨b, y⟩ start size = description? ⟨q, x⟩ start size := by
  simp only [description?]
  rw [bodyAt_of_begins hq hi]

theorem moreParts_of_begins (hq : Begins q b) {fuel fuel' : Nat} (hfuel : fuel ≤ fuel')
    {m : SparseMap} {r : SparseMap × Nat} (hr : moreParts ⟨q, x⟩ size fuel i m = some r) :
    moreParts ⟨b, y⟩ size fuel' i m = some r := by
  have hsize := hq.size_le
  induction fuel generalizing fuel' i m with
  | zero => cases hr
  | succ fuel ih =>
    cases fuel' with
    | zero => exact absurd hfuel (Nat.not_succ_le_zero _)
    | succ fuel' =>
      rw [moreParts] at hr ⊢
      simp only at hr ⊢
      split at hr
      · cases hr
      · rename_i hfits
        rw [if_neg (by omega), hq.extract_eq (Nat.le_of_not_lt hfits)]
        simp only [Option.bind_eq_bind, Option.bind_eq_some_iff] at hr ⊢
        obtain ⟨m', hm', hr⟩ := hr
        refine ⟨m', hm', ?_⟩
        split at hr
        · rename_i hmore
          rw [if_pos hmore]
          exact ih (by omega) hr
        · rename_i hmore
          rw [if_neg hmore]
          exact hr

theorem sparseExtra?_of_begins (hq : Begins q b) {extra : Nat}
    (hextra : sparseExtra? ⟨q, x⟩ h start size = some extra) :
    sparseExtra? ⟨b, y⟩ h start size = some extra := by
  have hsize := hq.size_le
  simp only [sparseExtra?] at hextra ⊢
  split at hextra
  · cases hextra
  · rename_i hdialect
    rw [if_neg hdialect]
    simp only [Option.bind_eq_bind, Option.bind_eq_some_iff] at hextra ⊢
    obtain ⟨m, hm, hextra⟩ := hextra
    refine ⟨m, hm, ?_⟩
    split at hextra
    · rename_i hmore
      rw [if_pos hmore]
      obtain ⟨r, hr, hextra⟩ := Option.bind_eq_some_iff.mp hextra
      exact Option.bind_eq_some_iff.mpr ⟨r, moreParts_of_begins hq (by omega) hr, hextra⟩
    · rename_i hmore
      rw [if_neg hmore]
      exact hextra

theorem partAt_of_begins (hq : Begins q b) {p : Passed} (hstart : start + size ≤ next)
    (hp : partAt ⟨q, x⟩ h start size next d = some p) (hnext : p.next ≤ q.size) :
    partAt ⟨b, y⟩ h start size next d = some p := by
  have hle := le_next_of_partAt hp
  have hfits : start + size ≤ q.size := by omega
  unfold partAt at hp ⊢
  rw [description?_of_begins (x := x) hq hfits, bodyAt_of_begins (x := x) hq hfits]
  cases hkind : memberKind h with
  | sparse =>
    rw [hkind] at hp
    obtain ⟨extra, hextra, rfl⟩ := Option.map_eq_some_iff.mp hp
    exact Option.map_eq_some_iff.mpr ⟨extra, sparseExtra?_of_begins hq hextra, rfl⟩
  | _ =>
    rw [hkind] at hp
    exact hp

/-- A member that is there as a whole is the same whatever follows. -/
theorem memberAt_of_begins (hq : Begins q b) {p : Passed}
    (hp : memberAt ⟨q, x⟩ h start d = some p) (hnext : p.next ≤ q.size) :
    memberAt ⟨b, y⟩ h start d = some p := by
  obtain ⟨hsound, size, next, hsize, hafter, hpart⟩ := memberAt_eq_some.mp hp
  have hstart := (afterBody?_eq_some hafter).1
  exact memberAt_eq_some.mpr
    ⟨hsound, size, next, hsize, hafter, partAt_of_begins hq hstart hpart hnext⟩

theorem Scans.of_begins (hq : Begins q b) {j : Nat} {d' : Described} {fs : List Member}
    (h : Scans ⟨q, x⟩ i d fs j d') (hj : j ≤ q.size) : Scans ⟨b, y⟩ i d fs j d' := by
  induction h with
  | here i d => exact .here i d
  | member hheader hmember hrest ih =>
    have hle := hrest.le
    refine .member ?_ (memberAt_of_begins hq hmember (by omega)) (ih hj)
    rw [headerAt_of_begins (x := x) hq (headerAt_eq_header hheader).1]
    exact hheader

end Beginning

/-! ### What stands before does not matter -/

section Suffix

variable {a r : ByteArray} {y : Bool} {i start size next : Nat} {d : Described} {h : ByteArray}

theorem headerAt_suffix (a r : ByteArray) (y : Bool) (i : Nat) :
    headerAt ⟨a ++ r, y⟩ (a.size + i) = headerAt ⟨r, y⟩ i := by
  have hblock : (a ++ r).extract (a.size + i) (a.size + i + blockSize) =
      r.extract i (i + blockSize) := by rw [Nat.add_assoc, ByteArray.extract_append_size_add]
  simp only [headerAt]
  rw [hblock]
  simp only [ByteArray.size_append, Nat.add_assoc, Nat.add_le_add_iff_left, beq_iff_eq,
    Nat.add_left_cancel_iff, Bool.and_eq_true]

theorem bodyAt_suffix (a r : ByteArray) (y : Bool) (start size : Nat) :
    bodyAt ⟨a ++ r, y⟩ (a.size + start) size = bodyAt ⟨r, y⟩ start size := by
  simp only [bodyAt, Nat.add_assoc, ByteArray.extract_append_size_add]

theorem description?_suffix (a r : ByteArray) (y : Bool) (start size : Nat) :
    description? ⟨a ++ r, y⟩ (a.size + start) size = description? ⟨r, y⟩ start size := by
  simp only [description?, bodyAt_suffix]

theorem moreParts_suffix {fuel fuel' : Nat} {m : SparseMap}
    (hfuel : (r.size - i) / blockSize < fuel) (hfuel' : (r.size - i) / blockSize < fuel') :
    moreParts ⟨a ++ r, y⟩ size fuel' (a.size + i) m =
      (moreParts ⟨r, y⟩ size fuel i m).map fun x => (x.1, a.size + x.2) := by
  induction fuel generalizing fuel' i m with
  | zero => exact absurd hfuel (Nat.not_lt_zero _)
  | succ fuel ih =>
    cases fuel' with
    | zero => exact absurd hfuel' (Nat.not_lt_zero _)
    | succ fuel' =>
      rw [moreParts, moreParts]
      simp only [ByteArray.size_append, Nat.add_assoc, ByteArray.extract_append_size_add]
      by_cases hfits : r.size < i + blockSize
      · rw [if_pos hfits, if_pos (by omega)]
        rfl
      · rw [if_neg hfits, if_neg (by omega)]
        simp only [Option.bind_eq_bind]
        cases m.addAll size (r.extract i (i + blockSize)) 0 21 with
        | none => rfl
        | some m' =>
          simp only [Option.bind_some]
          split
          · simp only [blockSize] at hfits hfuel hfuel'
            exact ih (by simp only [blockSize]; omega) (by simp only [blockSize]; omega)
          · rfl

theorem sparseExtra?_suffix (a r : ByteArray) (y : Bool) (h : ByteArray) (start size : Nat) :
    sparseExtra? ⟨a ++ r, y⟩ h (a.size + start) size = sparseExtra? ⟨r, y⟩ h start size := by
  have hfuel : (r.size - start) / blockSize < r.size + 1 := by
    simp only [blockSize]
    omega
  have hfuel' : (r.size - start) / blockSize < (a ++ r).size + 1 := by
    rw [ByteArray.size_append]
    omega
  simp only [sparseExtra?, moreParts_suffix hfuel hfuel']
  split
  · rfl
  · simp only [Option.bind_eq_bind]
    congr 1
    funext m
    split
    · cases moreParts ⟨r, y⟩ size (r.size + 1) start m with
      | none => rfl
      | some x => simp only [Option.map_some, Option.bind_some, Nat.add_sub_add_left]
    · simp only [Option.bind_some, Nat.add_sub_add_left]

theorem partAt_suffix (a r : ByteArray) (y : Bool) (h : ByteArray) (start size next : Nat)
    (d : Described) :
    partAt ⟨a ++ r, y⟩ h (a.size + start) size (a.size + next) d =
      (partAt ⟨r, y⟩ h start size next d).map (Passed.shift a.size) := by
  simp only [partAt, description?_suffix, bodyAt_suffix, sparseExtra?_suffix]
  cases memberKind h with
  | longName => cases d.longName <;> cases description? ⟨r, y⟩ start size <;> rfl
  | longLink => cases d.longLink <;> cases description? ⟨r, y⟩ start size <;> rfl
  | records => cases d.records <;> cases description? ⟨r, y⟩ start size <;> rfl
  | sparse =>
    cases sparseExtra? ⟨r, y⟩ h start size with
    | none => rfl
    | some extra => simp only [Option.map_some, Passed.shift, Nat.add_assoc]
  | other => rfl
  | file => rfl

theorem Passed.shift_inj {k : Nat} {p p' : Passed} : p.shift k = p'.shift k ↔ p = p' := by
  cases p
  cases p'
  simp [shift]

/-- A member that lies in the last part of an archive is the same in that part alone. -/
theorem memberAt_suffix {p : Passed} (hbound : (a ++ r).size < sizeBound)
    (hnext : p.next ≤ r.size) :
    memberAt ⟨a ++ r, y⟩ h (a.size + start) d = some (p.shift a.size) ↔
      memberAt ⟨r, y⟩ h start d = some p := by
  rw [ByteArray.size_append] at hbound
  rw [memberAt_eq_some, memberAt_eq_some]
  refine and_congr_right fun _ => ⟨?_, ?_⟩
  · rintro ⟨size, next, hsize, hafter, hpart⟩
    obtain ⟨next', rfl, hafter'⟩ := afterBody?_unshift hafter
    rw [partAt_suffix, Option.map_eq_some_iff] at hpart
    obtain ⟨p', hpart, hp'⟩ := hpart
    exact ⟨size, next', hsize, hafter', Passed.shift_inj.mp hp' ▸ hpart⟩
  · rintro ⟨size, next, hsize, hafter, hpart⟩
    have hle := le_next_of_partAt hpart
    refine ⟨size, a.size + next, hsize, afterBody?_shift hafter (by omega), ?_⟩
    rw [partAt_suffix, hpart]
    rfl

/-- The way through the last part of an archive is the way through that part alone. -/
theorem Scans.suffix {j : Nat} {d' : Described} {fs : List Member}
    (hscan : Scans ⟨r, y⟩ i d fs j d') (hbound : (a ++ r).size < sizeBound) (hj : j ≤ r.size) :
    Scans ⟨a ++ r, y⟩ (a.size + i) d fs (a.size + j) d' := by
  induction hscan with
  | here i d => exact .here _ d
  | member hheader hmember hrest ih =>
    have hle := hrest.le
    rw [← headerAt_suffix a] at hheader
    have hmember' := (memberAt_suffix hbound (by omega)).mpr hmember
    rw [← Nat.add_assoc] at hmember'
    exact .member (p := Passed.shift _ _) hheader hmember' (ih hj)

theorem Scans.of_suffix {k j : Nat} {d' : Described} {fs : List Member}
    (hscan : Scans ⟨a ++ r, y⟩ k d fs j d') (hbound : (a ++ r).size < sizeBound)
    (hj : j ≤ a.size + r.size) (hk : k = a.size + i) :
    ∃ j', j = a.size + j' ∧ Scans ⟨r, y⟩ i d fs j' d' := by
  induction hscan generalizing i with
  | here k d => exact ⟨i, hk, .here i d⟩
  | @member k j d d' h p fs hheader hmember hrest ih =>
    subst hk
    have hle := hrest.le
    have hnext := le_next_of_memberAt hmember
    rw [headerAt_suffix] at hheader
    -- the next header lies in the last part too
    obtain ⟨next, hn⟩ : ∃ next, p.next = a.size + next := ⟨p.next - a.size, by omega⟩
    have hp : p = Passed.shift a.size { p with next := next } := by
      rw [Passed.shift, ← hn]
    rw [Nat.add_assoc, hp, memberAt_suffix hbound (by simp only; omega)] at hmember
    obtain ⟨j', rfl, hrest'⟩ := ih hj hn
    exact ⟨j', rfl, .member (p := { p with next := next }) hheader hmember hrest'⟩

/-- What follows the first part of an archive is the same after another first part, if it can be
read. -/
theorem following_suffix {a' : ByteArray} (hbound : (a ++ r).size < sizeBound)
    (hbound' : (a' ++ r).size < sizeBound)
    (hread : (following ⟨a ++ r, y⟩ a.size {}).fault = none) :
    following ⟨a' ++ r, y⟩ a'.size {} = following ⟨a ++ r, y⟩ a.size {} := by
  -- the way to the end lies in the last part, and the other archive has the same last part
  obtain ⟨j, hscan, hend⟩ := exists_scans hread
  have hj : j ≤ a.size + r.size := by
    rw [← ByteArray.size_append]
    rcases headerAt_eq_finished hend with hfits | ⟨heq, -⟩
    · exact Nat.le_trans (Nat.le_add_right _ _) hfits
    · exact Nat.le_of_eq heq
  obtain ⟨j, rfl, hlast⟩ := hscan.of_suffix hbound hj (Nat.add_zero _).symm
  have hend' := hend
  rw [headerAt_suffix, ← headerAt_suffix a'] at hend'
  have hscan' := hlast.suffix hbound' (Nat.le_of_add_le_add_left hj)
  rw [Nat.add_zero] at hscan'
  rw [hscan'.files hend', hscan.files hend]

end Suffix

/-! ### Runs of whole members -/

/-- The string is a run of whole members with these files. -/
def Whole (a : ByteArray) (fs : List Member) : Prop := Scans ⟨a, true⟩ 0 {} fs a.size {}

namespace Whole

variable {a b r : ByteArray} {fs gs : List Member} {y : Bool}

theorem nil : Whole ByteArray.empty [] := .here 0 {}

/-- A run at the beginning of an archive is passed first. -/
theorem scans (h : Whole a fs) (r : ByteArray) (y : Bool) :
    Scans ⟨a ++ r, y⟩ 0 {} fs a.size {} :=
  Scans.of_begins (.append a r) h (Nat.le_refl _)

theorem append (ha : Whole a fs) (hb : Whole b gs) (hbound : (a ++ b).size < sizeBound) :
    Whole (a ++ b) (fs ++ gs) := by
  have hscan := (ha.scans b true).trans (Scans.suffix hb hbound (Nat.le_refl _))
  rwa [← ByteArray.size_append] at hscan

theorem listing (h : Whole a fs) (r : ByteArray) (y : Bool) :
    Tar.listing ⟨a ++ r, y⟩ = (following ⟨a ++ r, y⟩ a.size {}).prepend fs := by
  rw [listing_eq, (h.scans r y).following]

end Whole

end Tar

end StoryPack
