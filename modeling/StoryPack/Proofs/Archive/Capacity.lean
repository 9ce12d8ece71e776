/-
The room for a body.

Before a body is read, room is made for as many bytes as its member declares.  The
declared size has been compared with the limit by then, and with nothing else, and
a buffer can not have more than `2 ^ 63 - 1` bytes.  A limit that is not greater
keeps every reader from asking for more.  Under a greater one the reader is aborted
by the first member that it can not read, when this is an entry whose declared size
the limit admits and no buffer has room for.

* `Member.Overtaxes` — the members that no room can be made for;
* `Member.entries_eq_error_iff` — reading fails at the first member that fails;
* `Archive.entries_eq_capacity_iff` — when a reader is aborted;
* `Archive.entries_ne_capacity` — never under a limit that a buffer can have.
-/
import StoryPack.Proofs.Archive.Tar
import StoryPack.Archive.Container

namespace StoryPack

namespace Member

variable {m : Member} {ms : List Member} {limit : Nat}

/-- No room can be made for a member that is an entry and that the limit admits. -/
structure Overtaxes (m : Member) (limit : Nat) : Prop where
  isEntry : m.address?.isSome
  admitted : m.size ≤ limit
  exceeds : capacityLimit < m.size

theorem parseOptions_ne_capacity {path path' : String} {body : ByteArray} {size : Nat} :
    parseOptions path body ≠ .error (.capacity path' size) := fun h => by
  rw [parseOptions] at h
  cases hjson : Json.read body 127 with
  | error f => simp only [hjson] at h; cases h
  | ok j => cases j <;> simp only [hjson] at h <;> cases h

theorem read_ne_capacity {body : Stream} {path : String} {size : Nat} :
    read body limit ≠ .error (.capacity path size) := fun h => by
  simp only [read] at h
  split at h
  · cases h
  · split at h <;> cases h

/-- The members that abort their reader. -/
theorem entry?_eq_capacity_iff {path : String} {size : Nat} :
    m.entry? limit = .error (.capacity path size) ↔
      m.Overtaxes limit ∧ path = m.path ∧ size = m.size := by
  constructor
  · intro h
    unfold entry? at h
    cases haddress : m.address? with
    | none =>
      rw [haddress] at h
      cases h
    | some a =>
      rw [haddress] at h
      simp only at h
      split at h
      · cases h
      rename_i hadmitted
      split at h
      · rename_i hexceeds
        cases h
        exact ⟨⟨by rw [haddress]; rfl, Nat.le_of_not_lt hadmitted, hexceeds⟩, rfl, rfl⟩
      -- nothing after the two comparisons asks for room
      cases hread : read m.body limit with
      | error f =>
        rw [hread] at h
        cases h
        exact absurd hread read_ne_capacity
      | ok body =>
        rw [hread] at h
        simp only at h
        split at h
        · cases h
        cases a with
        | script place => cases h
        | options =>
          cases hparse : parseOptions m.path body with
          | error f =>
            simp only [hparse] at h
            cases h
            exact absurd hparse parseOptions_ne_capacity
          | ok e =>
            simp only [hparse] at h
            cases h
  · rintro ⟨⟨hentry, hadmitted, hexceeds⟩, rfl, rfl⟩
    obtain ⟨a, haddress⟩ := Option.isSome_iff_exists.mp hentry
    unfold entry?
    rw [haddress]
    simp only
    rw [if_neg (Nat.not_lt.mpr hadmitted), if_pos hexceeds]

/-- Under the greatest limit a size that is one too great aborts the reader. -/
example : entry? ⟨"pack.lua", capacityLimit + 1, ⟨ByteArray.empty, true⟩⟩ limitBound =
    .error (.capacity "pack.lua" (capacityLimit + 1)) := rfl

theorem entries_cons_of_error {f : ReadFault} (h : m.entry? limit = .error f) :
    entries limit (m :: ms) = .error f := by
  rw [entries, h]
  rfl

theorem entries_cons_eq_error_iff {f : ReadFault} {o : Option Entry} (h : m.entry? limit = .ok o) :
    entries limit (m :: ms) = .error f ↔ entries limit ms = .error f := by
  rw [entries, h]
  show (entries limit ms >>= fun others => Except.ok (o.toList ++ others)) = _ ↔ _
  cases entries limit ms with
  | error g => exact Iff.rfl
  | ok es => exact iff_of_false nofun nofun

/-- Reading fails at the first member that can not be read, with the fault of that member. -/
theorem entries_eq_error_iff {f : ReadFault} :
    entries limit ms = .error f ↔
      ∃ before m after, ms = before ++ m :: after ∧ (∀ b ∈ before, ∃ o, b.entry? limit = .ok o) ∧
        m.entry? limit = .error f := by
  constructor
  · intro h
    induction ms with
    | nil => cases h
    | cons m rest ih =>
      cases hm : m.entry? limit with
      | error g =>
        rw [entries_cons_of_error hm] at h
        cases h
        exact ⟨[], m, rest, rfl, fun _ hb => absurd hb List.not_mem_nil, hm⟩
      | ok o =>
        obtain ⟨before, m', after, rfl, hbefore, hm'⟩ := ih ((entries_cons_eq_error_iff hm).mp h)
        exact ⟨m :: before, m', after, rfl, List.forall_mem_cons.mpr ⟨⟨o, hm⟩, hbefore⟩, hm'⟩
  · rintro ⟨before, m, after, rfl, hbefore, hm⟩
    induction before with
    | nil => exact entries_cons_of_error hm
    | cons b before ih =>
      obtain ⟨⟨o, ho⟩, hbefore⟩ := List.forall_mem_cons.mp hbefore
      exact (entries_cons_eq_error_iff ho).mpr (ih hbefore)

end Member

/-! ### The faults of an archive -/

/-- The only fault of a tar archive is one of reading. -/
theorem Tar.fault_filesFrom {s : Stream} {fuel i : Nat} {d : Tar.Described} {f : ReadFault}
    (h : (Tar.filesFrom s fuel i d).fault = some f) : f = .io := by
  induction fuel generalizing i d with
  | zero => exact (Option.some.inj h).symm
  | succ fuel ih =>
    rw [Tar.filesFrom_succ] at h
    cases hheader : Tar.headerAt s i with
    | fault =>
      rw [hheader] at h
      exact (Option.some.inj h).symm
    | finished =>
      rw [hheader] at h
      simp only at h
      split at h
      · cases h
      · exact (Option.some.inj h).symm
    | header hd =>
      rw [hheader] at h
      simp only at h
      cases hmember : Tar.memberAt s hd (i + Tar.blockSize) d with
      | none =>
        rw [hmember] at h
        exact (Option.some.inj h).symm
      | some p =>
        rw [hmember] at h
        simp only [Listing.fault_prepend] at h
        exact ih h

/-- The only fault of a zip archive is one of its directory. -/
theorem Zip.fault_listing {b : ByteArray} {f : ReadFault} (h : (Zip.listing b).fault = some f) :
    f = .zip := by
  have hfiles (es : List Zip.Listed) (h : (Zip.filesOf b es).fault = some f) : f = .zip := by
    induction es with
    | nil => cases h
    | cons e rest ih =>
      rw [Zip.filesOf] at h
      cases hbody : Zip.body? b e with
      | none =>
        rw [hbody] at h
        exact (Option.some.inj h).symm
      | some body =>
        rw [hbody] at h
        simp only at h
        split at h
        · exact ih h
        · exact ih h
  rw [Zip.listing] at h
  cases hdirectory : Zip.directory b with
  | none =>
    rw [hdirectory] at h
    exact (Option.some.inj h).symm
  | some es =>
    rw [hdirectory] at h
    exact hfiles es h

namespace Archive

variable {a : Archive} {limit : Nat} {path : String} {size : Nat}

theorem fault_listing {f : ReadFault} (h : a.listing.fault = some f) : f = .io ∨ f = .zip := by
  rw [listing] at h
  cases hcontainer : a.container with
  | zip =>
    rw [hcontainer] at h
    exact .inr (Zip.fault_listing h)
  | gzipTar =>
    rw [hcontainer] at h
    exact .inl (Tar.fault_filesFrom h)
  | tar =>
    rw [hcontainer] at h
    exact .inl (Tar.fault_filesFrom h)

/-- A reader is aborted by the first file that it can not read, when no room can be made for it. -/
theorem entries_eq_capacity_iff :
    a.entries limit = .error (.capacity path size) ↔
      ∃ before m after, a.listing.files = before ++ m :: after ∧
        (∀ b ∈ before, ∃ o, b.entry? limit = .ok o) ∧
        m.Overtaxes limit ∧ path = m.path ∧ size = m.size := by
  have hfiles : a.entries limit = .error (.capacity path size) ↔
      Member.entries limit a.listing.files = .error (.capacity path size) := by
    rw [entries, Listing.entries]
    cases hentries : Member.entries limit a.listing.files with
    | error f => exact Iff.rfl
    | ok es =>
      refine iff_of_false ?_ nofun
      intro h
      cases hfault : a.listing.fault with
      | none =>
        rw [hfault] at h
        cases h
      | some f =>
        rw [hfault] at h
        rcases fault_listing hfault with rfl | rfl <;> cases h
  rw [hfiles, Member.entries_eq_error_iff]
  simp only [Member.entry?_eq_capacity_iff]

/-- No reader is aborted under a limit that a buffer can have. -/
theorem entries_ne_capacity (hlimit : limit ≤ Member.capacityLimit) :
    a.entries limit ≠ .error (.capacity path size) := fun h => by
  obtain ⟨-, m, -, -, -, hm, -⟩ := entries_eq_capacity_iff.mp h
  exact absurd hm.exceeds (Nat.not_lt.mpr (Nat.le_trans hm.admitted hlimit))

end Archive

end StoryPack
