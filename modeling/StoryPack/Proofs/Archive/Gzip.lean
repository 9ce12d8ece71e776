/-
Gzip streams that go on or end early.

A gzip stream says itself where it ends: the last block is marked, and a checksum
follows it.  So bytes after a sound stream are not looked at, not even when they
are another gzip stream, and a stream that is cut short is never sound.

* `Stream.ofGzip_of_begins` — a stream and a beginning of it;
* `Stream.ofGzip_append` — what follows a sound stream does not count;
* `Gzip.pack` — a gzip stream of stored blocks, and `ofGzip_pack`, which reads it back.
-/
import StoryPack.Archive.Gzip
import StoryPack.Proofs.Archive.Inflate

namespace StoryPack

open Bytes (At Begins)

namespace Gzip

variable {q b : ByteArray} {i j : Nat}

/-! ### The header -/

theorem afterField_of_begins (hq : Begins q b) (h : afterField q i = some j) :
    afterField b i = some j := by
  unfold afterField at h ⊢
  cases hzero : Bytes.indexOf? q (· == 0) i with
  | none =>
    rw [hzero] at h
    cases h
  | some z =>
    have hzero' := (At.of_begins hq).indexOf? hzero
    rw [Nat.zero_add, Nat.zero_add] at hzero'
    rw [hzero] at h
    rw [hzero']
    exact h

theorem afterExtra_of_begins (hq : Begins q b) (h : afterExtra q i = some j) :
    afterExtra b i = some j := by
  have hsize := hq.size_le
  simp only [afterExtra] at h ⊢
  split at h
  · rename_i hfits
    rw [hq.word_eq (by omega), if_pos (by omega)]
    exact h
  · cases h

theorem afterHeaderCheck_of_begins (hq : Begins q b) (h : afterHeaderCheck q i = some j) :
    afterHeaderCheck b i = some j := by
  have hsize := hq.size_le
  unfold afterHeaderCheck at h ⊢
  split at h
  · rename_i hcheck
    rw [Bool.and_eq_true, decide_eq_true_iff] at hcheck
    have hextract := hq.extract_eq (k := 0) (n := i) (by omega)
    rw [hq.word_eq hcheck.1, hextract, hcheck.2, Bool.and_true,
      if_pos (decide_eq_true (by omega))]
    exact h
  · cases h

theorem afterOptional_of_imp {flags bit : UInt8} {field field' : Nat → Option Nat}
    (h : ∀ {i j}, field i = some j → field' i = some j)
    (hi : afterOptional flags bit i field = some j) :
    afterOptional flags bit i field' = some j := by
  unfold afterOptional at hi ⊢
  split at hi
  · rename_i hbit
    rw [if_pos hbit]
    exact h hi
  · rename_i hbit
    rw [if_neg hbit]
    exact hi

/-- A header that is there as a whole is the same whatever follows. -/
theorem bodyStart_of_begins (hq : Begins q b) (h : bodyStart q = some i) :
    bodyStart b = some i := by
  have hsize := hq.size_le
  simp only [bodyStart] at h ⊢
  split at h
  · cases h
  · rename_i hsound
    have hten : 10 ≤ q.size := Nat.le_of_not_lt fun hlt => hsound (by simp [hlt])
    have hmagic : Bytes.hasAt b magic 0 = Bytes.hasAt q magic 0 :=
      hq.hasAt_eq (show 0 + 2 ≤ q.size by omega)
    have hfew : decide (b.size < 10) = decide (q.size < 10) := by
      rw [decide_eq_false (by omega), decide_eq_false (by omega)]
    rw [hq.byte_eq (by omega : 2 < q.size), hq.byte_eq (by omega : 3 < q.size), hfew,
      hmagic, if_neg hsound]
    simp only [Option.bind_eq_bind, Option.bind_eq_some_iff] at h ⊢
    obtain ⟨i₁, h₁, i₂, h₂, i₃, h₃, h⟩ := h
    exact ⟨i₁, afterOptional_of_imp (afterExtra_of_begins hq) h₁,
      i₂, afterOptional_of_imp (afterField_of_begins hq) h₂,
      i₃, afterOptional_of_imp (afterField_of_begins hq) h₃,
      afterOptional_of_imp (afterHeaderCheck_of_begins hq) h⟩

/-- A string with a sound header begins with the mark of gzip streams. -/
theorem hasAt_magic_of_bodyStart (h : bodyStart b = some i) : Bytes.hasAt b magic 0 = true := by
  simp only [bodyStart] at h
  split at h
  · cases h
  · rename_i hsound
    cases hmagic : Bytes.hasAt b magic 0 with
    | true => rfl
    | false => exact absurd (by simp [hmagic]) hsound

theorem hasTrailer_of_begins (hq : Begins q b) {data : ByteArray} (h : hasTrailer q i data = true) :
    hasTrailer b i data = true := by
  have hsize := hq.size_le
  simp only [hasTrailer, Bool.and_eq_true, decide_eq_true_iff] at h ⊢
  obtain ⟨⟨hfits, hcheck⟩, hlength⟩ := h
  rw [hq.word_eq (by omega), hq.word_eq (by omega)]
  exact ⟨⟨by omega, hcheck⟩, hlength⟩

end Gzip

namespace Stream

open Gzip

variable {q b : ByteArray}

/-- A gzip stream and a beginning of it: the beginning is the same stream when it is sound; else it
gives a part of the data and a fault. Only of data that are damaged the stream may give less. -/
theorem ofGzip_of_begins (hq : Begins q b) :
    ofGzip b = ofGzip q ∨
      (ofGzip q).intact = false ∧ (Begins (ofGzip q).data (ofGzip b).data ∨
        (ofGzip b).intact = false ∧ Begins (ofGzip b).data (ofGzip q).data) := by
  unfold ofGzip
  cases hstart : bodyStart q with
  | none => exact .inr ⟨rfl, .inl (.empty _)⟩
  | some start =>
    have hinflate := inflate_window (At.of_begins hq) start
    rw [Nat.zero_add] at hinflate
    simp only [bodyStart_of_begins hq hstart]
    generalize inflate q start = r at hinflate
    generalize inflate b start = r' at hinflate
    obtain ⟨data, ending⟩ := r
    obtain ⟨data', ending'⟩ := r'
    rcases hinflate with heq | ⟨rfl, hdata⟩
    · obtain ⟨rfl, rfl⟩ := Prod.mk.inj heq
      cases ending with
      | truncated => exact .inl rfl
      | corrupt => exact .inl rfl
      | finished i =>
        simp only [Inflate.Ending.shift, Nat.zero_add]
        cases htrailer : hasTrailer q i data' with
        | true =>
          rw [hasTrailer_of_begins hq htrailer]
          exact .inl rfl
        | false => exact .inr ⟨rfl, .inl (.refl _)⟩
    · refine .inr ⟨rfl, ?_⟩
      simp only at hdata
      cases ending' with
      | truncated => exact .inl hdata
      | finished i => exact .inl hdata
      | corrupt =>
        -- the last byte before the damage is not given, and the beginning may have it
        have hcut := Begins.extract data' (data'.size - 1)
        rcases Nat.le_total data.size (data'.extract 0 (data'.size - 1)).size with hle | hle
        · exact .inl (hdata.of_size_le hcut hle)
        · exact .inr ⟨rfl, hcut.of_size_le hdata hle⟩

/-- What follows a sound gzip stream does not count. -/
theorem ofGzip_append {g : ByteArray} (hg : (ofGzip g).intact = true) (r : ByteArray) :
    ofGzip (g ++ r) = ofGzip g := by
  rcases ofGzip_of_begins (Begins.append g r) with heq | ⟨hcut, -⟩
  · exact heq
  · rw [hg] at hcut
    cases hcut

end Stream

/-! ### Stored data -/

namespace Inflate

/-- A block of at most 65535 stored bytes; the first byte says whether it is the last block. -/
def storedBlock (last : UInt8) (data : ByteArray) : ByteArray :=
  Bytes.single last ++ (Bytes.little 2 data.size ++ (Bytes.little 2 (65535 - data.size) ++ data))

/-- Deflated data that hold some bytes as they are. -/
def store (data : ByteArray) : ByteArray :=
  if data.size ≤ 65535 then storedBlock 1 data
  else storedBlock 0 (data.extract 0 65535) ++ store (data.extract 65535 data.size)
termination_by data.size
decreasing_by
  rw [ByteArray.size_extract]
  omega

variable {b data : ByteArray} {k : Nat}

@[simp] theorem size_storedBlock (last : UInt8) (data : ByteArray) :
    (storedBlock last data).size = 5 + data.size := by
  simp only [storedBlock, ByteArray.size_append, Bytes.size_single, Bytes.size_little]
  omega

theorem read?_storedBlock {last : UInt8} (h : At b k (storedBlock last data)) (hlast : last < 2) :
    Bits.read? b (8 * k) 1 = some last.toNat ∧ Bits.read? b (8 * k + 1) 2 = some 0 := by
  have hfirst := h.left
  have hcases : last = 0 ∨ last = 1 := by
    have := UInt8.lt_iff_toNat_lt.mp hlast
    simp only [UInt8.reduceToNat] at this
    rcases Nat.lt_or_ge last.toNat 1 with hlt | hge
    · exact .inl (UInt8.toNat_inj.mp (by simp only [UInt8.reduceToNat]; omega))
    · exact .inr (UInt8.toNat_inj.mp (by simp only [UInt8.reduceToNat]; omega))
  have htwo : Bits.read? (Bytes.single last) 1 2 = some 0 := by
    rcases hcases with rfl | rfl <;> decide
  refine ⟨?_, Bits.read?_window hfirst htwo⟩
  have hone : Bits.read? (Bytes.single last) 0 1 = some last.toNat := by
    rcases hcases with rfl | rfl <;> decide
  exact Bits.read?_window hfirst hone

theorem stored_storedBlock {last : UInt8} (h : At b k (storedBlock last data))
    (hsize : data.size ≤ 65535) (out : ByteArray) :
    stored b (8 * k + 3) out = .next (8 * (k + (storedBlock last data).size)) (out ++ data) := by
  have hfits := h.fits
  rw [size_storedBlock] at hfits ⊢
  have hlength := h.right.left
  have hcheck := h.right.right.left
  have hdata := h.right.right.right
  simp only [Bytes.size_single, Bytes.size_little] at hlength hcheck hdata
  have hstart : (8 * k + 3 + 7) / 8 = k + 1 := by omega
  have hn := hlength.little (by omega : data.size < 256 ^ 2)
  have hn' := hcheck.little (by omega : 65535 - data.size < 256 ^ 2)
  have hbytes := hdata.extract_self
  simp only [stored, hstart, hn, hn']
  rw [if_neg (by omega), hbytes, if_neg (by simp; omega), if_neg (Nat.lt_irrefl _)]
  congr 1
  omega

/-- After a stored block that is not the last one the next block is read. -/
theorem blocks_storedBlock (h : At b k (storedBlock 0 data)) (hsize : data.size ≤ 65535)
    (fuel : Nat) (out : ByteArray) :
    blocks b (fuel + 1) (8 * k) out =
      blocks b fuel (8 * (k + (storedBlock 0 data).size)) (out ++ data) := by
  obtain ⟨hlast, htype⟩ := read?_storedBlock h (by decide)
  rw [blocks_succ, hlast, htype]
  simp only [block, stored_storedBlock h hsize]
  exact if_neg (by decide)

/-- Stored data are read back wherever they stand. -/
theorem blocks_store {fuel : Nat} (h : At b k (store data)) (hfuel : data.size < fuel)
    (out : ByteArray) :
    blocks b fuel (8 * k) out = (out ++ data, .finished (k + (store data).size)) := by
  fun_induction store data generalizing k fuel out with
  | case1 data hsmall =>
    obtain ⟨fuel, rfl⟩ : ∃ n, fuel = n + 1 := ⟨fuel - 1, by omega⟩
    obtain ⟨hlast, htype⟩ := read?_storedBlock h (by decide)
    have hend : (8 * (k + (storedBlock 1 data).size) + 7) / 8 = k + (storedBlock 1 data).size := by
      omega
    rw [blocks_succ, hlast, htype]
    simp only [block, stored_storedBlock h hsmall]
    rw [if_pos (by decide), hend]
  | case2 data hlarge ih =>
    obtain ⟨fuel, rfl⟩ : ∃ n, fuel = n + 1 := ⟨fuel - 1, by omega⟩
    have hfirst : (data.extract 0 65535).size ≤ 65535 := by
      rw [ByteArray.size_extract]
      omega
    have hrest : (data.extract 65535 data.size).size < fuel := by
      rw [ByteArray.size_extract]
      omega
    have hdata : data.extract 0 65535 ++ data.extract 65535 data.size = data := by
      rw [ByteArray.extract_append_extract, Nat.zero_min, ByteArray.extract_zero_max_size]
    -- a block that is not the last one ends at a byte, where the rest is stored again
    rw [blocks_storedBlock h.left hfirst, ih h.right hrest, ByteArray.append_assoc, hdata,
      ByteArray.size_append, Nat.add_assoc]

theorem size_le_store (data : ByteArray) : data.size ≤ (store data).size := by
  fun_induction store data with
  | case1 data _ => rw [size_storedBlock]; omega
  | case2 data _ ih =>
    rw [ByteArray.size_append, size_storedBlock]
    simp only [ByteArray.size_extract] at ih ⊢
    omega

end Inflate

open Inflate in
theorem inflate_store {b data : ByteArray} {k : Nat} (h : At b k (store data)) :
    inflate b k = (data, .finished (k + (store data).size)) := by
  have hfits := h.fits
  have hsize := size_le_store data
  rw [inflate, blocks_store h (by omega), ByteArray.empty_append]

namespace Gzip

/-- The header of a gzip stream without a name. -/
def header : ByteArray := ⟨#[0x1f, 0x8b, 8, 0, 0, 0, 0, 0, 0, 255]⟩

/-- The checksum and the length at the end of a gzip stream. -/
def trailer (data : ByteArray) : ByteArray :=
  Bytes.little 4 (crc32 data).toNat ++ Bytes.little 4 (data.size % 0x100000000)

/-- A gzip stream that holds some bytes. -/
def pack (data : ByteArray) : ByteArray := header ++ (Inflate.store data ++ trailer data)

theorem hasTrailer_of_at {b data : ByteArray} {i : Nat} (h : At b i (trailer data)) :
    hasTrailer b i data = true := by
  have hfits := h.fits
  simp only [trailer, ByteArray.size_append, Bytes.size_little] at hfits
  have hcrc := h.left.little (crc32 data).toNat_lt
  have hlength := h.right.little (Nat.mod_lt _ (by decide))
  rw [Bytes.size_little] at hlength
  simp only [hasTrailer, hcrc, hlength, beq_self_eq_true, Bool.and_true, decide_eq_true_iff]
  exact hfits

/-- Every string can be compressed, and reading gives it back. -/
theorem ofGzip_pack (data : ByteArray) : Stream.ofGzip (pack data) = ⟨data, true⟩ := by
  have hat := At.self (pack data)
  have hstart : bodyStart (pack data) = some 10 :=
    bodyStart_of_begins (.append header _) (by decide +kernel)
  have hbody := inflate_store hat.right.left
  have htrailer := hasTrailer_of_at hat.right.right
  have hten : 0 + header.size = 10 := rfl
  rw [hten] at hbody htrailer
  rw [Stream.ofGzip, hstart]
  simp only [hbody, htrailer]

end Gzip

end StoryPack
