/-
Whole doubles.

A finite double denotes a rational number, and the integer of a double is the
integer that it denotes.  A double has 53 binary digits, so that an integer which a
double denotes has no more of them, and the double nearest to it is that double.

* `Double.toRat?` — the rational number that a double denotes;
* `integerOf?_eq_some_iff` — the integer of a double is the integer it denotes;
* `floatOfInt_beq` — the double of the integer that a double denotes is the double.
-/
import StoryPack.Proofs.Number.Comparison

namespace StoryPack

open Float.Model (UnpackedFloat Format)

namespace Dyadic

/-- The rational number that a dyadic number is. -/
def toRat (d : Dyadic) : ℚ :=
  (if d.negative then -1 else 1) * d.significand * (2 : ℚ) ^ d.exponent

theorem toRat_eq_div (d : Dyadic) :
    d.toRat = (d.signedFraction.1 : ℚ) / (d.signedFraction.2 : ℚ) := by
  obtain ⟨negative, m, e⟩ := d
  rcases lt_or_ge e 0 with hneg | hnonneg
  · obtain ⟨k, rfl⟩ : ∃ k : Nat, e = -(k : Int) := ⟨(-e).toNat, by omega⟩
    have hshift : (-(-(k : Int))).toNat = k := by omega
    have hfraction : fraction ⟨negative, m, -(k : Int)⟩ = (m, 2 ^ k) := by
      rw [fraction, if_neg (show ¬ 0 ≤ -(k : Int) by omega), hshift]
      rfl
    simp only [toRat, signedFraction, hfraction, zpow_neg, zpow_natCast]
    cases negative <;> push_cast <;> simp [div_eq_mul_inv]
  · obtain ⟨k, rfl⟩ := Int.eq_ofNat_of_zero_le hnonneg
    have hfraction : fraction ⟨negative, m, (k : Int)⟩ = (m * 2 ^ k, 1) := by
      rw [fraction, if_pos hnonneg]
      rfl
    simp only [toRat, signedFraction, hfraction, zpow_natCast]
    cases negative <;> push_cast <;> simp

theorem signedFraction_pos (d : Dyadic) : 0 < d.signedFraction.2 := by
  show 0 < d.fraction.2
  unfold fraction
  split
  · exact Nat.one_pos
  · exact Nat.two_pow_pos _

/-- The integer of a dyadic number is the integer that it is. -/
theorem toInt?_eq_some_iff {d : Dyadic} {i : Int} : d.toInt? = some i ↔ d.toRat = i := by
  have hpos := d.signedFraction_pos
  rw [toRat_eq_div, toInt?]
  generalize d.signedFraction = f at hpos ⊢
  obtain ⟨num, den⟩ := f
  have hne : (den : ℚ) ≠ 0 := Nat.cast_ne_zero.mpr (Nat.ne_of_gt hpos)
  have hden : (den : Int) ≠ 0 := by omega
  rw [div_eq_iff hne]
  show (if (num % (den : Int) == 0) = true then some (num / (den : Int)) else none) = some i ↔ _
  have hcast : (num : ℚ) = i * (den : ℚ) ↔ num = i * (den : Int) := by exact_mod_cast Iff.rfl
  rw [hcast]
  constructor
  · intro h
    split at h
    case isTrue hmod =>
      injection h with h
      rw [← h, Int.ediv_mul_cancel (Int.dvd_of_emod_eq_zero (beq_iff_eq.mp hmod))]
    case isFalse => cases h
  · rintro rfl
    rw [Int.mul_emod_left, Int.mul_ediv_cancel _ hden]
    rfl

end Dyadic

namespace Double

/-- The rational number that a double denotes; infinities and what is no number denote none. -/
def toRat? (x : Float) : Option ℚ :=
  match Double.of x with
  | .finite d => some d.toRat
  | _ => none

end Double

/-- The integer of a double is the integer that it denotes. -/
theorem integerOf?_eq_some_iff {x : Float} {i : Int} :
    integerOf? x = some i ↔ Double.toRat? x = some (i : ℚ) := by
  unfold integerOf? Double.toRat?
  cases Double.of x with
  | finite d =>
    rw [Option.some_inj]
    exact Dyadic.toInt?_eq_some_iff
  | _ => exact iff_of_false nofun nofun

/-! ### The double of a whole double -/

namespace Double

/-- The sign of a double, from its sign bit. -/
def signOfBit (negative : Bool) : UnpackedFloat.Sign := if negative then .negative else .positive

/-- The fields of a finite double: it is small and has the least exponent, or its first digit
is one. -/
theorem of_eq_finite {x : Float} {d : Dyadic} (h : Double.of x = .finite d) :
    (d.significand < 2 ^ 52 ∧ d.exponent = -1074 ∧
        x.toBits.toNat = signBit (signOfBit d.negative) * 2 ^ 63 + d.significand) ∨
      ∃ e m : Nat, 0 < e ∧ e < 2047 ∧ m < 2 ^ 52 ∧ d.significand = 2 ^ 52 + m ∧
        d.exponent = (e : Int) - 1075 ∧
        x.toBits.toNat = signBit (signOfBit d.negative) * 2 ^ 63 + e * 2 ^ 52 + m := by
  have hlt : x.toBits.toNat < 2 ^ 64 := x.toBits.toNat_lt
  have hsign : x.toBits.toNat / 0x8000000000000000 =
      signBit (signOfBit (x.toBits.toNat / 0x8000000000000000 == 1)) := by
    have hle : x.toBits.toNat / 0x8000000000000000 < 2 := by omega
    interval_cases x.toBits.toNat / 0x8000000000000000 <;> rfl
  unfold Double.of Double.ofBits at h
  simp only [] at h
  generalize x.toBits.toNat = n at h hlt hsign ⊢
  have he : n / 0x10000000000000 % 2048 < 2048 := Nat.mod_lt _ (by decide)
  have hm : n % 0x10000000000000 < 0x10000000000000 := Nat.mod_lt _ (by decide)
  split at h
  · -- an exponent of ones alone is that of an infinity or of no number
    split at h <;> cases h
  · rename_i htop
    rw [beq_iff_eq] at htop
    split at h
    case isTrue hzero =>
      rw [beq_iff_eq] at hzero
      injection h with h
      subst h
      refine .inl ⟨hm, rfl, ?_⟩
      show n = signBit (signOfBit (n / 0x8000000000000000 == 1)) * 2 ^ 63 + n % 0x10000000000000
      rw [← hsign]
      omega
    case isFalse hzero =>
      rw [beq_iff_eq] at hzero
      injection h with h
      subst h
      refine .inr ⟨n / 0x10000000000000 % 2048, n % 0x10000000000000, by omega, by omega, hm,
        Nat.add_comm _ _, rfl, ?_⟩
      show n = signBit (signOfBit (n / 0x8000000000000000 == 1)) * 2 ^ 63 +
        n / 0x10000000000000 % 2048 * 2 ^ 52 + n % 0x10000000000000
      rw [← hsign]
      omega

/-- The number of a double whose exponent is not extreme. -/
theorem number?_of_toBits {x : Float} {s : UnpackedFloat.Sign} {e m : Nat} (he : 0 < e)
    (he' : e < 2047) (hm : m < 2 ^ 52)
    (hbits : x.toBits.toNat = signBit s * 2 ^ 63 + e * 2 ^ 52 + m) :
    number? x = some (.finite s (2 ^ 52 + m) ((e : Int) - 1075) (by omega)) := by
  have hunpack : x.toModel.unpack = UnpackedFloat.unpack .binary64 x.toBits.toBitVec := rfl
  rw [number?, hunpack, toBitVec_of_fields (by omega) hm hbits, unpack_packComponents s he he' hm]
  rfl

/-- The number of a zero. -/
theorem number?_of_toBits_zero {x : Float} {s : UnpackedFloat.Sign}
    (hbits : x.toBits.toNat = signBit s * 2 ^ 63) : number? x = some (.zero .positive) := by
  have hunpack : x.toModel.unpack = UnpackedFloat.unpack .binary64 x.toBits.toBitVec := rfl
  have hfields : x.toBits.toNat = signBit s * 2 ^ 63 + 0 * 2 ^ 52 + 0 := by
    rw [hbits, Nat.zero_mul, Nat.add_zero]
  rw [number?, hunpack, toBitVec_of_fields (Nat.two_pow_pos _) (Nat.two_pow_pos _) hfields]
  cases s <;> rfl

end Double

namespace Dyadic

theorem natAbs_of_toRat {d : Dyadic} {i : Int} (h : d.toRat = i) :
    (i.natAbs : ℚ) = d.significand * (2 : ℚ) ^ d.exponent := by
  have hsign : |(if d.negative then -1 else 1 : ℚ)| = 1 := by split <;> simp
  have hpower : (0 : ℚ) < 2 ^ d.exponent := zpow_pos two_pos _
  rw [Nat.cast_natAbs, Int.cast_abs, ← h, toRat, abs_mul, abs_mul, hsign, one_mul,
    abs_of_pos hpower, abs_of_nonneg (Nat.cast_nonneg _)]

theorem signOf_of_toRat {d : Dyadic} {i : Int} (h : d.toRat = i) (hi : i ≠ 0) :
    signOf i = Double.signOfBit d.negative := by
  have habs := natAbs_of_toRat h
  have hne : (i.natAbs : ℚ) ≠ 0 := Nat.cast_ne_zero.mpr (Int.natAbs_ne_zero.mpr hi)
  have hpos : (0 : ℚ) < i.natAbs := lt_of_le_of_ne (Nat.cast_nonneg _) hne.symm
  rw [toRat, mul_assoc, ← habs] at h
  unfold signOf Double.signOfBit
  cases hnegative : d.negative with
  | true =>
    rw [hnegative] at h
    have hlt : (i : ℚ) < 0 := by
      rw [← h]
      simpa using hpos
    rw [if_pos (by exact_mod_cast hlt)]
    rfl
  | false =>
    rw [hnegative] at h
    have hgt : (0 : ℚ) < i := by
      rw [← h]
      simpa using hpos
    have hgt : 0 < i := by exact_mod_cast hgt
    rw [if_neg (by omega)]
    rfl

/-- Below the least exponent zero is the only integer. -/
theorem eq_zero_of_toRat {d : Dyadic} {i : Int} (hsmall : d.significand < 2 ^ 52)
    (hexponent : d.exponent = -1074) (h : d.toRat = i) : i = 0 ∧ d.significand = 0 := by
  have habs := natAbs_of_toRat h
  rw [hexponent] at habs
  have hlt : (i.natAbs : ℚ) < 1 :=
    calc (i.natAbs : ℚ) = d.significand * 2 ^ (-1074 : Int) := habs
      _ ≤ 2 ^ 52 * 2 ^ (-1074 : Int) := by
        refine mul_le_mul_of_nonneg_right ?_ (zpow_pos two_pos _).le
        exact_mod_cast hsmall.le
      _ = 2 ^ (-1022 : Int) := by
        rw [← zpow_natCast, ← zpow_add₀ two_ne_zero]
        rfl
      _ < 1 := zpow_lt_one_of_neg₀ one_lt_two (by decide)
  have hzero : i.natAbs = 0 := by
    have hlt : i.natAbs < 1 := by exact_mod_cast hlt
    omega
  refine ⟨Int.natAbs_eq_zero.mp hzero, ?_⟩
  rw [hzero, Nat.cast_zero, zero_eq_mul] at habs
  exact_mod_cast habs.resolve_right (zpow_pos two_pos _).ne'

/-- An integer that a double denotes has the digits of the double. -/
theorem spells_of_toRat {d : Dyadic} {e m : Nat} {i : Int} (he' : e < 2047) (hm : m < 2 ^ 52)
    (hsignificand : d.significand = 2 ^ 52 + m) (hexponent : d.exponent = (e : Int) - 1075)
    (h : d.toRat = i) : 1023 ≤ e ∧ Spells i.natAbs (e - 1023) m := by
  have habs : (i.natAbs : ℚ) = (2 ^ 52 + m) * (2 : ℚ) ^ ((e : Int) - 1075) := by
    rw [natAbs_of_toRat h, hsignificand, hexponent]
    push_cast
    rfl
  have hpos : (0 : ℚ) < i.natAbs := by
    rw [habs]
    exact mul_pos (by positivity) (zpow_pos two_pos _)
  have hone : (1 : ℚ) ≤ i.natAbs := by exact_mod_cast hpos
  -- with a smaller exponent the value would lie between zero and one
  have he : 1023 ≤ e := by
    by_contra hlow
    have hdigits : (2 ^ 52 + m : ℚ) < 2 ^ 53 := by exact_mod_cast (by omega : 2 ^ 52 + m < 2 ^ 53)
    have hpower : (2 : ℚ) ^ ((e : Int) - 1075) ≤ 2 ^ (-53 : Int) :=
      zpow_le_zpow_right₀ one_le_two (by omega)
    have hsmall : (i.natAbs : ℚ) < 1 :=
      calc (i.natAbs : ℚ) = (2 ^ 52 + m) * 2 ^ ((e : Int) - 1075) := habs
        _ < 2 ^ 53 * 2 ^ ((e : Int) - 1075) := mul_lt_mul_of_pos_right hdigits (zpow_pos two_pos _)
        _ ≤ 2 ^ 53 * 2 ^ (-53 : Int) := mul_le_mul_of_nonneg_left hpower (by positivity)
        _ = 1 := by norm_num
    exact absurd hone (not_le.mpr hsmall)
  refine ⟨he, ⟨by omega, hm, ?_⟩⟩
  -- so the power that is left is one of a natural
  have hsplit : (e : Int) - 1075 = ((e - 1023 : Nat) : Int) - (52 : Nat) := by omega
  have hvalue : (i.natAbs : ℚ) * 2 ^ 52 = (2 ^ 52 + m) * 2 ^ (e - 1023) := by
    rw [habs, hsplit, zpow_sub₀ two_ne_zero, zpow_natCast, zpow_natCast, mul_assoc,
      div_mul_cancel₀ _ (by positivity)]
  exact_mod_cast hvalue

end Dyadic

theorem exists_finite_of_integerOf? {x : Float} {i : Int} (h : integerOf? x = some i) :
    ∃ d, Double.of x = .finite d ∧ d.toRat = i := by
  unfold integerOf? at h
  cases hx : Double.of x with
  | finite d =>
    rw [hx] at h
    exact ⟨d, rfl, Dyadic.toInt?_eq_some_iff.mp h⟩
  | _ =>
    rw [hx] at h
    cases h

/-- An integer that a double denotes has digits. -/
theorem exists_spells_of_integerOf? {x : Float} {i : Int} (h : integerOf? x = some i)
    (hi : i ≠ 0) : ∃ k m, Dyadic.Spells i.natAbs k m := by
  obtain ⟨d, hx, hvalue⟩ := exists_finite_of_integerOf? h
  rcases Double.of_eq_finite hx with ⟨hsmall, hexponent, -⟩ |
    ⟨e, m, -, he', hm, hsignificand, hexponent, -⟩
  · exact absurd (Dyadic.eq_zero_of_toRat hsmall hexponent hvalue).1 hi
  · exact ⟨_, m, (Dyadic.spells_of_toRat he' hm hsignificand hexponent hvalue).2⟩

/-- The double nearest to the integer that a double denotes is equal to it. -/
theorem floatOfInt_beq {x : Float} {i : Int} (h : integerOf? x = some i) :
    (floatOfInt i == x) = true := by
  obtain ⟨d, hx, hvalue⟩ := exists_finite_of_integerOf? h
  suffices hnumber : Double.number? (floatOfInt i) = Double.number? x ∧ (Double.number? x).isSome
      from Double.beq_iff.mpr ⟨hnumber.1, by rw [hnumber.1]; exact hnumber.2⟩
  rcases Double.of_eq_finite hx with ⟨hsmall, hexponent, hbits⟩ |
    ⟨e, m, he, he', hm, hsignificand, hexponent, hbits⟩
  · obtain ⟨rfl, hzero⟩ := Dyadic.eq_zero_of_toRat hsmall hexponent hvalue
    rw [hzero, Nat.add_zero] at hbits
    rw [Double.number?_of_toBits_zero hbits]
    exact ⟨rfl, rfl⟩
  · obtain ⟨hle, hspells⟩ := Dyadic.spells_of_toRat he' hm hsignificand hexponent hvalue
    have hlog : Nat.log2 i.natAbs = e - 1023 := hspells.log2_eq
    have hi : i ≠ 0 := Int.natAbs_ne_zero.mp hspells.ne_zero
    have hexponents : ((1023 + Nat.log2 i.natAbs : Nat) : Int) - 1075 = (e : Int) - 1075 := by omega
    rw [number?_floatOfInt hi (hlog ▸ hspells), Double.number?_of_toBits he he' hm hbits,
      Dyadic.signOf_of_toRat hvalue hi]
    refine ⟨?_, rfl⟩
    simp only [hexponents]

/-- A whole double is equal to the double of no other integer that has digits. -/
theorem eq_of_floatOfInt_beq {x : Float} {i j : Int} (h : integerOf? x = some i)
    (hj : j ≠ 0 → ∃ k m, Dyadic.Spells j.natAbs k m) (hbeq : (floatOfInt j == x) = true) :
    j = i :=
  floatOfInt_inj_of_spells hj (exists_spells_of_integerOf? h)
    ((Double.number?_of_beq hbeq).trans (Double.number?_of_beq (floatOfInt_beq h)).symm)

end StoryPack
