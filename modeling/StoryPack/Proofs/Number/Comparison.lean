/-
When doubles are equal.

Two doubles are equal when they stand for the same number, and the two zeros do.
An integer of at most 53 bits has a double of its own, so that different integers
are told apart by their doubles; the next integer shares its double with a smaller
one.

* `Double.number?` — the number that a double stands for;
* `Double.beq_iff` — doubles are equal when they stand for the same number;
* `floatOfInt_inj_of_spells` — integers with at most 53 digits are told apart by
  their doubles, whatever their size;
* `floatOfInt_inj` — so integers up to `2 ^ 53` are.
-/
import Mathlib
import StoryPack.Number.Integral

namespace StoryPack

open Float.Model (UnpackedFloat Format)

namespace Double

/-- The number that a double stands for; both zeros stand for the same one. -/
def numberOf? : UnpackedFloat → Option UnpackedFloat
  | .notANumber => none
  | .zero _ => some (.zero .positive)
  | u => some u

def number? (x : Float) : Option UnpackedFloat := numberOf? x.toModel.unpack

theorem compare_eq_iff {a b : UnpackedFloat} :
    a.compare b = some .eq ↔ numberOf? a = numberOf? b ∧ (numberOf? a).isSome := by
  cases a with
  | notANumber => cases b <;> simp [UnpackedFloat.compare, numberOf?]
  | zero s =>
    cases b with
    | finite s' => cases s' <;> simp [UnpackedFloat.compare, numberOf?]
    | infinity s' => cases s' <;> simp [UnpackedFloat.compare, numberOf?]
    | _ => simp [UnpackedFloat.compare, numberOf?]
  | infinity s =>
    cases s <;> cases b with
    | infinity s' => cases s' <;> simp [UnpackedFloat.compare, numberOf?, compare]
    | _ => simp [UnpackedFloat.compare, numberOf?]
  | finite s m e h =>
    cases s <;> cases b with
    | finite s' m' e' h' =>
      cases s' <;> simp [UnpackedFloat.compare, numberOf?, Ordering.then_eq_eq, and_comm]
    | infinity s' => cases s' <;> simp [UnpackedFloat.compare, numberOf?]
    | _ => simp [UnpackedFloat.compare, numberOf?]

/-- Doubles are equal when they stand for the same number. -/
theorem beq_iff {x y : Float} : (x == y) = true ↔ number? x = number? y ∧ (number? x).isSome := by
  have hbeq : (x == y) = (x.toModel.unpack.compare y.toModel.unpack == some .eq) := rfl
  rw [hbeq, beq_iff_eq]
  exact compare_eq_iff

theorem number?_of_beq {x y : Float} (h : (x == y) = true) : number? x = number? y :=
  (beq_iff.mp h).1

theorem beq_comm (x y : Float) : (x == y) = (y == x) := by
  rw [Bool.eq_iff_iff, beq_iff, beq_iff]
  constructor <;> rintro ⟨hsame, hsome⟩ <;> exact ⟨hsame.symm, hsame ▸ hsome⟩

theorem isSome_number? (x : Float) : (number? x).isSome = !x.isNaN := by
  have hnan : x.isNaN = x.toModel.unpack.isNaN := rfl
  rw [hnan, number?]
  cases x.toModel.unpack <;> rfl

theorem beq_self {x : Float} (h : x.isNaN = false) : (x == x) = true := by
  rw [beq_iff, isSome_number?, h]
  exact ⟨rfl, rfl⟩

theorem beq_trans {x y z : Float} (hxy : (x == y) = true) (hyz : (y == z) = true) :
    (x == z) = true := by
  rw [beq_iff] at hxy hyz ⊢
  exact ⟨hxy.1.trans hyz.1, hxy.2⟩

/-! ### Bits -/

open Float.Model.UnpackedFloat

/-- The bit of a sign. -/
def signBit : Sign → Nat
  | .negative => 1
  | .positive => 0

theorem toNat_packComponents (s : Sign) (e : BitVec 11) (m : BitVec 52) :
    (packComponents .binary64 s e m).toNat = signBit s * 2 ^ 63 + e.toNat * 2 ^ 52 + m.toNat := by
  have hs : s.toBitVec.toNat = signBit s := by cases s <;> rfl
  unfold packComponents
  rw [BitVec.toNat_append, BitVec.toNat_append, hs, ← Nat.shiftLeft_add_eq_or_of_lt e.isLt,
    ← Nat.shiftLeft_add_eq_or_of_lt m.isLt, Nat.shiftLeft_eq, Nat.shiftLeft_eq]
  omega

theorem toBitVec_of_fields {bits : UInt64} {s : Sign} {e m : Nat} (he : e < 2 ^ 11)
    (hm : m < 2 ^ 52) (hbits : bits.toNat = signBit s * 2 ^ 63 + e * 2 ^ 52 + m) :
    bits.toBitVec = packComponents .binary64 s (BitVec.ofNat 11 e) (BitVec.ofNat 52 m) := by
  refine BitVec.eq_of_toNat_eq ?_
  rw [toNat_packComponents, BitVec.toNat_ofNat, BitVec.toNat_ofNat, Nat.mod_eq_of_lt he,
    Nat.mod_eq_of_lt hm]
  exact hbits

theorem sign_packComponents (s : Sign) (e : BitVec 11) (m : BitVec 52) :
    Sign.ofBitVec (unpackSign (packComponents .binary64 s e m)) = s := by
  unfold unpackSign packComponents BitVec.extractLsb
  rw [BitVec.extractLsb'_append_eq_of_le (by decide),
    BitVec.extractLsb'_append_eq_of_le (by decide)]
  cases s <;> rfl

/-- The bits of a double whose exponent is not extreme. -/
theorem unpack_packComponents (s : Sign) {e m : Nat} (he : 0 < e) (he' : e < 2047)
    (hm : m < 2 ^ 52) :
    UnpackedFloat.unpack .binary64
      (packComponents .binary64 s (BitVec.ofNat 11 e) (BitVec.ofNat 52 m)) =
      .finite s (2 ^ 52 + m) ((e : Int) - 1075) (by omega) := by
  have hexponent : (BitVec.ofNat 11 e).toNat = e := by
    rw [BitVec.toNat_ofNat, Nat.mod_eq_of_lt (by omega)]
  have hmantissa : (1#1 ++ BitVec.ofNat 52 m).toNat = 2 ^ 52 + m := by
    rw [BitVec.toNat_append, ← Nat.shiftLeft_add_eq_or_of_lt (BitVec.isLt _), Nat.shiftLeft_eq,
      BitVec.toNat_ofNat, BitVec.toNat_ofNat]
    omega
  have hne (k : BitVec 11) (hk : k.toNat ≠ e) : BitVec.ofNat 11 e ≠ k := fun heq => by
    rw [← heq, hexponent] at hk
    exact hk rfl
  rw [UnpackedFloat.unpack]
  simp only [unpackMantissa_packComponents, unpackExponent_packComponents, sign_packComponents,
    hexponent, hmantissa]
  rw [if_neg (hne (-1#11) (show 2047 ≠ e by omega)), if_neg (hne 0#11 (show 0 ≠ e by omega))]
  rfl

theorem pack_finite (s : Sign) {e m : Nat} (he' : e < 2047) (hm : m < 2 ^ 52) (h : 0 < 2 ^ 52 + m) :
    UnpackedFloat.pack .binary64 (.finite s (2 ^ 52 + m) ((e : Int) - 1075) h) =
      packComponents .binary64 s (BitVec.ofNat 11 e) (BitVec.ofNat 52 m) := by
  have hlog : (2 ^ 52 + m).log2 = 52 := by
    have hne : 2 ^ 52 + m ≠ 0 := by omega
    refine Nat.le_antisymm ?_ ((Nat.le_log2 hne).mpr (Nat.le_add_right _ _))
    exact Nat.lt_succ_iff.mp ((Nat.log2_lt hne).mpr (by omega))
  have hexponent : ((e : Int) - 1075 + (Format.binary64.exponentBias : Nat) +
      (Format.binary64.mantissaBitsWithoutImplicit : Nat)).toNat = e := by
    show ((e : Int) - 1075 + (1023 : Nat) + (52 : Nat)).toNat = e
    omega
  have hmantissa : BitVec.ofNat 52 (2 ^ 52 + m) = BitVec.ofNat 52 m := by
    refine BitVec.eq_of_toNat_eq ?_
    rw [BitVec.toNat_ofNat, BitVec.toNat_ofNat, Nat.add_mod_left]
  rw [UnpackedFloat.pack]
  simp only [hlog, hexponent]
  rw [if_neg (show ¬ 2 ^ 11 ≤ e + 1 by omega), if_pos (by rfl)]
  exact congrArg _ hmantissa

/-- A double whose exponent is not extreme, made from its bits. -/
theorem number?_ofBits {bits : UInt64} {s : Sign} {e m : Nat} (he : 0 < e) (he' : e < 2047)
    (hm : m < 2 ^ 52) (hbits : bits.toNat = signBit s * 2 ^ 63 + e * 2 ^ 52 + m) :
    number? (Float.ofBits bits) = some (.finite s (2 ^ 52 + m) ((e : Int) - 1075) (by omega)) := by
  have hpack : (Float.ofBits bits).toModel.unpack =
      UnpackedFloat.unpack .binary64 (UnpackedFloat.pack .binary64
        (UnpackedFloat.unpack .binary64 bits.toBitVec)) := rfl
  rw [number?, hpack, toBitVec_of_fields (by omega) hm hbits, unpack_packComponents s he he' hm,
    pack_finite s he' hm, unpack_packComponents s he he' hm]
  rfl

end Double

/-! ### Integers -/

theorem roundHalfEven_mul (q : Nat) {den : Nat} (hden : 0 < den) :
    roundHalfEven (q * den) den = q := by
  unfold roundHalfEven
  rw [Nat.mul_div_cancel q hden, Nat.mul_mod_left, if_pos (by omega)]

namespace Dyadic

/-- A natural that is not above every double is written with 53 binary digits, the first of which is
one. -/
structure Spells (n k m : Nat) : Prop where
  exponent : k ≤ 1023
  fits : m < 2 ^ 52
  value : n * 2 ^ 52 = (2 ^ 52 + m) * 2 ^ k

theorem Spells.inj {n n' k m : Nat} (h : Spells n k m) (h' : Spells n' k m) : n = n' :=
  Nat.eq_of_mul_eq_mul_right (by decide) (h.value.trans h'.value.symm)

theorem Spells.le {n k m : Nat} (h : Spells n k m) : 2 ^ k ≤ n := by
  refine Nat.le_of_mul_le_mul_right ?_ (Nat.two_pow_pos 52)
  rw [h.value, Nat.mul_comm (2 ^ k)]
  exact Nat.mul_le_mul_right _ (Nat.le_add_right _ _)

theorem Spells.ne_zero {n k m : Nat} (h : Spells n k m) : n ≠ 0 :=
  Nat.ne_of_gt (Nat.lt_of_lt_of_le (Nat.two_pow_pos _) h.le)

/-- The first digit stands where the exponent says. -/
theorem Spells.log2_eq {n k m : Nat} (h : Spells n k m) : Nat.log2 n = k := by
  have hfits := h.fits
  have hhigh : n < 2 ^ (k + 1) := by
    refine Nat.lt_of_mul_lt_mul_right (a := 2 ^ 52) ?_
    calc n * 2 ^ 52 = (2 ^ 52 + m) * 2 ^ k := h.value
      _ < (2 * 2 ^ 52) * 2 ^ k := Nat.mul_lt_mul_of_pos_right (by omega) (Nat.two_pow_pos _)
      _ = 2 ^ (k + 1) * 2 ^ 52 := by ring
  exact Nat.le_antisymm (Nat.lt_succ_iff.mp ((Nat.log2_lt h.ne_zero).mpr hhigh))
    ((Nat.le_log2 h.ne_zero).mpr h.le)

/-- A natural of at most 53 bits has such digits, and so has the next one. -/
theorem exists_spells {n : Nat} (hn : n ≠ 0) (hle : n ≤ 2 ^ 53) :
    ∃ m, Spells n (Nat.log2 n) m := by
  have hlow : 2 ^ Nat.log2 n ≤ n := Nat.log2_self_le hn
  have hhigh : n < 2 ^ (Nat.log2 n + 1) := Nat.lt_log2_self
  rcases Nat.lt_or_ge n (2 ^ 53) with hlt | hge
  · have hk : Nat.log2 n < 53 := (Nat.log2_lt hn).mpr hlt
    generalize Nat.log2 n = k at hlow hhigh hk ⊢
    have hsplit : 2 ^ 52 = 2 ^ (52 - k) * 2 ^ k := by rw [← Nat.pow_add]; congr 1; omega
    have hpos : 0 < 2 ^ (52 - k) := Nat.two_pow_pos _
    have hdigits : 2 ^ 52 ≤ n * 2 ^ (52 - k) ∧ n * 2 ^ (52 - k) < 2 * 2 ^ 52 := by
      rw [hsplit, Nat.mul_comm _ (2 ^ k), ← Nat.mul_assoc, ← Nat.pow_succ']
      exact ⟨Nat.mul_le_mul_right _ hlow, Nat.mul_lt_mul_of_pos_right hhigh hpos⟩
    refine ⟨n * 2 ^ (52 - k) - 2 ^ 52, by omega, by omega, ?_⟩
    rw [Nat.add_sub_cancel' hdigits.1, Nat.mul_assoc, ← hsplit]
  · obtain rfl : n = 2 ^ 53 := Nat.le_antisymm hle hge
    exact ⟨0, by rw [Nat.log2_two_pow]; decide, by decide,
      by rw [Nat.log2_two_pow, Nat.add_zero, Nat.mul_comm]⟩

theorem Spells.digits {n k m : Nat} (h : Spells n k m) :
    (if (0 : Int) ≤ (k : Int) - 52 then roundHalfEven n (1 * Nat.pow 2 ((k : Int) - 52).toNat)
      else roundHalfEven (n * Nat.pow 2 (-((k : Int) - 52)).toNat) 1) = 2 ^ 52 + m := by
  have hvalue := h.value
  rcases Nat.lt_or_ge k 52 with hlt | hge
  · have hshift : (-((k : Int) - 52)).toNat = 52 - k := by omega
    have hdigits : n * 2 ^ (52 - k) = 2 ^ 52 + m := by
      refine Nat.eq_of_mul_eq_mul_right (Nat.two_pow_pos k) ?_
      rw [Nat.mul_assoc, ← Nat.pow_add, Nat.sub_add_cancel (Nat.le_of_lt hlt)]
      exact hvalue
    have hround := roundHalfEven_mul (2 ^ 52 + m) Nat.one_pos
    rw [Nat.mul_one] at hround
    rw [if_neg (by omega), hshift]
    exact (congrArg (roundHalfEven · 1) hdigits).trans hround
  · have hshift : ((k : Int) - 52).toNat = k - 52 := by omega
    have hdigits : n = (2 ^ 52 + m) * 2 ^ (k - 52) := by
      refine Nat.eq_of_mul_eq_mul_right (Nat.two_pow_pos 52) ?_
      rw [Nat.mul_assoc, ← Nat.pow_add, Nat.sub_add_cancel hge]
      exact hvalue
    rw [if_pos (by omega), hshift, Nat.one_mul, hdigits]
    exact roundHalfEven_mul _ (Nat.two_pow_pos _)

/-- The bits of a natural whose digits are exact. -/
theorem bitsOfQuotient_eq {n k m : Nat} (hlog : Nat.log2 n = k) (hn : n ≠ 0) (h : Spells n k m) :
    bitsOfQuotient n 1 0 = UInt64.ofNat ((1023 + k) * 2 ^ 52 + m) := by
  have hlow : 1 * Nat.pow 2 k ≤ n := by
    rw [Nat.one_mul]
    exact hlog ▸ Nat.log2_self_le hn
  have hone : ((Nat.log2 1 : Nat) : Int) = 0 := by decide
  have hlead : (if (if (0 : Int) ≤ k then decide (1 * Nat.pow 2 (k : Int).toNat ≤ n)
      else decide (1 ≤ n * Nat.pow 2 (-(k : Int)).toNat)) = true then (k : Int) else k - 1) =
          k := by
    rw [if_pos (Int.natCast_nonneg k)]
    exact if_pos (decide_eq_true hlow)
  have hulp : max ((k : Int) + 0 - 52) (-1074) = k - 52 := by omega
  have hk := h.exponent
  have hm := h.fits
  have hcarry : ¬ (2 ^ 52 + m == 9007199254740992) = true := by
    rw [beq_iff_eq]
    omega
  have hbits : ((k : Int) - 52 + 1075).toNat * 4503599627370496 +
      (2 ^ 52 + m - 4503599627370496) = (1023 + k) * 2 ^ 52 + m := by omega
  unfold bitsOfQuotient
  simp only [hlog, hone, Int.sub_zero, hlead, hulp, h.digits, if_neg hcarry]
  rw [if_neg (by omega), if_neg (by omega), hbits]

end Dyadic

/-- The sign of an integer. -/
def signOf (i : Int) : UnpackedFloat.Sign := if i < 0 then .negative else .positive

theorem toNat_or_sign {bits : UInt64} (h : bits.toNat < 2 ^ 63) (i : Int) :
    (if decide (i < 0) = true then bits ||| 0x8000000000000000 else bits).toNat =
      Double.signBit (signOf i) * 2 ^ 63 + bits.toNat := by
  unfold signOf
  by_cases hi : i < 0
  · rw [if_pos (decide_eq_true hi), if_pos hi, UInt64.toNat_or, Nat.or_comm]
    exact (Nat.two_pow_add_eq_or_of_lt h 1).symm
  · rw [if_neg (by rwa [decide_eq_true_iff]), if_neg hi]
    exact (Nat.zero_add _).symm

/-- The double of an integer of at most 53 bits stands for the integer. -/
theorem number?_floatOfInt {i : Int} {m : Nat} (hi : i ≠ 0)
    (h : Dyadic.Spells i.natAbs (Nat.log2 i.natAbs) m) :
    Double.number? (floatOfInt i) = some (.finite (signOf i) (2 ^ 52 + m)
      (((1023 + Nat.log2 i.natAbs : Nat) : Int) - 1075) (by omega)) := by
  have hn : i.natAbs ≠ 0 := Int.natAbs_ne_zero.mpr hi
  have hk := h.exponent
  have hm := h.fits
  have hbits := Dyadic.bitsOfQuotient_eq rfl hn h
  have htoNat : (Dyadic.bitsOfQuotient i.natAbs 1 0).toNat =
      (1023 + Nat.log2 i.natAbs) * 2 ^ 52 + m := by
    rw [hbits, UInt64.toNat_ofNat', Nat.mod_eq_of_lt (by omega)]
  have hfloat : floatOfInt i = Float.ofBits (if decide (i < 0) = true then
      Dyadic.bitsOfQuotient i.natAbs 1 0 ||| 0x8000000000000000
      else Dyadic.bitsOfQuotient i.natAbs 1 0) := by
    have hplain : (if (i.natAbs == 0) = true then 0
        else if (Nat.log2 i.natAbs : Int) + 0 > 1100 then 0x7ff0000000000000
        else if (Nat.log2 i.natAbs : Int) + 0 < -1100 then 0
        else Dyadic.bitsOfQuotient i.natAbs 1 0) = Dyadic.bitsOfQuotient i.natAbs 1 0 := by
      rw [if_neg (by rwa [beq_iff_eq]), if_neg (by omega), if_neg (by omega)]
    unfold floatOfInt Dyadic.toFloat
    simp only [hplain]
  rw [hfloat]
  refine Double.number?_ofBits (by omega) (by omega) hm ?_
  rw [toNat_or_sign (by omega), htoNat, Nat.add_assoc]

/-- Integers that have digits are told apart by their doubles. -/
theorem floatOfInt_inj_of_spells {i j : Int} (hi : i ≠ 0 → ∃ k m, Dyadic.Spells i.natAbs k m)
    (hj : j ≠ 0 → ∃ k m, Dyadic.Spells j.natAbs k m)
    (h : Double.number? (floatOfInt i) = Double.number? (floatOfInt j)) : i = j := by
  have hzero : Double.number? (floatOfInt 0) = some (.zero .positive) := rfl
  have hdigits {i : Int} (hi0 : i ≠ 0) (hi : i ≠ 0 → ∃ k m, Dyadic.Spells i.natAbs k m) :
      ∃ m, Dyadic.Spells i.natAbs (Nat.log2 i.natAbs) m := by
    obtain ⟨k, m, hm⟩ := hi hi0
    exact ⟨m, hm.log2_eq ▸ hm⟩
  by_cases hi0 : i = 0 <;> by_cases hj0 : j = 0
  · rw [hi0, hj0]
  · obtain ⟨m, hm⟩ := hdigits hj0 hj
    rw [hi0, hzero, number?_floatOfInt hj0 hm] at h
    cases h
  · obtain ⟨m, hm⟩ := hdigits hi0 hi
    rw [hj0, hzero, number?_floatOfInt hi0 hm] at h
    cases h
  · obtain ⟨m, hm⟩ := hdigits hi0 hi
    obtain ⟨m', hm'⟩ := hdigits hj0 hj
    rw [number?_floatOfInt hi0 hm, number?_floatOfInt hj0 hm'] at h
    obtain ⟨hsign, hdigits, hexponent⟩ : signOf i = signOf j ∧ 2 ^ 52 + m = 2 ^ 52 + m' ∧
        ((1023 + Nat.log2 i.natAbs : Nat) : Int) - 1075 =
          ((1023 + Nat.log2 j.natAbs : Nat) : Int) - 1075 := by
      injection h with h
      injection h with hsign hdigits hexponent
      exact ⟨hsign, hdigits, hexponent⟩
    obtain rfl : m' = m := by omega
    have hlog : Nat.log2 j.natAbs = Nat.log2 i.natAbs := by omega
    rw [hlog] at hm'
    have habs := hm.inj hm'
    unfold signOf at hsign
    split at hsign <;> split at hsign <;> first | omega | cases hsign

/-- Integers up to `2 ^ 53` are told apart by their doubles. -/
theorem floatOfInt_inj {i j : Int} (hi : i.natAbs ≤ 2 ^ 53) (hj : j.natAbs ≤ 2 ^ 53)
    (h : Double.number? (floatOfInt i) = Double.number? (floatOfInt j)) : i = j := by
  have hdigits {i : Int} (hi : i.natAbs ≤ 2 ^ 53) (hi0 : i ≠ 0) :
      ∃ k m, Dyadic.Spells i.natAbs k m :=
    ⟨_, Dyadic.exists_spells (Int.natAbs_ne_zero.mpr hi0) hi⟩
  exact floatOfInt_inj_of_spells (hdigits hi) (hdigits hj) h

/-- The integer after `2 ^ 53` shares the double of `2 ^ 53`. -/
theorem number?_floatOfInt_succ :
    Double.number? (floatOfInt (2 ^ 53 + 1)) = Double.number? (floatOfInt (2 ^ 53)) :=
  (Double.beq_iff.mp (by decide +kernel)).1

end StoryPack
