import TroughTrader.Proofs.Binary64.Lesser
import TroughTrader.Proofs.Binary64.Rounding

/-!
# Patterns without their sign

`magnitudeBits` is the pattern of a value without the bit of the sign. It tells apart what is
finite, infinite and undefined, and up to the pattern of infinity every natural is one, with either
sign (`toBits_signed`). Rounding a ratio to a pattern keeps the order (`nearestBits_mono`): the
rounded significand stays within 53 digits, and a carry out of it meets the next exponent.
-/

namespace TroughTrader.Binary64

open Float.Model

section Pattern

variable (x : Float)

/-- The pattern without the bit of the sign. -/
def magnitudeBits : ℕ := x.toBits.toNat % signBit

theorem toBits_eq_magnitudeBits :
    x.toBits.toNat = magnitudeBits x + if isNegative x then signBit else 0 := by
  have hlt := x.toBits.toNat_lt
  simp only [isNegative, decide_eq_true_eq]
  split
  all_goals
    simp only [magnitudeBits, signBit] at *
    omega

theorem magnitudeBits_eq :
    magnitudeBits x = ((significand x).2 + 1074).toNat * leadingBit + (significand x).1 :=
  Nat.add_right_cancel ((toBits_eq_magnitudeBits x).symm.trans (toBits_eq x))

theorem magnitudeBits_eq_fields :
    magnitudeBits x = exponentField x * leadingBit + fractionField x := by
  have hlt := x.toBits.toNat_lt
  simp only [magnitudeBits, exponentField, fractionField, leadingBit, signBit] at *
  omega

theorem isFinite_iff_magnitudeBits_lt : x.isFinite = true ↔ magnitudeBits x < infinityBits := by
  have hexponent : exponentField x < 2048 := Nat.mod_lt _ (by decide)
  have hfraction : fractionField x < leadingBit := Nat.mod_lt _ (by decide)
  rw [isFinite_iff, magnitudeBits_eq_fields, infinityBits]
  simp only [leadingBit] at *
  omega

theorem isNaN_iff_lt_magnitudeBits : x.isNaN = true ↔ infinityBits < magnitudeBits x := by
  have hexponent : exponentField x < 2048 := Nat.mod_lt _ (by decide)
  have hfraction : fractionField x < leadingBit := Nat.mod_lt _ (by decide)
  have hfields : x.isNaN = true ↔ exponentField x = 2047 ∧ fractionField x ≠ 0 := by
    change x.toModel.unpack.isNaN = true ↔ _
    rw [unpack_eq]
    by_cases h : exponentField x = 2047
    · rw [if_pos h]
      split <;> simp_all [UnpackedFloat.isNaN]
    · rw [if_neg h]
      split <;> simp_all [UnpackedFloat.isNaN]
  rw [hfields, magnitudeBits_eq_fields, infinityBits]
  simp only [leadingBit] at *
  omega

theorem isNaN_of_isFinite {x : Float} (h : x.isFinite = true) : x.isNaN = false := by
  have hlt := (isFinite_iff_magnitudeBits_lt x).1 h
  rw [Bool.eq_false_iff, ne_eq, isNaN_iff_lt_magnitudeBits]
  omega

theorem isInf_of_isFinite {x : Float} (h : x.isFinite = true) : x.isInf = false := by
  change x.toModel.unpack.isFinite = true at h
  change x.toModel.unpack.isInf = false
  cases hunpack : x.toModel.unpack with
  | infinity =>
    rw [hunpack] at h
    cases h
  | notANumber | finite | zero => rfl

end Pattern

section Signed

theorem infinityBits_lt_signBit : infinityBits < signBit := by decide

variable (negative : Bool) {bits : ℕ} (h : bits ≤ infinityBits)
include h

/-- A pattern up to that of infinity is kept as it is. -/
theorem toBits_signed :
    (signed negative bits).toBits.toNat = bits + if negative then signBit else 0 := by
  let pattern : ℕ := bits + if negative then signBit else 0
  have hpattern : pattern % signBit = bits ∧ pattern < 2 ^ 64 := by
    simp only [infinityBits, leadingBit, pattern, signBit] at *
    split <;> omega
  have hword : (UInt64.ofNat pattern).toNat = pattern := by
    rw [UInt64.toNat_ofNat', Nat.mod_eq_of_lt hpattern.2]
  have hvalid : @UnpackedFloat.isNaNBits Format.binary64
      (UInt64.ofNat pattern).toBitVec = false := by
    have hexponent : (@UnpackedFloat.unpackExponent Format.binary64
        (UInt64.ofNat pattern).toBitVec).toNat = pattern / leadingBit % 2048 := by
      simp only [UnpackedFloat.unpackExponent, BitVec.toNat_cast, BitVec.extractLsb_toNat,
        Nat.shiftRight_eq_div_pow]
      rw [UInt64.toNat_toBitVec, hword]
      rfl
    have hfraction : (@UnpackedFloat.unpackMantissa Format.binary64
        (UInt64.ofNat pattern).toBitVec).toNat = pattern % leadingBit := by
      simp only [UnpackedFloat.unpackMantissa, BitVec.toNat_cast, BitVec.extractLsb_toNat,
        Nat.shiftRight_zero]
      rw [UInt64.toNat_toBitVec, hword]
      rfl
    rw [UnpackedFloat.isNaNBits, decide_eq_false_iff_not, ← BitVec.toNat_inj, ne_eq,
      ← BitVec.toNat_inj, hexponent, hfraction]
    change ¬ (pattern / leadingBit % 2048 = 2047 ∧ ¬ pattern % leadingBit = 0)
    simp only [infinityBits, leadingBit, signBit] at *
    omega
  have hbits : (signed negative bits).toBits = UInt64.ofNat pattern := by
    apply UInt64.toBitVec_inj.1
    change UnpackedFloat.pack Format.binary64 (UnpackedFloat.unpack _ _) = _
    rw [UnpackedFloat.pack_unpack, hvalid, if_neg Bool.false_ne_true]
  rw [hbits, hword]

theorem isNegative_signed : isNegative (signed negative bits) = negative := by
  rw [isNegative, toBits_signed negative h]
  have := infinityBits_lt_signBit
  cases negative <;> simp
  omega

theorem magnitudeBits_signed : magnitudeBits (signed negative bits) = bits := by
  have hbits := toBits_eq_magnitudeBits (signed negative bits)
  rw [toBits_signed negative h, isNegative_signed negative h] at hbits
  exact (Nat.add_right_cancel hbits).symm

theorem isNaN_signed : (signed negative bits).isNaN = false := by
  rw [Bool.eq_false_iff, ne_eq, isNaN_iff_lt_magnitudeBits, magnitudeBits_signed negative h]
  omega

end Signed

/-- What is neither finite nor undefined is one of the two infinities. -/
theorem eq_infinity {x : Float} (hnan : x.isNaN = false) (hfinite : x.isFinite = false) :
    x = infinity (isNegative x) := by
  have hbits : magnitudeBits x = infinityBits := by
    have h := (isNaN_iff_lt_magnitudeBits x).not.1 (Bool.eq_false_iff.1 hnan)
    have h' := (isFinite_iff_magnitudeBits_lt x).not.1 (Bool.eq_false_iff.1 hfinite)
    omega
  rw [infinity, ← hbits]
  exact (signed_eq (toBits_eq_magnitudeBits x)).symm

section Nearest

variable {num den num' den' : ℕ} (hden : 0 < den) (hden' : 0 < den')

theorem nearestBits_le (num den : ℕ) : nearestBits num den ≤ infinityBits := by
  rw [nearestBits]
  split
  · exact Nat.zero_le _
  · exact Nat.min_le_left _ _

include hden in
/-- A whole number of units is at most half a unit off. -/
theorem abs_roundHalfEven_sub_le : |(roundHalfEven num den : ℚ) - ratio num den| ≤ 1 / 2 := by
  have hden₀ : (0 : ℚ) < den := by exact_mod_cast hden
  have hlow : (2 : ℚ) * num ≤ 2 * (den * roundHalfEven num den) + den := by
    exact_mod_cast le_roundHalfEven num hden
  have hhigh : (2 : ℚ) * (den * roundHalfEven num den) ≤ 2 * num + den := by
    exact_mod_cast roundHalfEven_le num den
  have hnum : (num : ℚ) = ratio num den * den := by
    rw [ratio, div_mul_cancel₀ _ hden₀.ne']
  rw [hnum] at hlow hhigh
  rw [abs_le]
  constructor <;> nlinarith

include hden hden' in
theorem roundHalfEven_mono (h : ratio num den ≤ ratio num' den') :
    roundHalfEven num den ≤ roundHalfEven num' den' := by
  by_contra hlt
  have hstep : (roundHalfEven num' den' : ℚ) + 1 ≤ roundHalfEven num den := by
    exact_mod_cast not_le.1 hlt
  have hlow := abs_le.1 (@abs_roundHalfEven_sub_le num den hden)
  have hhigh := abs_le.1 (@abs_roundHalfEven_sub_le num' den' hden')
  -- both ratios are the middle of the step, and equal ratios are rounded alike
  have heq : ratio num den = ratio num' den' := by linarith [hlow.2, hhigh.1]
  exact hlt (roundHalfEven_congr hden hden' heq).le

theorem ratio_nonneg (num den : ℕ) : 0 ≤ ratio num den := by
  rw [ratio]
  positivity

include hden in
/-- The rounded significand of a number that leads at a place, in units of that place or of the
least one. -/
theorem roundHalfEven_of_isLeading {e : ℤ} (he : IsLeading (ratio num den) e) :
    let place := max (-1074) e
    let n := roundHalfEven (inUnits num den place).1 (inUnits num den place).2
    n ≤ 2 ^ 53 ∧ (-1074 ≤ e → 2 ^ 52 ≤ n) := by
  intro place n
  have hunits : ratio (inUnits num den place).1 (inUnits num den place).2 =
      ratio num den / 2 ^ place := ratio_inUnits hden place
  have hexact (k : ℕ) : roundHalfEven (k * 1) 1 = k := roundHalfEven_mul k Nat.one_pos
  have hratio (k : ℕ) : ratio (k * 1) 1 = k := by rw [ratio, mul_one, Nat.cast_one, div_one]
  constructor
  · rw [← hexact (2 ^ 53)]
    apply roundHalfEven_mono (inUnits_snd_pos hden _) Nat.one_pos
    rw [hunits, hratio, div_le_iff₀ (by positivity)]
    have hpow : (2 : ℚ) ^ e ≤ 2 ^ place := zpow_le_zpow_right₀ (by norm_num) (le_max_right _ _)
    have := he.2
    push_cast
    linarith
  · intro hleast
    have hplace : place = e := max_eq_right hleast
    rw [← hexact (2 ^ 52)]
    apply roundHalfEven_mono Nat.one_pos (inUnits_snd_pos hden _)
    rw [hunits, hratio, hplace, le_div_iff₀ (by positivity)]
    exact_mod_cast he.1

include hden hden' in
theorem nearestBits_mono (h : ratio num den ≤ ratio num' den') :
    nearestBits num den ≤ nearestBits num' den' := by
  by_cases hne : num = 0
  · rw [nearestBits, if_pos hne]
    exact Nat.zero_le _
  · have hpos : 0 < ratio num den :=
      (ratio_nonneg num den).lt_of_ne' ((ratio_eq_zero_iff hden).not.2 hne)
    have hne' : num' ≠ 0 := (ratio_eq_zero_iff hden').not.1 (hpos.trans_le h).ne'
    obtain ⟨e, he, -⟩ := lastPlace_spec (Nat.pos_of_ne_zero hne) hden
    obtain ⟨e', he', -⟩ := lastPlace_spec (Nat.pos_of_ne_zero hne') hden'
    rw [nearestBits_eq hden hne he, nearestBits_eq hden' hne' he']
    apply min_le_min_left
    have hle : e ≤ e' := by
      by_contra hlt
      have hpow : (2 : ℚ) ^ (e' + 1) ≤ 2 ^ e := zpow_le_zpow_right₀ (by norm_num) (by omega)
      rw [zpow_add_one₀ (by norm_num)] at hpow
      have := he.1
      have := he'.2
      linarith
    rcases (max_le_max_left (-1074) hle).eq_or_lt with heq | hlt
    · rw [heq]
      apply Nat.add_le_add_left
      apply roundHalfEven_mono (inUnits_snd_pos hden _) (inUnits_snd_pos hden' _)
      rw [ratio_inUnits hden, ratio_inUnits hden']
      gcongr
    · have hhigh := (roundHalfEven_of_isLeading hden he).1
      have hlow := (roundHalfEven_of_isLeading hden' he').2 (by omega)
      simp only [leadingBit]
      omega

end Nearest

end TroughTrader.Binary64
