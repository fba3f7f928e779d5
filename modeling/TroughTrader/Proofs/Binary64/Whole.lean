import TroughTrader.Proofs.Binary64.Accuracy
import TroughTrader.Proofs.Binary64.Places

/-!
# Whole values and counts

`floor` gives the largest whole value that is not above a finite value; an infinity and
not-a-number stay what they are (`floor_spec`, `floor_of_not_isFinite`). The conversion to a count
drops the fraction and stops at both ends of the range (`toNat_toUInt64`), so it grows with the
value (`toUInt64_mono`).
-/

namespace TroughTrader.Binary64

open Float.Model

def numerator (x : Float) : ℤ :=
  if isNegative x then -((magnitude x).1 : ℤ) else (magnitude x).1

/-- The largest whole value that is not above a finite value. The sign of zero is kept. -/
def floor (x : Float) : Float :=
  if x.isFinite then nearest (isNegative x) (numerator x / (magnitude x).2).natAbs 1 else x

section Floor

variable {x : Float}

theorem ratio_magnitude (x : Float) : ratio (magnitude x).1 (magnitude x).2 = absValue x := by
  change ratio (inUnits (significand x).1 1 (-(significand x).2)).1
    (inUnits (significand x).1 1 (-(significand x).2)).2 = _
  rw [ratio_inUnits Nat.one_pos, zpow_neg, div_inv_eq_mul, ratio, Nat.cast_one, div_one, absValue]

theorem natAbs_numerator (x : Float) : (numerator x).natAbs = (magnitude x).1 := by
  rw [numerator]
  split <;> simp

theorem value_eq_numerator_div (x : Float) : value x = (numerator x : ℚ) / (magnitude x).2 := by
  rw [value, ← ratio_magnitude, ratio, numerator]
  split <;> push_cast <;> ring

theorem floor_value (x : Float) : ⌊value x⌋ = numerator x / (magnitude x).2 := by
  rw [value_eq_numerator_div, Rat.floor_intCast_div_natCast]

theorem floor_of_not_isFinite (hx : x.isFinite = false) : floor x = x := by
  rw [floor, hx, if_neg Bool.false_ne_true]

/-- A value without places after the point is its own floor, and another one has so few digits
before the point that its floor is a value. -/
theorem floor_spec (hx : x.isFinite = true) :
    (floor x).isFinite = true ∧ value (floor x) = ⌊value x⌋ := by
  rw [floor, if_pos hx, floor_value]
  by_cases hq : 0 ≤ (significand x).2
  · have hden : (magnitude x).2 = 1 := by
      change 1 <<< (-(significand x).2).toNat = 1
      rw [Int.toNat_of_nonpos (by omega), Nat.shiftLeft_zero]
    have hvalue := value_eq_numerator_div x
    have hratio := ratio_magnitude x
    rw [hden] at hvalue hratio
    rw [hden, Nat.cast_one, Int.ediv_one, natAbs_numerator, nearest_self hx Nat.one_pos hratio]
    exact ⟨hx, by rw [hvalue, Nat.cast_one, div_one]⟩
  · have hnum : (magnitude x).1 = (significand x).1 := by
      change (significand x).1 <<< (-(-(significand x).2)).toNat = _
      rw [Int.toNat_of_nonpos (by omega), Nat.shiftLeft_zero]
    have hlt : (numerator x / (magnitude x).2).natAbs < 2 ^ 53 :=
      calc (numerator x / (magnitude x).2).natAbs ≤ (numerator x).natAbs :=
            Int.natAbs_ediv_le_natAbs _ _
        _ = (significand x).1 := (natAbs_numerator x).trans hnum
        _ < 2 ^ 53 := significand_lt x
    obtain ⟨hfinite, hexact⟩ := value_nearest_natCast (isNegative x) hlt
    refine ⟨hfinite, hexact.trans ?_⟩
    have hpos := absValue_nonneg x
    rw [← floor_value, Nat.cast_natAbs, Int.cast_abs]
    cases hsign : isNegative x with
    | true =>
      have hle : ⌊value x⌋ ≤ 0 := Int.floor_nonpos (by rw [value, hsign, if_pos rfl]; linarith)
      rw [if_pos rfl, abs_of_nonpos (by exact_mod_cast hle), neg_neg]
    | false =>
      have hle : 0 ≤ ⌊value x⌋ := by
        rw [Int.floor_nonneg, value, hsign, if_neg Bool.false_ne_true]
        exact hpos
      rw [if_neg Bool.false_ne_true, abs_of_nonneg (by exact_mod_cast hle)]

end Floor

section Count

variable {x y : Float}

theorem toNat_ofNatClamp (n : ℕ) : (UInt64.ofNatClamp n).toNat = min (2 ^ 64 - 1) n := by
  rw [UInt64.ofNatClamp]
  split
  · rw [UInt64.toNat_ofNatLT]
    exact (Nat.min_eq_right (Nat.le_sub_one_of_lt ‹_›)).symm
  · rw [UInt64.toNat_ofNatLT]
    exact (Nat.min_eq_left (by simp only [UInt64.size] at *; omega)).symm

/-- The fraction of a magnitude is dropped, whichever sign it has. -/
theorem roundToInt_eq (s : UnpackedFloat.Sign) (m : ℕ) (e : ℤ) :
    UnpackedFloat.roundToInt s m e = s.apply ⌊(m : ℚ) * 2 ^ e⌋₊ := by
  have hstands := (stands_exact (m <<< e.toNat)).shiftRight (-e).toNat
  have hvalue : ((m <<< e.toNat : ℕ) : ℚ) / 2 ^ (-e).toNat = m * 2 ^ e := by
    have hunits := @ratio_inUnits m 1 Nat.one_pos (-e)
    rw [inUnits, neg_neg, ratio, ratio, Nat.one_shiftLeft, Nat.cast_one, div_one, zpow_neg,
      div_inv_eq_mul] at hunits
    rw [← hunits, Nat.cast_pow, Nat.cast_ofNat]
  rw [hvalue] at hstands
  have hshift : (0 - (e - ((e - 0).toNat : ℤ))).toNat = (-e).toNat := by omega
  rw [(Nat.floor_eq_iff (by positivity)).2 hstands.mantissa_le, UnpackedFloat.roundToInt]
  simp only [UnpackedFloat.decreaseExponent, UnpackedFloat.shiftToExponent]
  rw [hshift, sub_zero]

theorem toNat_toUInt64 (hx : x.isFinite = true) :
    x.toUInt64.toNat = min (2 ^ 64 - 1) ⌊value x⌋₊ := by
  have hcount : (x.toModel.unpack.toInt 0 (2 ^ 64 - 1)).toNat = ⌊value x⌋₊ := by
    rcases unpack_cases hx with ⟨-, hv, _, hu⟩ | ⟨hv, s, hu⟩ | ⟨hneg, -, _, hu⟩
    · rw [hu, hv]
      change (UnpackedFloat.roundToInt .positive _ _).toNat = _
      rw [roundToInt_eq]
      rfl
    · rw [hu, hv, Nat.floor_zero]
      rfl
    · rw [hu, Nat.floor_of_nonpos hneg.le]
      change (UnpackedFloat.roundToInt .negative _ _).toNat = _
      rw [roundToInt_eq]
      exact Int.toNat_of_nonpos (neg_nonpos.2 (Int.natCast_nonneg _))
  rw [← hcount]
  exact toNat_ofNatClamp _

theorem toUInt64_bounds (hx : x.isFinite = true) (hpos : 0 ≤ value x) :
    (x.toUInt64.toNat : ℚ) ≤ value x ∧
      (x.toUInt64.toNat < 2 ^ 64 - 1 → value x < x.toUInt64.toNat + 1) := by
  rw [toNat_toUInt64 hx]
  constructor
  · refine le_trans ?_ (Nat.floor_le hpos)
    exact_mod_cast min_le_right _ _
  · intro hlt
    have hwhole : min (2 ^ 64 - 1) ⌊value x⌋₊ = ⌊value x⌋₊ := by omega
    rw [hwhole]
    exact Nat.lt_floor_add_one _

theorem toUInt64_infinity (negative : Bool) :
    (infinity negative).toUInt64.toNat = if negative then 0 else 2 ^ 64 - 1 := by
  cases negative <;> decide

theorem toUInt64_mono (h : x ≤ y) : x.toUInt64 ≤ y.toUInt64 := by
  rw [UInt64.le_iff_toNat_le]
  rcases le_cases h with rfl | rfl | ⟨hx, hy, hvalue⟩
  · rw [toUInt64_infinity, if_pos rfl]
    exact Nat.zero_le _
  · rw [toUInt64_infinity, if_neg Bool.false_ne_true]
    exact Nat.le_sub_one_of_lt x.toUInt64.toNat_lt
  · rw [toNat_toUInt64 hx, toNat_toUInt64 hy]
    exact min_le_min_left _ (Nat.floor_le_floor hvalue)

theorem toUInt64_one : (1.0 : Float).toUInt64 = 1 := by decide

theorem one_le_toUInt64 (h : x.isNaN = false) (h' : ¬ x < 1.0) : 1 ≤ x.toUInt64 := by
  have hone := isNaN_of_isFinite isFinite_one
  rw [lt_iff_rank_lt h hone, not_lt, ← le_iff_rank_le hone h] at h'
  rw [← toUInt64_one]
  exact toUInt64_mono h'

theorem isNaN_floor (x : Float) : (floor x).isNaN = x.isNaN := by
  cases hx : x.isFinite with
  | true => rw [isNaN_of_isFinite hx, isNaN_of_isFinite (floor_spec hx).1]
  | false => rw [floor_of_not_isFinite hx]

/-- The floor of a value is at or below zero exactly if the value is below one. -/
theorem floor_le_zero_iff (h : x.isNaN = false) : floor x ≤ 0.0 ↔ x < 1.0 := by
  cases hx : x.isFinite with
  | true =>
    obtain ⟨hfinite, hvalue⟩ := floor_spec hx
    rw [le_iff_value_le hfinite isFinite_zero, lt_iff_value_lt hx isFinite_one, hvalue, value_zero,
      value_one, ← Int.cast_zero, Int.cast_le, ← Int.lt_add_one_iff, zero_add, Int.floor_lt,
      Int.cast_one]
  | false =>
    rw [floor_of_not_isFinite hx, eq_infinity h hx]
    cases isNegative x <;> decide

theorem toUInt64_floor (x : Float) : (floor x).toUInt64 = x.toUInt64 := by
  cases hx : x.isFinite with
  | true =>
    obtain ⟨hfinite, hvalue⟩ := floor_spec hx
    rw [← UInt64.toNat_inj, toNat_toUInt64 hfinite, toNat_toUInt64 hx, hvalue, ← Int.floor_toNat,
      ← Int.floor_toNat, Int.floor_intCast]
  | false => rw [floor_of_not_isFinite hx]

theorem one_le_toUInt64_floor (h : ¬ ((floor x).isNaN || floor x ≤ 0.0) = true) :
    1 ≤ (floor x).toUInt64 := by
  rw [isNaN_floor, Bool.or_eq_true, decide_eq_true_iff, not_or, Bool.not_eq_true] at h
  obtain ⟨hdefined, hpos⟩ := h
  rw [toUInt64_floor]
  exact one_le_toUInt64 hdefined (mt (floor_le_zero_iff hdefined).2 hpos)

end Count

end TroughTrader.Binary64
