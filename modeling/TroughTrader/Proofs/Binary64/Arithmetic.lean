import TroughTrader.Proofs.Binary64.Places

/-!
# Products, quotients and differences

The product and the quotient of finite values are the binary64 values nearest to the exact product
and quotient, with the sign that the signs of the factors give (`mul_eq_nearest`,
`div_eq_nearest`), and the difference is the one nearest to the exact difference (`isNearest_sub`).
An infinity goes through a difference, a product with a positive value and a quotient by one.
-/

namespace TroughTrader.Binary64

open Float.Model

theorem signOf_eq_signIf (x : Float) : signOf x = signIf (isNegative x) := rfl

theorem sub_eq_pack (x y : Float) :
    x - y = Float.ofModel (pack
      (UnpackedFloat.sub Format.binary64 x.toModel.unpack y.toModel.unpack)) := rfl

theorem mul_eq_pack (x y : Float) :
    x * y = Float.ofModel (pack
      (UnpackedFloat.mul Format.binary64 x.toModel.unpack y.toModel.unpack)) := rfl

theorem div_eq_pack (x y : Float) :
    x / y = Float.ofModel (pack
      (UnpackedFloat.div Format.binary64 x.toModel.unpack y.toModel.unpack)) := rfl

section Finite

variable {a b : Float} {num den : ℕ}

theorem absValue_eq_zero_iff : absValue a = 0 ↔ (significand a).1 = 0 := by
  have hpow : (2 : ℚ) ^ (significand a).2 ≠ 0 := by positivity
  rw [absValue, mul_eq_zero, or_iff_left hpow, Nat.cast_eq_zero]

theorem ofModel_pack_zero (negative : Bool) :
    Float.ofModel (pack (.zero (signIf negative))) = zero negative := by
  cases negative <;> rfl

theorem nearest_zero (negative : Bool) (den : ℕ) : nearest negative 0 den = zero negative := by
  rw [nearest, nearestBits, if_pos rfl, zero]

theorem exists_ratio {v : ℚ} (hv : 0 ≤ v) : ∃ num den, 0 < den ∧ ratio num den = v :=
  ⟨v.num.natAbs, v.den, v.den_pos, (ratio_natAbs_num v).trans (abs_of_nonneg hv)⟩

theorem value_eq_zero_iff : value a = 0 ↔ absValue a = 0 := by
  rw [← abs_value, abs_eq_zero]

/-- The places of a product of two significands reach below its last place. -/
theorem add_le_targetExponent (ha : (significand a).1 ≠ 0) (hb : (significand b).1 ≠ 0) :
    (significand a).2 + (significand b).2 ≤ Format.binary64.targetExponent
      (totalExponent ((significand a).1 * (significand b).1)
        ((significand a).2 + (significand b).2)) := by
  have hlea := le_significand a
  have hleb := le_significand b
  rw [targetExponent_eq, totalExponent]
  by_cases hleast : (significand a).2 = -1074 ∧ (significand b).2 = -1074
  · omega
  · have hproduct : 2 ^ 52 ≤ (significand a).1 * (significand b).1 := by
      by_cases hleast' : (significand a).2 = -1074
      · have hlead := leadingBit_le_significand (x := b) (by omega)
        exact hlead.trans (Nat.le_mul_of_pos_left _ (Nat.pos_of_ne_zero ha))
      · have hlead := leadingBit_le_significand (x := a) (by omega)
        exact hlead.trans (Nat.le_mul_of_pos_right _ (Nat.pos_of_ne_zero hb))
    have hlog := (Nat.le_log2 (Nat.mul_ne_zero ha hb)).2 hproduct
    omega

theorem mul_eq_nearest (ha : a.isFinite = true) (hb : b.isFinite = true) (hden : 0 < den)
    (h : ratio num den = absValue a * absValue b) :
    a * b = nearest (isNegative a != isNegative b) num den := by
  rw [mul_eq_pack, unpack_of_isFinite ha, unpack_of_isFinite hb, signOf_eq_signIf, signOf_eq_signIf]
  by_cases hzero : (significand a).1 = 0 ∨ (significand b).1 = 0
  · have hnum : num = 0 := by
      rw [← ratio_eq_zero_iff hden, h, mul_eq_zero, absValue_eq_zero_iff, absValue_eq_zero_iff]
      exact hzero
    rw [hnum, nearest_zero, ← ofModel_pack_zero, ← signIf_mul]
    by_cases hza : (significand a).1 = 0
    · rw [dif_pos hza]
      split <;> rfl
    · rw [dif_neg hza, dif_pos (hzero.resolve_left hza)]
      rfl
  · obtain ⟨hza, hzb⟩ := not_or.1 hzero
    have hnum : num ≠ 0 := by
      rw [ne_eq, ← ratio_eq_zero_iff hden, h, mul_eq_zero, absValue_eq_zero_iff,
        absValue_eq_zero_iff]
      exact hzero
    rw [dif_neg hza, dif_neg hzb, UnpackedFloat.mul, signIf_mul]
    apply ofModel_roundWithAccuracy _ hden hnum
    · have hunits : ratio num den / 2 ^ ((significand a).2 + (significand b).2) =
          ((significand a).1 * (significand b).1 : ℕ) := by
        rw [h, absValue, absValue, div_eq_iff (by positivity), zpow_add₀ (by norm_num)]
        push_cast
        ring
      rw [hunits]
      exact stands_exact _
    · exact add_le_targetExponent hza hzb

theorem div_le_targetExponent {m n : ℕ} {p q : ℤ} (hm : m ≠ 0) (hn : n ≠ 0) :
    let e := min (p - q)
      (Format.binary64.targetExponent (totalExponent m p - totalExponent n q))
    e ≤ Format.binary64.targetExponent (totalExponent (m <<< (p - q - e).toNat / n) e) := by
  intro e
  have he : e = min (p - q) (max (-1074) (totalExponent m p - totalExponent n q - 53)) := by
    rw [← targetExponent_eq]
  rw [targetExponent_eq]
  rw [totalExponent, totalExponent] at he
  rw [totalExponent]
  by_cases hleast : e ≤ -1074
  · omega
  · have hshift : 53 + n.log2 ≤ m.log2 + (p - q - e).toNat := by omega
    have hquotient : 2 ^ 52 ≤ m <<< (p - q - e).toNat / n := by
      rw [Nat.le_div_iff_mul_le (Nat.pos_of_ne_zero hn), Nat.shiftLeft_eq]
      calc 2 ^ 52 * n ≤ 2 ^ 52 * 2 ^ (n.log2 + 1) := Nat.mul_le_mul_left _ Nat.lt_log2_self.le
        _ = 2 ^ (53 + n.log2) := by rw [← pow_add]; congr 1; omega
        _ ≤ 2 ^ (m.log2 + (p - q - e).toNat) := Nat.pow_le_pow_right (by norm_num) hshift
        _ = 2 ^ m.log2 * 2 ^ (p - q - e).toNat := pow_add _ _ _
        _ ≤ m * 2 ^ (p - q - e).toNat := Nat.mul_le_mul_right _ (Nat.log2_self_le hm)
    have hlog := (Nat.le_log2 (by omega)).2 hquotient
    omega

theorem div_eq_nearest (ha : a.isFinite = true) (hb : b.isFinite = true) (hne : value b ≠ 0)
    (hden : 0 < den) (h : ratio num den = absValue a / absValue b) :
    a / b = nearest (isNegative a != isNegative b) num den := by
  have hzb : (significand b).1 ≠ 0 := by rwa [ne_eq, ← absValue_eq_zero_iff, ← value_eq_zero_iff]
  rw [div_eq_pack, unpack_of_isFinite ha, unpack_of_isFinite hb, signOf_eq_signIf,
    signOf_eq_signIf, dif_neg hzb]
  by_cases hza : (significand a).1 = 0
  · have hnum : num = 0 := by
      rw [← ratio_eq_zero_iff hden, h, absValue_eq_zero_iff.2 hza, zero_div]
    rw [hnum, nearest_zero, ← ofModel_pack_zero, ← signIf_div, dif_pos hza]
    rfl
  · have hb₀ : absValue b ≠ 0 := absValue_eq_zero_iff.not.2 hzb
    have hnum : num ≠ 0 := by
      rw [ne_eq, ← ratio_eq_zero_iff hden, h, div_eq_zero_iff, absValue_eq_zero_iff]
      exact not_or.2 ⟨hza, hb₀⟩
    have hplace := div_le_targetExponent (p := (significand a).2) (q := (significand b).2) hza hzb
    rw [dif_neg hza, UnpackedFloat.div, UnpackedFloat.divCore, signIf_div]
    simp only at hplace ⊢
    generalize he : min ((significand a).2 - (significand b).2) _ = e at hplace ⊢
    apply ofModel_roundWithAccuracy _ hden hnum _ hplace
    have hunits : ratio num den / 2 ^ e = ratio
        ((significand a).1 <<< ((significand a).2 - (significand b).2 - e).toNat)
        (significand b).1 := by
      have hn₀ : ((significand b).1 : ℚ) ≠ 0 := by exact_mod_cast hzb
      have hsplit : (2 : ℚ) ^ (significand a).2 = 2 ^ (significand b).2 * 2 ^ e *
          2 ^ ((significand a).2 - (significand b).2 - e).toNat := by
        rw [← zpow_natCast, ← zpow_add₀ (by norm_num), ← zpow_add₀ (by norm_num),
          Int.toNat_of_nonneg (by omega)]
        congr 1
        ring
      rw [h, absValue, absValue, ratio, Nat.shiftLeft_eq, hsplit]
      push_cast
      field_simp
    rw [hunits]
    exact stands_div _ (Nat.pos_of_ne_zero hzb)

theorem isNearest_mul (ha : a.isFinite = true) (hb : b.isFinite = true) :
    IsNearest (a * b) (value a * value b) := by
  have hpos : 0 ≤ absValue a * absValue b := mul_nonneg (absValue_nonneg a) (absValue_nonneg b)
  obtain ⟨num, den, hden, hratio⟩ := exists_ratio hpos
  have hvalue : value a * value b =
      if isNegative a != isNegative b then -(absValue a * absValue b)
      else absValue a * absValue b := by
    rw [value, value]
    cases isNegative a <;> cases isNegative b <;> simp
  rw [mul_eq_nearest ha hb hden hratio, hvalue]
  exact isNearest_signed hden hpos hratio _

theorem isNearest_div (ha : a.isFinite = true) (hb : b.isFinite = true) (hne : value b ≠ 0) :
    IsNearest (a / b) (value a / value b) := by
  have hpos : 0 ≤ absValue a / absValue b := div_nonneg (absValue_nonneg a) (absValue_nonneg b)
  obtain ⟨num, den, hden, hratio⟩ := exists_ratio hpos
  have hvalue : value a / value b =
      if isNegative a != isNegative b then -(absValue a / absValue b)
      else absValue a / absValue b := by
    rw [value, value]
    cases isNegative a <;> cases isNegative b <;> simp [neg_div, div_neg]
  rw [div_eq_nearest ha hb hne hden hratio, hvalue]
  exact isNearest_signed hden hpos hratio _

theorem ofModel_pack_unpack (x : Float) : Float.ofModel (pack x.toModel.unpack) = x :=
  Float.ofBits_toBits x

/-- A value without its sign, and another sign. -/
theorem ofModel_pack_opposite (ha : a.isFinite = true) (hm : (significand a).1 ≠ 0) :
    Float.ofModel (pack (.finite (-signOf a) (significand a).1 (significand a).2
      (Nat.pos_of_ne_zero hm))) = signed (!isNegative a) (magnitudeBits a) := by
  have hle := ((isFinite_iff_magnitudeBits_lt a).1 ha).le
  rw [magnitudeBits_eq] at hle ⊢
  rw [signOf_eq_signIf, neg_signIf, ofModel_pack_finite _ _ (significand_lt a) (le_significand a)
    leadingBit_le_significand, Nat.min_eq_right hle]

/-- A whole number of units at some place, of either sign, is rounded to the nearest. -/
theorem isNearest_normalize (m : ℤ) (e : ℤ) :
    IsNearest (Float.ofModel (pack (UnpackedFloat.normalize Format.binary64 m e .positive)))
      (m * 2 ^ e) := by
  have hsigned (negative : Bool) {n : ℕ} (hn : n ≠ 0) :
      IsNearest (Float.ofModel (pack
        (UnpackedFloat.round Format.binary64 (signIf negative) n e)))
        (if negative then -(n * 2 ^ e) else n * 2 ^ e) := by
    have hpos : (0 : ℚ) ≤ n * 2 ^ e := by positivity
    obtain ⟨num, den, hden, hratio⟩ := exists_ratio hpos
    rw [ofModel_round negative hden hn hratio]
    exact isNearest_signed hden hpos hratio negative
  rw [UnpackedFloat.normalize]
  rcases lt_trichotomy m 0 with h | rfl | h
  · rw [compare_lt_iff_lt.2 h]
    have hn : ((-m).toNat : ℚ) = -m := by exact_mod_cast Int.toNat_of_nonneg (by omega : 0 ≤ -m)
    have hround := hsigned true (n := (-m).toNat) (by omega)
    rw [if_pos rfl, hn, neg_mul, neg_neg] at hround
    exact hround
  · rw [compare_eq_iff_eq.2 rfl, Int.cast_zero, zero_mul]
    change IsNearest (zero false) 0
    exact ⟨by decide, by decide⟩
  · rw [compare_gt_iff_gt.2 h]
    have hn : (m.toNat : ℚ) = m := by exact_mod_cast Int.toNat_of_nonneg h.le
    have hround := hsigned false (n := m.toNat) (by omega)
    rw [if_neg Bool.false_ne_true, hn] at hround
    exact hround

/-- A value in units of a place at or below its last one. -/
theorem apply_shiftLeft_mul (x : Float) {e : ℤ} (he : e ≤ (significand x).2) :
    ((signOf x).apply ((significand x).1 <<< ((significand x).2 - e).toNat : ℕ) : ℚ) * 2 ^ e =
      value x := by
  have hsplit : (2 : ℚ) ^ (significand x).2 = 2 ^ ((significand x).2 - e).toNat * 2 ^ e := by
    rw [← zpow_natCast, ← zpow_add₀ (by norm_num), Int.toNat_of_nonneg (by omega)]
    congr 1
    ring
  rw [value, absValue, signOf, Nat.shiftLeft_eq, hsplit]
  cases isNegative x <;> simp [UnpackedFloat.Sign.apply] <;> ring

theorem value_of_significand_eq_zero {x : Float} (h : (significand x).1 = 0) : value x = 0 :=
  value_eq_zero_iff.2 (absValue_eq_zero_iff.2 h)

/-- Zero may be subtracted from another zero, and gives what the two signs say, or from a number,
which it leaves as it is. -/
theorem sub_eq_of_significand_eq_zero (ha : a.isFinite = true) (hb : b.isFinite = true)
    (hzb : (significand b).1 = 0) :
    a - b = if (significand a).1 = 0 then zero (isNegative a && !isNegative b) else a := by
  rw [sub_eq_pack]
  by_cases hza : (significand a).1 = 0
  · rw [if_pos hza, unpack_of_isFinite ha, unpack_of_isFinite hb, dif_pos hza, dif_pos hzb,
      signOf_eq_signIf, signOf_eq_signIf]
    cases isNegative a <;> cases isNegative b <;> rfl
  · rw [if_neg hza]
    conv_rhs => rw [← ofModel_pack_unpack a]
    rw [unpack_of_isFinite ha, unpack_of_isFinite hb, dif_neg hza, dif_pos hzb]
    rfl

theorem sub_eq_signed (ha : a.isFinite = true) (hb : b.isFinite = true)
    (hza : (significand a).1 = 0) (hzb : (significand b).1 ≠ 0) :
    a - b = signed (!isNegative b) (magnitudeBits b) := by
  rw [sub_eq_pack, unpack_of_isFinite ha, unpack_of_isFinite hb, dif_pos hza, dif_neg hzb,
    UnpackedFloat.sub, ofModel_pack_opposite hb hzb]

theorem isNearest_sub (ha : a.isFinite = true) (hb : b.isFinite = true) :
    IsNearest (a - b) (value a - value b) := by
  by_cases hzb : (significand b).1 = 0
  · rw [sub_eq_of_significand_eq_zero ha hb hzb, value_of_significand_eq_zero hzb, sub_zero]
    by_cases hza : (significand a).1 = 0
    · rw [if_pos hza, value_of_significand_eq_zero hza]
      cases isNegative a && !isNegative b <;> exact ⟨by decide, by decide⟩
    · rw [if_neg hza]
      exact isNearest_value ha
  · by_cases hza : (significand a).1 = 0
    · have hle := ((isFinite_iff_magnitudeBits_lt b).1 hb).le
      rw [sub_eq_signed ha hb hza hzb, value_of_significand_eq_zero hza, zero_sub]
      refine ⟨isNaN_signed _ hle, ?_⟩
      rw [rank_signed _ hle, nearestRank_neg, nearestRank_value hb, rank]
      cases isNegative b <;> simp
    · -- both are counted in units of the lower place
      have h := isNearest_normalize
        ((signOf a).apply ((significand a).1 <<<
            ((significand a).2 - min (significand a).2 (significand b).2).toNat : ℕ) -
          (signOf b).apply ((significand b).1 <<<
            ((significand b).2 - min (significand a).2 (significand b).2).toNat : ℕ))
        (min (significand a).2 (significand b).2)
      rw [Int.cast_sub, sub_mul, apply_shiftLeft_mul a (min_le_left _ _),
        apply_shiftLeft_mul b (min_le_right _ _)] at h
      rw [sub_eq_pack, unpack_of_isFinite ha, unpack_of_isFinite hb, dif_neg hza, dif_neg hzb]
      exact h

end Finite

end TroughTrader.Binary64
