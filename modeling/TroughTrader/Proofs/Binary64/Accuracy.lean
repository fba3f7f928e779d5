import TroughTrader.Proofs.Binary64.Order

/-!
# How far rounding goes

A pattern counts places, and `absValue_of_magnitudeBits` is the number that it stands for. So a
number that is rounded to a finite value moves by at most half a unit of its last place: by the
fraction `2 ^ (-53)` of itself or, below the least exponent, by half of the least magnitude
(`IsNearest.abs_value_sub_le`). A natural of at most 53 digits does not move
(`value_nearest_natCast`).
-/

namespace TroughTrader.Binary64

section Pattern

variable {x : Float}

/-- A significand that a carry made one digit longer lands in the next exponent, with the same
value. -/
theorem absValue_of_magnitudeBits {k r : ℕ} (hr : r ≤ 2 ^ 53) (hk : k = 0 ∨ 2 ^ 52 ≤ r)
    (h : magnitudeBits x = k * leadingBit + r) : absValue x = r * 2 ^ ((k : ℤ) - 1074) := by
  have hlt := significand_lt x
  have hle := le_significand x
  have hlead := leadingBit_le_significand (x := x)
  rw [magnitudeBits_eq, leadingBit] at h
  have hparts : ((significand x).2 = k - 1074 ∧ (significand x).1 = r) ∨
      ((significand x).2 = k - 1074 + 1 ∧ (significand x).1 = 2 ^ 52 ∧ r = 2 ^ 53) := by
    omega
  rw [absValue]
  rcases hparts with ⟨hq, hm⟩ | ⟨hq, hm, hr⟩
  · rw [hq, hm]
  · rw [hq, hm, hr, zpow_add_one₀ (by norm_num)]
    push_cast
    ring

theorem absValue_signed (negative : Bool) {k r : ℕ} (hr : r ≤ 2 ^ 53) (hk : k = 0 ∨ 2 ^ 52 ≤ r)
    (h : k * leadingBit + r ≤ infinityBits) :
    absValue (signed negative (k * leadingBit + r)) = r * 2 ^ ((k : ℤ) - 1074) :=
  absValue_of_magnitudeBits hr hk (magnitudeBits_signed negative h)

/-- Rounding moves a number by at most half a unit of its last place. -/
theorem abs_absValue_sub_le_half {num den : ℕ} (hden : 0 < den) (hne : num ≠ 0) {e : ℤ}
    (he : IsLeading (ratio num den) e) (hx : x.isFinite = true)
    (h : magnitudeBits x = nearestBits num den) :
    |absValue x - ratio num den| ≤ 2 ^ max (-1074) e / 2 := by
  have hlt := (isFinite_iff_magnitudeBits_lt x).1 hx
  obtain ⟨hhigh, hlow⟩ := roundHalfEven_of_isLeading hden he
  have hunits : 0 < (inUnits num den (max (-1074) e)).2 := inUnits_snd_pos hden _
  have hhalf := @abs_roundHalfEven_sub_le (inUnits num den (max (-1074) e)).1 _ hunits
  rw [ratio_inUnits hden] at hhalf
  rw [nearestBits_eq hden hne he] at h
  generalize roundHalfEven _ _ = r at hhigh hlow hhalf h
  have hbits : magnitudeBits x = (max (-1074) e + 1074).toNat * leadingBit + r := by omega
  have hplace : ((max (-1074) e + 1074).toNat : ℤ) - 1074 = max (-1074) e := by omega
  have hvalue := absValue_of_magnitudeBits hhigh (by omega) hbits
  rw [hplace] at hvalue
  have hunit : (0 : ℚ) < 2 ^ max (-1074) e := by positivity
  have hscaled : absValue x - ratio num den =
      (r - ratio num den / 2 ^ max (-1074) e) * 2 ^ max (-1074) e := by
    rw [hvalue, sub_mul, div_mul_cancel₀ _ hunit.ne']
  rw [hscaled, abs_mul, abs_of_pos hunit]
  linarith [mul_le_mul_of_nonneg_right hhalf hunit.le]

theorem abs_absValue_sub_le {num den : ℕ} (hden : 0 < den) (hx : x.isFinite = true)
    (h : magnitudeBits x = nearestBits num den) :
    |absValue x - ratio num den| ≤ max (ratio num den / 2 ^ 53) (2 ^ (-1075 : ℤ)) := by
  by_cases hne : num = 0
  · rw [nearestBits, if_pos hne] at h
    rw [absValue_of_magnitudeBits (k := 0) (r := 0) (Nat.zero_le _) (Or.inl rfl) h,
      (ratio_eq_zero_iff hden).2 hne]
    simp
  · obtain ⟨e, he, -⟩ := lastPlace_spec (Nat.pos_of_ne_zero hne) hden
    refine (abs_absValue_sub_le_half hden hne he hx h).trans ?_
    rcases max_choice (-1074) e with hplace | hplace
    · apply le_max_of_le_right
      rw [hplace, show (-1074 : ℤ) = -1075 + 1 by norm_num, zpow_add_one₀ (by norm_num),
        mul_div_cancel_right₀ _ (by norm_num)]
    · apply le_max_of_le_left
      have hfirst := he.1
      rw [hplace, le_div_iff₀ (by norm_num)]
      linarith

theorem absValue_eq_zero_of_rank_eq (h : rank x = 0) : absValue x = 0 := by
  have hbits := natAbs_rank x
  rw [h] at hbits
  rw [absValue_of_magnitudeBits (k := 0) (r := 0) (Nat.zero_le _) (Or.inl rfl) hbits.symm]
  simp

theorem value_of_rank_nonneg (h : 0 ≤ rank x) : value x = absValue x := by
  rw [value]
  split
  · have hzero : rank x = 0 := by
      rw [rank, if_pos ‹_›] at h ⊢
      omega
    rw [absValue_eq_zero_of_rank_eq hzero, neg_zero]
  · rfl

theorem value_of_rank_nonpos (h : rank x ≤ 0) : value x = -absValue x := by
  rw [value]
  split
  · rfl
  · have hzero : rank x = 0 := by
      rw [rank, if_neg ‹_›] at h ⊢
      omega
    rw [absValue_eq_zero_of_rank_eq hzero, neg_zero]

end Pattern

namespace IsNearest

variable {x y : Float} {v w : ℚ}

theorem abs_value_sub_le (h : IsNearest x v) (hx : x.isFinite = true) :
    |value x - v| ≤ max (|v| / 2 ^ 53) (2 ^ (-1075 : ℤ)) := by
  have hratio := ratio_natAbs_num v
  have hbits : magnitudeBits x = nearestBits v.num.natAbs v.den := by
    rw [← natAbs_rank, h.rank, nearestRank]
    split <;> omega
  have herror := abs_absValue_sub_le v.den_pos hx hbits
  rw [hratio] at herror
  rcases le_total 0 v with hv | hv
  · have hrank := nearestRank_nonneg hv
    rw [← h.rank] at hrank
    rw [value_of_rank_nonneg hrank]
    rwa [abs_of_nonneg hv] at herror ⊢
  · have hrank := nearestRank_nonneg (neg_nonneg.2 hv)
    rw [nearestRank_neg, ← h.rank, neg_nonneg] at hrank
    rw [value_of_rank_nonpos hrank]
    rw [abs_of_nonpos hv] at herror ⊢
    rwa [← abs_neg, neg_sub', neg_neg]

theorem abs_value_sub_le_of_normal (h : IsNearest x v) (hx : x.isFinite = true)
    (hv : 2 ^ (-1022 : ℤ) ≤ |v|) : |value x - v| ≤ |v| / 2 ^ 53 := by
  refine (h.abs_value_sub_le hx).trans (max_le le_rfl ?_)
  rw [le_div_iff₀ (by positivity), ← zpow_natCast, ← zpow_add₀ (by norm_num)]
  exact hv

theorem isFinite_of_abs_le (h : IsNearest x v) (hy : y.isFinite = true) (hle : |v| ≤ |value y|) :
    x.isFinite = true := by
  have habs (w : ℚ) : |nearestRank w| = nearestRank |w| := by
    have hpos := nearestRank_nonneg (abs_nonneg w)
    rcases abs_choice w with hw | hw
    · rw [hw] at hpos ⊢
      exact abs_of_nonneg hpos
    · rw [hw, nearestRank_neg] at hpos ⊢
      exact abs_of_nonpos (neg_nonneg.1 hpos)
  rw [isFinite_iff_abs_rank_lt] at hy ⊢
  rw [h.rank, habs]
  rw [← nearestRank_value (isFinite_iff_abs_rank_lt.2 hy), habs] at hy
  exact (nearestRank_mono hle).trans_lt hy

theorem lt_of_infinite (h : IsNearest x v) (hx : x.isFinite = false) : 2 ^ 64 < |v| := by
  by_contra hle
  have hfinite : (18446744073709551616.0 : Float).isFinite = true := by decide
  have hvalue : |value 18446744073709551616.0| = 2 ^ 64 := by
    rw [@value_of_significand_eq _ (2 ^ 52) 12 (by decide) (by decide)]
    norm_num
  rw [h.isFinite_of_abs_le hfinite (hvalue ▸ not_lt.1 hle)] at hx
  cases hx

/-- The number behind a value from one on is met with the relative error of one rounding. -/
theorem bounds_of_one_le (h : IsNearest x v) (hv : 0 ≤ v) (hx : x.isFinite = true)
    (hone : 1 ≤ value x) : v * (1 - 1 / 2 ^ 53) ≤ value x ∧ value x ≤ v * (1 + 1 / 2 ^ 53) := by
  have hquarter {e : ℤ} (he : e ≤ -2) : (2 : ℚ) ^ e ≤ 1 / 4 := by
    rw [show (1 / 4 : ℚ) = 2 ^ (-2 : ℤ) by norm_num]
    exact zpow_le_zpow_right₀ (by norm_num) he
  have hnormal : 2 ^ (-1022 : ℤ) ≤ |v| := by
    by_contra hlt
    have hsmall := (not_le.1 hlt).le.trans (hquarter (by norm_num))
    rw [abs_of_nonneg hv] at hsmall
    have herror := h.abs_value_sub_le hx
    rw [abs_of_nonneg hv] at herror
    have hmax : max (v / 2 ^ 53) (2 ^ (-1075 : ℤ)) ≤ 1 / 4 :=
      max_le (by linarith) (hquarter (by norm_num))
    linarith [(abs_le.1 (herror.trans hmax)).2]
  have herror := h.abs_value_sub_le_of_normal hx hnormal
  rw [abs_of_nonneg hv, abs_le] at herror
  constructor <;> linarith [herror.1, herror.2]

end IsNearest

theorem nearestBits_natCast {n : ℕ} (hn : n < 2 ^ 53) :
    ∃ k r : ℕ, nearestBits n 1 = k * leadingBit + r ∧ k ≤ 1074 ∧ (k = 0 ∨ 2 ^ 52 ≤ r) ∧
      r < 2 ^ 53 ∧ (r : ℚ) * 2 ^ ((k : ℤ) - 1074) = n := by
  by_cases hne : n = 0
  · rw [hne]
    exact ⟨0, 0, rfl, Nat.zero_le _, Or.inl rfl, by norm_num, by simp⟩
  -- the first digit is moved to the 53rd place
  have hlog : n.log2 ≤ 52 := Nat.le_of_lt_succ ((Nat.log2_lt hne).2 hn)
  have hlow : 2 ^ 52 ≤ n * 2 ^ (52 - n.log2) :=
    calc 2 ^ 52 = 2 ^ n.log2 * 2 ^ (52 - n.log2) := by rw [← pow_add]; congr 1; omega
      _ ≤ n * 2 ^ (52 - n.log2) := Nat.mul_le_mul_right _ (Nat.log2_self_le hne)
  have hhigh : n * 2 ^ (52 - n.log2) < 2 ^ 53 :=
    calc n * 2 ^ (52 - n.log2) < 2 ^ (n.log2 + 1) * 2 ^ (52 - n.log2) :=
          Nat.mul_lt_mul_of_pos_right Nat.lt_log2_self (by positivity)
      _ = 2 ^ 53 := by rw [← pow_add]; congr 1; omega
  have hvalue : ((n * 2 ^ (52 - n.log2) : ℕ) : ℚ) * 2 ^ ((n.log2 : ℤ) - 52) = n := by
    have hexponent : ((52 - n.log2 : ℕ) : ℤ) + (n.log2 - 52) = 0 := by omega
    push_cast
    rw [mul_assoc, ← zpow_natCast, ← zpow_add₀ (by norm_num), hexponent, zpow_zero, mul_one]
  have hexact := @nearestBits_exact n 1 Nat.one_pos _ _ hhigh
    (by omega : (-1074 : ℤ) ≤ n.log2 - 52) (fun _ => hlow)
    (by rw [hvalue, ratio, Nat.cast_one, div_one])
  have hplace : (((n.log2 : ℤ) - 52 + 1074).toNat : ℤ) - 1074 = n.log2 - 52 := by omega
  have hfinite : ((n.log2 : ℤ) - 52 + 1074).toNat * leadingBit + n * 2 ^ (52 - n.log2) ≤
      infinityBits := by
    rw [infinityBits, leadingBit]
    omega
  rw [min_eq_right hfinite] at hexact
  exact ⟨_, _, hexact, by omega, Or.inr hlow, hhigh, by rw [hplace, hvalue]⟩

theorem value_nearest_natCast (negative : Bool) {n : ℕ} (hn : n < 2 ^ 53) :
    (nearest negative n 1).isFinite = true ∧
      value (nearest negative n 1) = if negative then -(n : ℚ) else n := by
  obtain ⟨k, r, hbits, hk, hlow, hr, hvalue⟩ := nearestBits_natCast hn
  have hfinite : k * leadingBit + r < infinityBits := by
    rw [infinityBits, leadingBit]
    omega
  rw [nearest, hbits]
  constructor
  · rwa [isFinite_iff_magnitudeBits_lt, magnitudeBits_signed _ hfinite.le]
  · rw [value, isNegative_signed _ hfinite.le, absValue_signed _ hr.le hlow hfinite.le, hvalue]

end TroughTrader.Binary64
