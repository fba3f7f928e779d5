import TroughTrader.Proofs.Sizing.Units

/-!
# Counted distances

With an entry above zero and a stop below it, the distance that a budget counts is one that divides
in only three ways: it may have rounded to zero, it is a positive number, or it is infinite
(`IsDistance.cases`). What is divided, the part of the cash that is risked, is finite with the cash
(`isFinite_mul`), and so is the distance with the entry.
-/

namespace TroughTrader

open Binary64

namespace Binary64

/-- Zero with a plus sign, a positive value or infinity. -/
structure IsDistance (x : Float) : Prop where
  isNaN : x.isNaN = false
  isNegative : isNegative x = false

variable {x p : Float}

theorem isDistance_of_rank_pos (h : x.isNaN = false) (hpos : 0 < rank x) : IsDistance x := by
  refine ⟨h, Bool.eq_false_iff.2 fun hsign => ?_⟩
  rw [rank, if_pos hsign] at hpos
  omega

theorem IsDistance.rank_nonneg (h : IsDistance x) : 0 ≤ rank x := by
  rw [rank, h.isNegative, if_neg Bool.false_ne_true]
  exact Int.natCast_nonneg _

theorem IsDistance.cases (h : IsDistance x) :
    x = zero false ∨ (x.isFinite = true ∧ 0 < value x) ∨ x = infinity false := by
  cases hx : x.isFinite with
  | true =>
    rcases h.rank_nonneg.eq_or_lt with hzero | hpos
    · left
      rw [eq_zero_of_rank_eq hzero.symm, h.isNegative]
    · exact Or.inr (Or.inl ⟨rfl, (value_pos_iff hx).2 hpos⟩)
  | false =>
    refine Or.inr (Or.inr ?_)
    rw [eq_infinity h.isNaN hx, h.isNegative]

section Product

variable (hp : p.isFinite = true) (hpos : 0 < value p)
include hp hpos

theorem IsDistance.mul (h : IsDistance x) : IsDistance (x * p) := by
  have hsign := isNegative_of_value_pos hpos
  cases hx : x.isFinite with
  | true =>
    have hnonneg := mul_nonneg (absValue_nonneg x) (absValue_nonneg p)
    obtain ⟨num, den, hden, hratio⟩ := exists_ratio hnonneg
    rw [mul_eq_nearest hx hp hden hratio, h.isNegative, hsign]
    exact ⟨isNaN_signed _ (nearestBits_le num den), isNegative_signed _ (nearestBits_le num den)⟩
  | false =>
    rw [eq_infinity h.isNaN hx, h.isNegative, infinity_mul false hp hpos]
    exact ⟨isNaN_infinity false, isNegative_signed false le_rfl⟩

end Product
end Binary64

namespace RiskBudget

variable (b : RiskBudget) {entry stop : Float}

theorem countedDistance_eq_lesser (hlt : stop < entry) :
    b.countedDistance entry stop = lesser (entry - stop) (entry * b.maxRiskPct) := by
  rw [lesser, (rank_sub_pos hlt).1, if_neg Bool.false_ne_true]
  rfl

theorem isDistance_cap (hpos : 0.0 < entry) : IsDistance (entry * b.maxRiskPct) := by
  obtain ⟨hfinite, hpct, -⟩ := (Settings.isRiskPct_iff _).1 b.isMaxRiskPct
  obtain ⟨hzero, hentry⟩ := isNaN_of_lt hpos
  rw [lt_iff_rank_lt hzero hentry, rank_zero] at hpos
  exact (isDistance_of_rank_pos hentry hpos).mul hfinite hpct

theorem isDistance_countedDistance (hpos : 0.0 < entry) (hlt : stop < entry) :
    IsDistance (b.countedDistance entry stop) := by
  rw [countedDistance_eq_lesser b hlt]
  obtain ⟨hdefined, hrank⟩ := rank_sub_pos hlt
  rcases lesser_eq_or (entry - stop) (entry * b.maxRiskPct) with h | h
  · rw [h]
    exact isDistance_of_rank_pos hdefined hrank
  · rw [h]
    exact b.isDistance_cap hpos

theorem rank_countedDistance (hpos : 0.0 < entry) (hlt : stop < entry) :
    rank (b.countedDistance entry stop) =
      min (rank (entry - stop)) (rank (entry * b.maxRiskPct)) := by
  rw [countedDistance_eq_lesser b hlt]
  exact rank_lesser (rank_sub_pos hlt).1 (b.isDistance_cap hpos).isNaN

theorem countedDistance_le_cap (hpos : 0.0 < entry) (hlt : stop < entry) :
    b.countedDistance entry stop ≤ entry * b.maxRiskPct := by
  rw [le_iff_rank_le (b.isDistance_countedDistance hpos hlt).isNaN (b.isDistance_cap hpos).isNaN,
    b.rank_countedDistance hpos hlt]
  exact min_le_right _ _

/-- A stop that is closer is counted as no further. -/
theorem countedDistance_le {stop' : Float} (hpos : 0.0 < entry) (h : stop ≤ stop')
    (hlt : stop' < entry) : b.countedDistance entry stop' ≤ b.countedDistance entry stop := by
  have hlt' := lt_of_le_of_lt h hlt
  rw [le_iff_rank_le (b.isDistance_countedDistance hpos hlt).isNaN
    (b.isDistance_countedDistance hpos hlt').isNaN, b.rank_countedDistance hpos hlt,
    b.rank_countedDistance hpos hlt']
  apply min_le_min_right
  rw [← le_iff_rank_le (rank_sub_pos hlt).1 (rank_sub_pos hlt').1]
  exact sub_le_sub_of_lt h hlt

theorem countedDistance_of_cap_lt (hcap : entry * b.maxRiskPct < entry - stop) :
    b.countedDistance entry stop = entry * b.maxRiskPct := if_pos hcap

/-- An overflowing distance is not counted. -/
theorem isFinite_countedDistance (hentry : entry.isFinite = true) (hpos : 0.0 < entry)
    (hlt : stop < entry) : (b.countedDistance entry stop).isFinite = true := by
  obtain ⟨hfinite, hpct, hle⟩ := (Settings.isRiskPct_iff _).1 b.isMaxRiskPct
  have hdistance := b.isDistance_countedDistance hpos hlt
  have hnonneg : 0.0 ≤ b.countedDistance entry stop := by
    rw [le_iff_rank_le (isNaN_of_isFinite isFinite_zero) hdistance.isNaN, rank_zero]
    exact hdistance.rank_nonneg
  exact isFinite_of_le_of_le isFinite_zero (isFinite_mul hfinite hpct hle hentry) hnonneg
    (b.countedDistance_le_cap hpos hlt)

end RiskBudget
end TroughTrader
