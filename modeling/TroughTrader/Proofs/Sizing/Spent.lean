import TroughTrader.Proofs.Sizing.Distance

/-!
# The budget is kept and used up

Over the counted distance, the units that are bought lose no more than the budget and one unit more
would lose more, up to the error of one division (`size_fits_budget`). A distance that overflows
counts as the cap, and one that has rounded to zero costs nothing; a quotient that is too large for
a count leaves only the first half.
-/

namespace TroughTrader

open Binary64

namespace RiskBudget

section Units

variable {r d : Float} (hr : r.isFinite = true) (hd : d.isFinite = true) (hpos : 0 < value d)
include hr hd hpos

theorem lt_of_div_lt_one (h : r / d < 1.0) : value r < value d := by
  have hnearest := (isNearest_div hr hd hpos.ne').lt_of_lt (isNearest_value isFinite_one) h
  rwa [value_one, div_lt_one hpos] at hnearest

theorem toUInt64_div_bounds (hnonneg : 0 ≤ value r) (h : ¬ r / d < 1.0) :
    ((r / d).toUInt64.toNat : ℚ) * value d ≤ value r * (1 + 1 / 2 ^ 53) ∧
      ((r / d).toUInt64.toNat < 2 ^ 64 - 1 →
        value r * (1 - 1 / 2 ^ 53) < ((r / d).toUInt64.toNat + 1) * value d) := by
  have hnearest := isNearest_div hr hd hpos.ne'
  have hratio : 0 ≤ value r / value d := div_nonneg hnonneg hpos.le
  have hshare (c : ℚ) : value r / value d * c * value d = value r * c := by
    rw [mul_right_comm, div_mul_cancel₀ _ hpos.ne']
  cases hfinite : (r / d).isFinite with
  | true =>
    have hone : 1 ≤ value (r / d) := by
      rw [lt_iff_value_lt hfinite isFinite_one, value_one] at h
      exact not_lt.1 h
    obtain ⟨hlow, hhigh⟩ := hnearest.bounds_of_one_le hratio hfinite hone
    obtain ⟨hwhole, hnext⟩ := toUInt64_bounds hfinite (zero_le_one.trans hone)
    refine ⟨?_, fun hlt => ?_⟩
    · rw [← hshare]
      exact mul_le_mul_of_nonneg_right (hwhole.trans hhigh) hpos.le
    · rw [← hshare]
      exact mul_lt_mul_of_pos_right (hlow.trans_lt (hnext hlt)) hpos
  | false =>
    -- what is left is infinity, which stands for more than the largest count
    have hinfinite := eq_infinity hnearest.isNaN hfinite
    have hlarge := hnearest.lt_of_infinite hfinite
    have hcount : (r / d).toUInt64.toNat = 2 ^ 64 - 1 := by
      rw [hinfinite] at h ⊢
      cases hsign : isNegative (r / d) with
      | true =>
        rw [hsign] at h
        exact absurd (by decide) h
      | false => rw [toUInt64_infinity, if_neg Bool.false_ne_true]
    rw [abs_of_nonneg hratio, lt_div_iff₀ hpos] at hlarge
    rw [hcount]
    refine ⟨?_, fun hlt => absurd hlt (lt_irrefl _)⟩
    calc ((2 ^ 64 - 1 : ℕ) : ℚ) * value d ≤ 2 ^ 64 * value d := by gcongr; norm_num
      _ ≤ value r := hlarge.le
      _ ≤ value r * (1 + 1 / 2 ^ 53) := le_mul_of_one_le_right hnonneg (by norm_num)

end Units

theorem not_two_le_fallback (policy : SmallSize) : ¬ 2 ≤ fallback policy := by
  cases policy <;> decide

theorem value_risk_nonneg (b : RiskBudget) {cash : Float} (hcash : cash.isFinite = true)
    (hnonneg : 0.0 ≤ cash) : 0 ≤ value (cash * b.riskPct) := by
  obtain ⟨hfinite, hpct, -⟩ := (Settings.isRiskPct_iff _).1 b.isRiskPct
  rw [le_iff_value_le isFinite_zero hcash, value_zero] at hnonneg
  rw [value_of_rank_nonneg]
  · exact absValue_nonneg _
  · rw [(isNearest_mul hcash hfinite).rank]
    exact nearestRank_nonneg (mul_nonneg hnonneg hpct.le)

/-- The units that are bought lose no more than the budget over the counted distance, and one more
would lose more. The quotient is rounded once, so both hold up to one part in `2 ^ 53`. -/
theorem size_fits_budget (b : RiskBudget) {entry stop cash : Float}
    (hentry : entry.isFinite = true) (hpos : 0.0 < entry) (hlt : stop < entry)
    (hcash : cash.isFinite = true) (hnonneg : 0.0 ≤ cash)
    (hsize : b.smallSize = .skip ∨ 2 ≤ b.size entry stop cash) :
    let r := cash * b.riskPct
    let e := lesser (entry - stop) (entry * b.maxRiskPct)
    let n := (b.size entry stop cash).toNat
    r.isFinite = true ∧ e.isFinite = true ∧ (n : ℚ) * value e ≤ value r * (1 + 1 / 2 ^ 53) ∧
      (0 < value e → n < 2 ^ 64 - 1 → value r * (1 - 1 / 2 ^ 53) < (n + 1) * value e) := by
  intro r e n
  obtain ⟨hpct, hpctpos, hpctle⟩ := (Settings.isRiskPct_iff _).1 b.isRiskPct
  have hr : r.isFinite = true := isFinite_mul hpct hpctpos hpctle hcash
  have hr₀ : 0 ≤ value r := b.value_risk_nonneg hcash hnonneg
  have he : b.countedDistance entry stop = e := b.countedDistance_eq_lesser hlt
  have hfinite : e.isFinite = true := he ▸ b.isFinite_countedDistance hentry hpos hlt
  have hdistance : IsDistance e := he ▸ b.isDistance_countedDistance hpos hlt
  have hunits : b.size entry stop cash = wholeUnits b.smallSize (r / e) := by
    rw [size_eq, if_pos hlt, quotient, he]
  have hslack : 0 ≤ value r * (1 + 1 / 2 ^ 53) := by positivity
  refine ⟨hr, hfinite, ?_⟩
  rcases hdistance.cases with hzero | ⟨-, he₀⟩ | hinfinite
  · have hvalue : value e = 0 := by
      rw [hzero, ← value_zero]
      exact value_eq_of_rank_eq (by decide)
    rw [hvalue, mul_zero]
    exact ⟨hslack, fun h => absurd h (lt_irrefl _)⟩
  · have hdefined := (isNearest_div hr hfinite he₀.ne').isNaN
    by_cases hless : r / e < 1.0
    · have hfallback := hunits.trans (wholeUnits_of_lt_one b.smallSize hless)
      have hskip : n = 0 := by
        rcases hsize with h | h
        · rw [h] at hfallback
          exact congrArg UInt64.toNat hfallback
        · rw [hfallback] at h
          exact absurd h (not_two_le_fallback _)
      have hcost := lt_of_div_lt_one hr hfinite he₀ hless
      rw [hskip, Nat.cast_zero, zero_mul, zero_add, one_mul]
      refine ⟨hslack, fun _ _ => lt_of_le_of_lt ?_ hcost⟩
      exact mul_le_of_le_one_right hr₀ (by norm_num)
    · have hcount : n = (r / e).toUInt64.toNat := congrArg UInt64.toNat
        (hunits.trans (wholeUnits_of_not_lt_one b.smallSize hdefined hless))
      obtain ⟨hle, hnext⟩ := toUInt64_div_bounds hr hfinite he₀ hr₀ hless
      rw [hcount]
      exact ⟨hle, fun _ => hnext⟩
  · rw [hinfinite] at hfinite
    exact absurd hfinite (by decide)

/-- A budget of two hundred over a distance of three buys sixty-six. -/
theorem size_fits_budget_two_percent :
    let b := twoPercent .skip
    let r := (10000.0 : Float) * b.riskPct
    let e := lesser ((100.0 : Float) - 97.0) ((100.0 : Float) * b.maxRiskPct)
    make? 0.02 0.05 .skip = .ok b ∧ b.size 100.0 97.0 10000.0 = 66 ∧ value e = 3 ∧
      value r = 200 ∧ (66 : ℚ) * value e ≤ value r * (1 + 1 / 2 ^ 53) ∧
      value r * (1 - 1 / 2 ^ 53) < 67 * value e := by
  intro b r e
  have hentry : (100.0 : Float).isFinite = true := by decide
  have hpos : 0.0 < (100.0 : Float) := by decide
  have hlt : (97.0 : Float) < 100.0 := by decide
  have hcash : (10000.0 : Float).isFinite = true := by decide
  have hnonneg : 0.0 ≤ (10000.0 : Float) := by decide
  have hsize : b.size 100.0 97.0 10000.0 = 66 := by decide
  have hdistance : value e = 3 := by
    rw [@value_of_significand_eq e (3 * 2 ^ 51) (-51) (by decide) (by decide)]
    norm_num
  have hrisk : value r = 200 := by
    rw [@value_of_significand_eq r (25 * 2 ^ 48) (-45) (by decide) (by decide)]
    norm_num
  obtain ⟨-, -, hle, hnext⟩ := b.size_fits_budget hentry hpos hlt hcash hnonneg (Or.inl rfl)
  rw [hsize] at hle hnext
  refine ⟨make?_eq_ok_iff.2 ⟨rfl, rfl, rfl⟩, hsize, hdistance, hrisk, hle, ?_⟩
  have hmore := hnext (by rw [hdistance]; norm_num) (by decide)
  have hcount : (((66 : UInt64).toNat : ℕ) : ℚ) + 1 = 67 := by
    change ((66 : ℕ) : ℚ) + 1 = 67
    norm_num
  rwa [hcount] at hmore

end RiskBudget
end TroughTrader
