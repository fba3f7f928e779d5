import TroughTrader.Proofs.Sizing.Distance

/-!
# Sizes grow with the cash and with the stop

A quotient that is not a number, negative, zero or below one gives the fallback of the policy, the
least size there is; a quotient that is infinite gives the largest one. So the size that a quotient
by a distance gives grows with what is divided (`wholeUnits_div_mono`) and falls as the distance
grows (`wholeUnits_div_anti`), also where the quotient goes through not-a-number on the way. The
cash moves only what is divided and the stop only the distance.
-/

namespace TroughTrader

open Binary64

namespace RiskBudget

section Units

variable (policy : SmallSize) {x y : Float}

theorem fallback_le_wholeUnits (x : Float) : fallback policy ≤ wholeUnits policy x := by
  cases hx : x.isNaN with
  | true =>
    rw [wholeUnits_of_isNaN policy hx]
    exact UInt64.le_refl _
  | false =>
    by_cases hlt : x < 1.0
    · rw [wholeUnits_of_lt_one policy hlt]
      exact UInt64.le_refl _
    · rw [wholeUnits_of_not_lt_one policy hx hlt]
      cases policy with
      | clampToOne => exact one_le_toUInt64 hx hlt
      | skip => exact UInt64.zero_le

theorem wholeUnits_mono (h : x ≤ y) : wholeUnits policy x ≤ wholeUnits policy y := by
  obtain ⟨hx, hy⟩ := isNaN_of_le h
  by_cases hlt : x < 1.0
  · rw [wholeUnits_of_lt_one policy hlt]
    exact fallback_le_wholeUnits policy y
  · have hlt' : ¬ y < 1.0 := fun hy => hlt (lt_of_le_of_lt h hy)
    rw [wholeUnits_of_not_lt_one policy hx hlt, wholeUnits_of_not_lt_one policy hy hlt']
    exact toUInt64_mono h

theorem wholeUnits_le_infinity (x : Float) :
    wholeUnits policy x ≤ wholeUnits policy (infinity false) := by
  cases hx : x.isNaN with
  | true =>
    rw [wholeUnits_of_isNaN policy hx]
    exact fallback_le_wholeUnits policy _
  | false => exact wholeUnits_mono policy (le_infinity hx)

theorem wholeUnits_of_rank_nonpos (h : rank x ≤ 0) : wholeUnits policy x = fallback policy := by
  cases hx : x.isNaN with
  | true => exact wholeUnits_of_isNaN policy hx
  | false =>
    apply wholeUnits_of_lt_one
    rw [lt_iff_rank_lt hx (isNaN_of_isFinite isFinite_one)]
    exact h.trans_lt (by decide)

end Units

section Quotient

variable (policy : SmallSize) {r r' d d' : Float}

theorem wholeUnits_div_infinity (hr : r.isNaN = false) :
    wholeUnits policy (r / infinity false) = fallback policy := by
  cases hfinite : r.isFinite with
  | true =>
    rw [div_infinity hfinite]
    apply wholeUnits_of_rank_nonpos
    cases isNegative r <;> decide
  | false =>
    rw [eq_infinity hr hfinite]
    exact wholeUnits_of_isNaN policy (isNaN_infinity_div_infinity _)

theorem wholeUnits_div_of_rank_nonpos (hr : r.isNaN = false) (hrank : rank r ≤ 0)
    (hd : IsDistance d) : wholeUnits policy (r / d) = fallback policy := by
  rcases hd.cases with rfl | ⟨hfinite, hpos⟩ | rfl
  · by_cases hzero : rank r = 0
    · rw [eq_zero_of_rank_eq hzero]
      exact wholeUnits_of_isNaN policy (isNaN_zero_div_zero _)
    · have hsign : isNegative r = true := by
        rw [rank] at hrank hzero
        split at hrank <;> simp_all
      rw [div_zero_of_rank_ne hr hzero, hsign]
      exact wholeUnits_of_rank_nonpos policy (by decide)
  · apply wholeUnits_of_rank_nonpos
    have hzero := isNaN_of_isFinite isFinite_zero
    have hle : r ≤ 0.0 := by rwa [le_iff_rank_le hr hzero, rank_zero]
    have hquotient := div_le_div_of_pos hfinite hpos hle
    obtain ⟨hdefined, hdefined'⟩ := isNaN_of_le hquotient
    rwa [le_iff_rank_le hdefined hdefined', (isNearest_div isFinite_zero hfinite hpos.ne').rank,
      value_zero, zero_div, nearestRank_zero] at hquotient
  · exact wholeUnits_div_infinity policy hr

/-- What is above zero and divided by a distance that has rounded to zero buys all it can. -/
theorem div_zero_of_rank_pos (hr : r.isNaN = false) (hrank : 0 < rank r) :
    r / zero false = infinity false := by
  rw [div_zero_of_rank_ne hr hrank.ne', (isDistance_of_rank_pos hr hrank).isNegative]

theorem wholeUnits_div_mono (h : r ≤ r') (hd : IsDistance d) :
    wholeUnits policy (r / d) ≤ wholeUnits policy (r' / d) := by
  obtain ⟨hr, hr'⟩ := isNaN_of_le h
  rcases hd.cases with rfl | ⟨hfinite, hpos⟩ | rfl
  · rcases le_or_gt (rank r') 0 with hrank | hrank
    · have hle := ((le_iff_rank_le hr hr').1 h).trans hrank
      rw [wholeUnits_div_of_rank_nonpos policy hr hle hd]
      exact fallback_le_wholeUnits policy _
    · rw [div_zero_of_rank_pos hr' hrank]
      exact wholeUnits_le_infinity policy _
  · exact wholeUnits_mono policy (div_le_div_of_pos hfinite hpos h)
  · rw [wholeUnits_div_infinity policy hr]
    exact fallback_le_wholeUnits policy _

theorem wholeUnits_div_anti (hr : r.isNaN = false) (hd : IsDistance d) (hd' : IsDistance d')
    (h : d ≤ d') : wholeUnits policy (r / d') ≤ wholeUnits policy (r / d) := by
  rcases le_or_gt (rank r) 0 with hrank | hrank
  · rw [wholeUnits_div_of_rank_nonpos policy hr hrank hd']
    exact fallback_le_wholeUnits policy _
  · rcases hd.cases with rfl | ⟨hfinite, hpos⟩ | rfl
    · rw [div_zero_of_rank_pos hr hrank]
      exact wholeUnits_le_infinity policy _
    · rcases le_cases h with rfl | rfl | ⟨-, hfinite', -⟩
      · exact absurd hfinite (by decide)
      · rw [wholeUnits_div_infinity policy hr]
        exact fallback_le_wholeUnits policy _
      · exact wholeUnits_mono policy (div_le_div_of_le hfinite hpos hfinite' hr hrank.le h)
    · rw [eq_infinity_of_le h]
      exact UInt64.le_refl _

end Quotient

section Size

variable (b : RiskBudget) {entry stop stop' cash cash' : Float}

theorem size_le_of_cash_le (hpos : 0.0 < entry) (h : cash ≤ cash') :
    b.size entry stop cash ≤ b.size entry stop cash' := by
  obtain ⟨hfinite, hpct, -⟩ := (Settings.isRiskPct_iff _).1 b.isRiskPct
  rw [size_eq, size_eq]
  by_cases hlt : stop < entry
  · rw [if_pos hlt, if_pos hlt]
    exact wholeUnits_div_mono b.smallSize (mul_le_mul_of_pos hfinite hpct h)
      (b.isDistance_countedDistance hpos hlt)
  · rw [if_neg hlt, if_neg hlt]
    exact UInt64.le_refl _

theorem size_le_of_stop_le (hpos : 0.0 < entry) (hcash : cash.isNaN = false) (h : stop ≤ stop')
    (hlt : stop' < entry) : b.size entry stop cash ≤ b.size entry stop' cash := by
  obtain ⟨hfinite, hpct, -⟩ := (Settings.isRiskPct_iff _).1 b.isRiskPct
  have hlt' := lt_of_le_of_lt h hlt
  have hrisk := (isNaN_of_le (mul_le_mul_of_pos hfinite hpct (le_self hcash))).1
  rw [size_eq, size_eq, if_pos hlt', if_pos hlt]
  exact wholeUnits_div_anti b.smallSize hrisk (b.isDistance_countedDistance hpos hlt)
    (b.isDistance_countedDistance hpos hlt') (b.countedDistance_le hpos h hlt)

theorem size_eq_of_cap_lt (hlt : stop < entry) (hlt' : stop' < entry)
    (hcap : entry * b.maxRiskPct < entry - stop) (hcap' : entry * b.maxRiskPct < entry - stop') :
    b.size entry stop cash = b.size entry stop' cash := by
  rw [size_eq, size_eq, if_pos hlt, if_pos hlt', quotient, quotient,
    b.countedDistance_of_cap_lt hcap, b.countedDistance_of_cap_lt hcap']

/-- More cash never buys less, a closer stop never buys less, and beyond the cap the stop does not
matter. -/
theorem size_mono (hpos : 0.0 < entry) :
    (∀ stop cash cash', cash ≤ cash' → b.size entry stop cash ≤ b.size entry stop cash') ∧
    (∀ cash stop stop', cash.isNaN = false → stop ≤ stop' → stop' < entry →
      b.size entry stop cash ≤ b.size entry stop' cash) ∧
    (∀ cash stop stop', stop < entry → stop' < entry →
      entry * b.maxRiskPct < entry - stop → entry * b.maxRiskPct < entry - stop' →
      b.size entry stop cash = b.size entry stop' cash) :=
  ⟨fun _ _ _ h => b.size_le_of_cash_le hpos h,
    fun _ _ _ hcash h hlt => b.size_le_of_stop_le hpos hcash h hlt,
    fun _ _ _ hlt hlt' hcap hcap' => b.size_eq_of_cap_lt hlt hlt' hcap hcap'⟩

end Size

/-- More cash, then a closer stop, then two stops beyond the cap. -/
theorem size_mono_two_percent :
    let b := twoPercent .clampToOne
    make? 0.02 0.05 .clampToOne = .ok b ∧ 0.0 < (99.0 : Float) ∧
      (b.size 99.0 98.0 1000.0 = 20 ∧ b.size 99.0 98.0 10000.0 = 200 ∧
        b.size 99.0 97.0 10000.0 = 100 ∧ b.size 99.0 50.0 10000.0 = 40) ∧
      b.size 99.0 98.0 1000.0 ≤ b.size 99.0 98.0 10000.0 ∧
      b.size 99.0 97.0 10000.0 ≤ b.size 99.0 98.0 10000.0 ∧
      b.size 99.0 50.0 10000.0 = b.size 99.0 60.0 10000.0 := by
  intro b
  have hpos : 0.0 < (99.0 : Float) := by decide
  obtain ⟨hcash, hstop, hcap⟩ := b.size_mono hpos
  refine ⟨make?_eq_ok_iff.2 ⟨rfl, rfl, rfl⟩, hpos,
    ⟨by decide, by decide, by decide, by decide⟩, ?_, ?_, ?_⟩
  · exact hcash 98.0 1000.0 10000.0 (by decide)
  · exact hstop 10000.0 97.0 98.0 (by decide) (by decide) (by decide)
  · exact hcap 10000.0 50.0 60.0 (by decide) (by decide) (by decide)
      (by decide)

end RiskBudget
end TroughTrader
