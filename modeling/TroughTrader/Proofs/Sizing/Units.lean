import TroughTrader.Proofs.Binary64.Monotone
import TroughTrader.Proofs.Binary64.Whole
import TroughTrader.Proofs.Settings.Ranges
import TroughTrader.Sizing.RiskBudget

/-!
# Whole units

A size may be told from the quotient or from its floor (`size_eq_floored`), with a quotient of its
own where the distance is capped. Where the stop is below the entry it is a function of the quotient
alone, `wholeUnits`, and elsewhere it is zero (`size_eq`): the difference of two values in strict
order is positive, so the second test for a stop never fails after the first. A floor that is above
zero is at least one unit, which tells exactly when nothing is bought.
-/

namespace TroughTrader

open Binary64

namespace RiskBudget

theorem make?_eq_ok_iff {riskPct maxRiskPct : Float} {policy : SmallSize} {b : RiskBudget} :
    make? riskPct maxRiskPct policy = .ok b ↔
      b.riskPct = riskPct ∧ b.maxRiskPct = maxRiskPct ∧ b.smallSize = policy := by
  constructor
  · intro h
    rw [make?] at h
    split at h
    · split at h
      · cases h
        exact ⟨rfl, rfl, rfl⟩
      · cases h
    · cases h
  · rintro ⟨rfl, rfl, rfl⟩
    rw [make?, dif_pos b.isRiskPct, dif_pos b.isMaxRiskPct]

def twoPercent (policy : SmallSize) : RiskBudget where
  riskPct := 0.02
  maxRiskPct := 0.05
  smallSize := policy
  isRiskPct := by decide
  isMaxRiskPct := by decide

/-- The size that a number of units gives, fractions and not-a-number included. -/
def wholeUnits (policy : SmallSize) (units : Float) : UInt64 :=
  if units.isNaN || units < 1.0 then fallback policy else units.toUInt64

section Units

variable (policy : SmallSize) {units : Float}

theorem wholeUnits_of_isNaN (h : units.isNaN = true) :
    wholeUnits policy units = fallback policy := by
  rw [wholeUnits, h, Bool.true_or, if_pos rfl]

theorem wholeUnits_of_lt_one (h : units < 1.0) : wholeUnits policy units = fallback policy := by
  rw [wholeUnits, decide_eq_true h, Bool.or_true, if_pos rfl]

theorem wholeUnits_of_not_lt_one (h : units.isNaN = false) (h' : ¬ units < 1.0) :
    wholeUnits policy units = units.toUInt64 := by
  rw [wholeUnits, h, Bool.false_or, if_neg (by rwa [decide_eq_true_iff])]

end Units

theorem wholeUnits_eq_floor (policy : SmallSize) (units : Float) :
    wholeUnits policy units =
      if (floor units).isNaN || floor units ≤ 0.0 then fallback policy
      else (floor units).toUInt64 := by
  rw [wholeUnits, isNaN_floor]
  cases h : units.isNaN with
  | true => rfl
  | false => simp only [floor_le_zero_iff h, toUInt64_floor]

/-- The size from the floor of the quotient, with the policy's choice unless it is above zero. -/
theorem size_eq_floored (b : RiskBudget) (entry stop cash : Float) :
    let d := entry - stop
    let m := entry * b.maxRiskPct
    let whole := if m < d then floor (cash * b.riskPct / m) else floor (cash * b.riskPct / d)
    b.size entry stop cash =
      if entry ≤ stop then 0
      else if d.isNaN || d ≤ 0.0 then 0
      else if whole.isNaN || whole ≤ 0.0 then fallback b.smallSize
      else whole.toUInt64 := by
  intro d m whole
  have hwhole : floor (b.quotient entry stop cash) = whole :=
    apply_ite (fun distance => floor (cash * b.riskPct / distance)) (m < d) m d
  have hunits := wholeUnits_eq_floor b.smallSize (b.quotient entry stop cash)
  rw [hwhole] at hunits
  rw [← hunits]
  rfl

section Stop

variable (b : RiskBudget) {entry stop : Float} (cash : Float)

theorem size_of_lt (h : stop < entry) :
    b.size entry stop cash =
      let whole := floor (b.quotient entry stop cash)
      if whole.isNaN || whole ≤ 0.0 then fallback b.smallSize else whole.toUInt64 := by
  obtain ⟨hdefined, hpos⟩ := rank_sub_pos h
  have hle : ¬ entry - stop ≤ 0.0 := by
    rw [le_iff_rank_le hdefined (isNaN_of_isFinite isFinite_zero), rank_zero]
    omega
  rw [size_eq_floored, if_neg fun hle => not_lt_of_le hle h, hdefined, Bool.false_or,
    if_neg (by rwa [decide_eq_true_iff]), ← apply_ite fun d => floor (cash * b.riskPct / d)]
  rfl

theorem size_of_not_lt (h : ¬ stop < entry) : b.size entry stop cash = 0 := by
  rw [size_eq_floored]
  by_cases hle : entry ≤ stop
  · rw [if_pos hle]
  · -- two values that are in no order
    have hundefined : entry.isNaN = true ∨ stop.isNaN = true := by
      by_contra hdefined
      obtain ⟨hentry, hstop⟩ := not_or.1 hdefined
      rw [Bool.not_eq_true] at hentry hstop
      rw [lt_iff_rank_lt hstop hentry] at h
      rw [le_iff_rank_le hentry hstop] at hle
      omega
    rw [if_neg hle, isNaN_sub hundefined, Bool.true_or, if_pos rfl]

end Stop

theorem size_eq (b : RiskBudget) (entry stop cash : Float) :
    b.size entry stop cash =
      if stop < entry then wholeUnits b.smallSize (b.quotient entry stop cash) else 0 := by
  split
  case isTrue h => rw [b.size_of_lt cash h, wholeUnits_eq_floor]
  case isFalse h => exact b.size_of_not_lt cash h

/-- When nothing is bought. A budget that clamps buys whenever the stop is below the entry, and one
that skips buys unless the floored quotient is not a number or not above zero. -/
theorem size_eq_zero_iff (b : RiskBudget) (entry stop cash : Float) :
    let d := entry - stop
    let m := entry * b.maxRiskPct
    let whole := floor (cash * b.riskPct / if m < d then m else d)
    let clamping := { b with smallSize := .clampToOne }
    let skipping := { b with smallSize := .skip }
    (clamping.size entry stop cash = 0 ↔ ¬ stop < entry) ∧
      (skipping.size entry stop cash = 0 ↔
        ¬ stop < entry ∨ whole.isNaN = true ∨ whole ≤ 0.0) ∧
      (stop < entry → clamping.size entry stop cash = max 1 (skipping.size entry stop cash)) := by
  intro d m whole clamping skipping
  by_cases hlt : stop < entry
  · have hclamping := clamping.size_of_lt cash hlt
    have hskipping := skipping.size_of_lt cash hlt
    change clamping.size entry stop cash =
      if whole.isNaN || whole ≤ 0.0 then 1 else whole.toUInt64 at hclamping
    change skipping.size entry stop cash =
      if whole.isNaN || whole ≤ 0.0 then 0 else whole.toUInt64 at hskipping
    have htest : (whole.isNaN || whole ≤ 0.0) = true ↔ whole.isNaN = true ∨ whole ≤ 0.0 := by
      rw [Bool.or_eq_true, decide_eq_true_iff]
    rw [hclamping, hskipping, or_iff_right (not_not.2 hlt), ← htest]
    by_cases hnone : (whole.isNaN || whole ≤ 0.0) = true
    · rw [if_pos hnone, if_pos hnone]
      exact ⟨iff_of_false (by decide) (not_not.2 hlt), iff_of_true rfl hnone, fun _ => rfl⟩
    · have hone : 1 ≤ whole.toUInt64 := one_le_toUInt64_floor hnone
      have hne : whole.toUInt64 ≠ 0 := by
        intro hzero
        rw [hzero] at hone
        exact absurd hone (by decide)
      rw [if_neg hnone, if_neg hnone]
      exact ⟨iff_of_false hne (not_not.2 hlt), iff_of_false hne hnone, fun _ => (if_pos hone).symm⟩
  · rw [clamping.size_of_not_lt cash hlt, skipping.size_of_not_lt cash hlt]
    exact ⟨iff_of_true rfl hlt, iff_of_true rfl (Or.inl hlt), fun h => absurd h hlt⟩

end RiskBudget
end TroughTrader
