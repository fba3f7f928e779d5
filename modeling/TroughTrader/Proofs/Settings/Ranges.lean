import TroughTrader.Proofs.Binary64.Value
import TroughTrader.Settings.Basic

/-!
# The ranges of the settings

`Settings.IsWithin` says of the exact values in which range each setting has to be. The test that
accepts a setting (`isInRange_iff`) and the test that refuses one (`refuses_eq`) are both this
range, although the first asks for what is above and below and the second for what is not finite,
below and above: not-a-number and the infinities fail the one and meet the other. So the fault of
settings is the first one, in the order of `SettingsFault.all`, whose range is left
(`fault?_eq_some_iff`).
-/

namespace TroughTrader

open Binary64

namespace Market

theorem isEnvelopePct_iff (pct : Float) :
    isEnvelopePct pct = true ↔ pct.isFinite = true ∧ 0 ≤ value pct ∧ value pct < 100 := by
  rw [isEnvelopePct, Bool.and_eq_true, decide_eq_true_iff, decide_eq_true_iff]
  constructor
  · rintro ⟨hlow, hhigh⟩
    have hfinite := isFinite_of_le_of_le isFinite_zero isFinite_hundred hlow (le_of_lt hhigh)
    rw [le_iff_value_le isFinite_zero hfinite, value_zero] at hlow
    rw [lt_iff_value_lt hfinite isFinite_hundred, value_hundred] at hhigh
    exact ⟨hfinite, hlow, hhigh⟩
  · rintro ⟨hfinite, hlow, hhigh⟩
    rw [le_iff_value_le isFinite_zero hfinite, value_zero,
      lt_iff_value_lt hfinite isFinite_hundred, value_hundred]
    exact ⟨hlow, hhigh⟩

end Market

namespace Settings

theorem isRiskPct_iff (pct : Float) :
    isRiskPct pct = true ↔ pct.isFinite = true ∧ 0 < value pct ∧ value pct ≤ 1 := by
  rw [isRiskPct, Bool.and_eq_true, decide_eq_true_iff, decide_eq_true_iff]
  constructor
  · rintro ⟨hlow, hhigh⟩
    have hfinite := isFinite_of_le_of_le isFinite_zero isFinite_one (le_of_lt hlow) hhigh
    rw [lt_iff_value_lt isFinite_zero hfinite, value_zero] at hlow
    rw [le_iff_value_le hfinite isFinite_one, value_one] at hhigh
    exact ⟨hfinite, hlow, hhigh⟩
  · rintro ⟨hfinite, hlow, hhigh⟩
    rw [lt_iff_value_lt isFinite_zero hfinite, value_zero,
      le_iff_value_le hfinite isFinite_one, value_one]
    exact ⟨hlow, hhigh⟩

/-- The range of the setting that a fault is about, as one of exact values. -/
def IsWithin (s : Settings) : SettingsFault → Prop
  | .cycleLength => 1 ≤ s.cycleLength.toNat
  | .envelopePct =>
    s.envelopePct.isFinite = true ∧ 0 ≤ value s.envelopePct ∧ value s.envelopePct < 100
  | .minSpaceFrac => s.minSpaceFrac.isFinite = true ∧ 0 ≤ value s.minSpaceFrac
  | .riskPct => s.riskPct.isFinite = true ∧ 0 < value s.riskPct ∧ value s.riskPct ≤ 1
  | .maxRiskPct =>
    s.maxRiskPct.isFinite = true ∧ 0 < value s.maxRiskPct ∧ value s.maxRiskPct ≤ 1

theorem isInRange_iff (s : Settings) (f : SettingsFault) :
    s.isInRange f = true ↔ s.IsWithin f := by
  cases f with
  | cycleLength => exact decide_eq_true_iff
  | envelopePct => exact Market.isEnvelopePct_iff s.envelopePct
  | minSpaceFrac =>
    rw [isInRange, IsWithin, Bool.and_eq_true, decide_eq_true_iff]
    refine and_congr_right fun hfinite => ?_
    rw [le_iff_value_le isFinite_zero hfinite, value_zero]
  | riskPct => exact isRiskPct_iff s.riskPct
  | maxRiskPct => exact isRiskPct_iff s.maxRiskPct

def refusesRiskPct (pct : Float) : Bool := !pct.isFinite || pct ≤ 0.0 || 1.0 < pct

/-- Whether a setting is refused: not finite, or beyond one of its bounds. -/
def refuses (s : Settings) : SettingsFault → Bool
  | .cycleLength => s.cycleLength < 1
  | .envelopePct => !s.envelopePct.isFinite || !Market.isEnvelopePct s.envelopePct
  | .minSpaceFrac => !s.minSpaceFrac.isFinite || s.minSpaceFrac < 0.0
  | .riskPct => refusesRiskPct s.riskPct
  | .maxRiskPct => refusesRiskPct s.maxRiskPct

theorem refusesRiskPct_eq (pct : Float) : refusesRiskPct pct = !isRiskPct pct := by
  rw [Bool.eq_iff_iff, Bool.not_eq_true', Bool.eq_false_iff, ne_eq, isRiskPct_iff, refusesRiskPct]
  cases hfinite : pct.isFinite with
  | false => simp
  | true =>
    simp only [Bool.not_true, Bool.false_or, Bool.or_eq_true, decide_eq_true_iff, true_and,
      le_iff_value_le hfinite isFinite_zero, lt_iff_value_lt isFinite_one hfinite, value_zero,
      value_one]
    rw [not_and_or, not_lt, not_le]

theorem refuses_eq (s : Settings) (f : SettingsFault) : s.refuses f = !s.isInRange f := by
  cases f with
  | cycleLength =>
    rw [refuses, isInRange, ← decide_not, decide_eq_decide, UInt64.lt_iff_toNat_lt, Nat.not_le]
    rfl
  | envelopePct =>
    cases hfinite : s.envelopePct.isFinite with
    | false =>
      have hout : Market.isEnvelopePct s.envelopePct = false := by
        rw [Bool.eq_false_iff, ne_eq, Market.isEnvelopePct_iff, hfinite]
        simp
      rw [refuses, isInRange, hfinite, hout]
      rfl
    | true =>
      rw [refuses, isInRange, hfinite]
      rfl
  | minSpaceFrac =>
    rw [refuses, isInRange]
    cases hfinite : s.minSpaceFrac.isFinite with
    | false => rfl
    | true =>
      rw [Bool.not_true, Bool.false_or, Bool.true_and, ← decide_not, decide_eq_decide,
        lt_iff_value_lt hfinite isFinite_zero, le_iff_value_le isFinite_zero hfinite, not_le]
  | riskPct => exact refusesRiskPct_eq s.riskPct
  | maxRiskPct => exact refusesRiskPct_eq s.maxRiskPct

/-- A setting is out of range, and those that come before it in the order are not. -/
def IsFirstFault (s : Settings) (f : SettingsFault) : Prop :=
  ¬ s.IsWithin f ∧
    ∃ before after, SettingsFault.all = before ++ f :: after ∧ ∀ g ∈ before, s.IsWithin g

theorem fault?_eq_some_iff (s : Settings) (f : SettingsFault) :
    s.fault? = some f ↔ s.IsFirstFault f := by
  rw [fault?, List.find?_eq_some_iff_append, IsFirstFault]
  simp only [Bool.not_eq_true', Bool.not_not, ← isInRange_iff, Bool.not_eq_true]

end Settings

namespace SoundSettings

variable {s : Settings}

theorem fault?_of_error {fault : SettingsFault} (h : ofSettings s = .error fault) :
    s.fault? = some fault := by
  unfold ofSettings at h
  split at h
  · cases h
  · cases h
    assumption

theorem toSettings_of_ok {sound : SoundSettings} (h : ofSettings s = .ok sound) :
    sound.toSettings = s := by
  unfold ofSettings at h
  split at h
  · cases h
    rfl
  · cases h

end SoundSettings
end TroughTrader
