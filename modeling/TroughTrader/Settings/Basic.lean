import TroughTrader.Binary64.Count
import TroughTrader.Digest.Blake3
import TroughTrader.Decimal.Layout
import TroughTrader.Market.Average

/-!
# Settings of a strategy

Seven settings stay fixed for a run. `Settings.fault?` names the first one that is out of range;
`requiredBars`, `minGap` and `envelopeFactor` are derived from them, and the fingerprint is the
BLAKE3 hash of a text that shows every setting exactly.
-/

namespace TroughTrader

/-- What is bought when the risk budget is too small for one unit. -/
inductive SmallSize where
  | clampToOne
  | skip
  deriving DecidableEq

structure Settings where
  cycleLength : UInt64
  envelopePct : Float
  /-- How many bars ago the close must have crossed above the average. -/
  confirmBars : UInt64
  /-- The least gap between entries, as a fraction of the cycle. -/
  minSpaceFrac : Float
  riskPct : Float
  /-- The largest stop distance that counts, as a fraction of the entry price. -/
  maxRiskPct : Float
  smallSize : SmallSize

inductive Setting where
  | cycleLength
  | envelopePct
  | confirmBars
  | minSpaceFrac
  | riskPct
  | maxRiskPct
  | smallSize
  deriving DecidableEq

namespace Setting

def key : Setting → String
  | cycleLength => "cycle_length"
  | envelopePct => "envelope_pct"
  | confirmBars => "confirm_bars"
  | minSpaceFrac => "min_space_frac"
  | riskPct => "risk_pct"
  | maxRiskPct => "max_risk_pct"
  | smallSize => "min_size_policy"

def all : List Setting :=
  [cycleLength, envelopePct, confirmBars, minSpaceFrac, riskPct, maxRiskPct, smallSize]

end Setting

inductive SettingsFault where
  | cycleLength
  | envelopePct
  | minSpaceFrac
  | riskPct
  | maxRiskPct
  deriving DecidableEq

namespace SettingsFault

def all : List SettingsFault := [cycleLength, envelopePct, minSpaceFrac, riskPct, maxRiskPct]

def setting : SettingsFault → Setting
  | cycleLength => .cycleLength
  | envelopePct => .envelopePct
  | minSpaceFrac => .minSpaceFrac
  | riskPct => .riskPct
  | maxRiskPct => .maxRiskPct

def reason : SettingsFault → String
  | cycleLength => "must be >= 1"
  | envelopePct => "must be in [0, 100)"
  | minSpaceFrac => "must be finite and >= 0"
  | riskPct | maxRiskPct => "must be in (0, 1]"

def message (f : SettingsFault) : String :=
  "invalid parameter `" ++ f.setting.key ++ "`: " ++ f.reason

end SettingsFault

namespace Settings

def standard : Settings where
  cycleLength := 40
  envelopePct := 2.0
  confirmBars := 1
  minSpaceFrac := 0.33
  riskPct := 0.02
  maxRiskPct := 0.05
  smallSize := .clampToOne

def isRiskPct (pct : Float) : Bool := 0.0 < pct && pct ≤ 1.0

def isInRange (s : Settings) : SettingsFault → Bool
  | .cycleLength => 1 ≤ s.cycleLength.toNat
  | .envelopePct => Market.isEnvelopePct s.envelopePct
  | .minSpaceFrac => s.minSpaceFrac.isFinite && 0.0 ≤ s.minSpaceFrac
  | .riskPct => isRiskPct s.riskPct
  | .maxRiskPct => isRiskPct s.maxRiskPct

def fault? (s : Settings) : Option SettingsFault :=
  SettingsFault.all.find? fun f => !s.isInRange f

theorem fault?_eq_none_iff (s : Settings) : s.fault? = none ↔ ∀ f, s.isInRange f = true := by
  rw [fault?, List.find?_eq_none]
  constructor
  · intro h f
    simpa using h f (by cases f <;> simp [SettingsFault.all])
  · intro h f _
    simp [h f]

/-- How many bars there must be before a bottom is looked for. The sum is not bounded here, where a
64-bit one overflows at the largest count alone: only `CheckedRule.make?` tells the two apart. -/
def requiredBars (s : Settings) : Nat := max s.cycleLength.toNat (s.confirmBars.toNat + 1)

/-- An entry must lie more than this many bars after the one before it. -/
def minGap (s : Settings) : UInt64 :=
  max 1 (Binary64.toCountHalfEven (Binary64.ofCount s.cycleLength * s.minSpaceFrac))

def envelopeFactor (s : Settings) : Float := Market.loweringFactor s.envelopePct

end Settings

namespace SmallSize

def key : SmallSize → String
  | clampToOne => "clamp_to_one"
  | skip => "skip"

def title : SmallSize → String
  | clampToOne => "ClampToOne"
  | skip => "Skip"

def all : List SmallSize := [clampToOne, skip]

def ofKey? (key : String) : Option SmallSize := all.find? fun p => p.key == key

theorem ofKey?_key (p : SmallSize) : ofKey? p.key = some p := by
  cases p <;> decide

end SmallSize

namespace Settings

def valueText (s : Settings) : Setting → String
  | .cycleLength => toString s.cycleLength.toNat
  | .envelopePct => Decimal.Layout.plain.text s.envelopePct
  | .confirmBars => toString s.confirmBars.toNat
  | .minSpaceFrac => Decimal.Layout.plain.text s.minSpaceFrac
  | .riskPct => Decimal.Layout.plain.text s.riskPct
  | .maxRiskPct => Decimal.Layout.plain.text s.maxRiskPct
  | .smallSize => s.smallSize.title

def canonicalText (s : Settings) : String :=
  ";".intercalate (Setting.all.map fun f => f.key ++ "=" ++ s.valueText f)

def fingerprint (s : Settings) : String := Blake3.hex s.canonicalText.toUTF8.toList

end Settings

structure SoundSettings extends Settings where
  isInRange : ∀ f, toSettings.isInRange f = true

namespace SoundSettings

def ofSettings (s : Settings) : Except SettingsFault SoundSettings :=
  match h : s.fault? with
  | none => .ok ⟨s, (s.fault?_eq_none_iff).1 h⟩
  | some fault => .error fault

end SoundSettings

end TroughTrader
