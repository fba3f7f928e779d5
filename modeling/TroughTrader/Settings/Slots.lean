import TroughTrader.Record.Slots
import TroughTrader.Settings.Basic

/-!
# Settings from slots

The settings are read in the same way from every kind of document: a setting that is missing keeps
its standard value, and each one that is there must be of its own kind. What a value says is up to
the kind of document.
-/

namespace TroughTrader.Settings

open Record

def keys : List String := Setting.all.map Setting.key

def ofSlots? {σ : Type} (count? : σ → Option UInt64) (real? : σ → Option Float)
    (small? : σ → Option SmallSize) : List (Option σ) → Option Settings
  | [cycleLength, envelopePct, confirmBars, minSpaceFrac, riskPct, maxRiskPct, smallSize] => do
    return {
      cycleLength := ← orDefault standard.cycleLength count? cycleLength
      envelopePct := ← orDefault standard.envelopePct real? envelopePct
      confirmBars := ← orDefault standard.confirmBars count? confirmBars
      minSpaceFrac := ← orDefault standard.minSpaceFrac real? minSpaceFrac
      riskPct := ← orDefault standard.riskPct real? riskPct
      maxRiskPct := ← orDefault standard.maxRiskPct real? maxRiskPct
      smallSize := ← orDefault standard.smallSize small? smallSize }
  | _ => none

end TroughTrader.Settings
