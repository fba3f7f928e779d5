/-!
# Preconditions

What the makers of averages, channels, envelopes and sizers ask of their numbers. A number that is
refused is a mistake of the caller, not of the market, so it is told apart from faulty settings.
-/

namespace TroughTrader

inductive Precondition where
  | averagePeriod
  | channelPeriod
  | envelopePct
  | riskPct
  | maxRiskPct
  | alignedSeries
  deriving DecidableEq

namespace Precondition

def message : Precondition → String
  | averagePeriod => "SMA period must be >= 1"
  | channelPeriod => "period must be >= 1"
  | envelopePct => "envelope_pct must be in [0, 100)"
  | riskPct => "risk_pct must be in (0, 1]"
  | maxRiskPct => "max_risk_pct must be in (0, 1]"
  | alignedSeries => "crossover series must be aligned"

end Precondition
end TroughTrader
