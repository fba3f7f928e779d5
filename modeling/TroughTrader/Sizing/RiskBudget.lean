import TroughTrader.Settings.Basic

/-!
# Position sizes

A sizer says how many units to buy at an entry price that a stop protects; zero means that nothing
is bought. The risk budget puts a fixed fraction of the cash at risk between entry and stop, and
counts no stop distance beyond a fixed fraction of the entry price.
-/

namespace TroughTrader

structure Sizer where
  name : String
  size : (entry stop cash : Float) → UInt64

structure RiskBudget where
  riskPct : Float
  maxRiskPct : Float
  smallSize : SmallSize
  isRiskPct : Settings.isRiskPct riskPct = true
  isMaxRiskPct : Settings.isRiskPct maxRiskPct = true

namespace RiskBudget

def make? (riskPct maxRiskPct : Float) (smallSize : SmallSize) :
    Except Precondition RiskBudget :=
  if h : Settings.isRiskPct riskPct = true then
    if h' : Settings.isRiskPct maxRiskPct = true then .ok ⟨riskPct, maxRiskPct, smallSize, h, h'⟩
    else .error .maxRiskPct
  else .error .riskPct

def fallback : SmallSize → UInt64
  | .clampToOne => 1
  | .skip => 0

def countedDistance (b : RiskBudget) (entry stop : Float) : Float :=
  let distance := entry - stop
  let cap := entry * b.maxRiskPct
  if cap < distance then cap else distance

/-- The number of units, fractions included, that the budget reaches. -/
def quotient (b : RiskBudget) (entry stop cash : Float) : Float :=
  cash * b.riskPct / b.countedDistance entry stop

/-- The whole units that the budget reaches, as far as a count can say it. Without a stop below the
entry there is no size. -/
def size (b : RiskBudget) (entry stop cash : Float) : UInt64 :=
  if entry ≤ stop then 0
  else if (entry - stop).isNaN || entry - stop ≤ 0.0 then 0
  else
    let units := b.quotient entry stop cash
    if units.isNaN || units < 1.0 then fallback b.smallSize else units.toUInt64

def sizer (b : RiskBudget) : Sizer := ⟨"risk_budget", b.size⟩

end RiskBudget

namespace SoundSettings

def riskBudget (s : SoundSettings) : RiskBudget where
  riskPct := s.riskPct
  maxRiskPct := s.maxRiskPct
  smallSize := s.smallSize
  isRiskPct := s.isInRange .riskPct
  isMaxRiskPct := s.isInRange .maxRiskPct

end SoundSettings
end TroughTrader
