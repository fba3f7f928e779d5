import TroughTrader.Market.Channel
import TroughTrader.Settings.Basic

/-!
# Bottoms of the cycle

A bottom is a bar that dips to the lower envelope after a confirmed crossing, far enough from the
last entry. `BottomRule.answers?` answers the three questions one by one, once there are enough
bars, and `BottomRule.bottom?` gives the prices of a bar on which all three answers are yes.
-/

namespace TroughTrader

/-- A low this much above the envelope still counts as a dip. -/
def dipTolerance : Float := 1.005

structure BottomAnswers where
  dips : Bool
  crossed : Bool
  spaced : Bool
  deriving DecidableEq

namespace BottomAnswers

def isBottom (a : BottomAnswers) : Bool := a.dips && a.crossed && a.spaced

def initial : BottomAnswers := ⟨false, false, false⟩

end BottomAnswers

structure Bottom where
  barIndex : UInt64
  date : Date
  close : Float
  low : Float
  lowerEnvelope : Float

structure BottomRule where
  requiredBars : Nat
  confirmBars : Nat
  minGap : UInt64

namespace BottomRule

open Market

def ofSettings (s : Settings) : BottomRule := ⟨s.requiredBars, s.confirmBars.toNat, s.minGap⟩

def name : String := "cycle_bottom"

def dips (low : Float) (readings : Array Reading) : Bool :=
  (Channel.last? readings (·.lowerEnvelope)).any fun envelope => low ≤ envelope * dipTolerance

/-- Whether the close crossed above the average the given number of readings before the last. -/
def crossedAbove (ago : Nat) (readings : Array Reading) : Bool :=
  if ago < readings.size then
    (Channel.value? readings (·.crossUp) (readings.size - 1 - ago)).any fun sign => 0.0 < sign
  else false

def isSpaced (minGap : UInt64) (index : UInt64) : Option UInt64 → Bool
  | none => true
  | some last => last.toNat + minGap.toNat < index.toNat

/-- The answers for a bar, against the readings up to it; none before there are enough of them. -/
def answers? (rule : BottomRule) (bar : Bar) (readings : Array Reading)
    (lastEntry : Option UInt64) : Option BottomAnswers :=
  if readings.size < rule.requiredBars ∨ readings.isEmpty then none
  else some
    { dips := dips bar.low readings
      crossed := crossedAbove rule.confirmBars readings
      spaced := isSpaced rule.minGap bar.index lastEntry }

def bottom? (rule : BottomRule) (bar : Bar) (readings : Array Reading)
    (lastEntry : Option UInt64) : Option Bottom := do
  let answers ← rule.answers? bar readings lastEntry
  if answers.isBottom then
    let envelope ← Channel.last? readings (·.lowerEnvelope)
    return ⟨bar.index, bar.date, bar.close, bar.low, envelope⟩
  else none

end BottomRule
end TroughTrader
