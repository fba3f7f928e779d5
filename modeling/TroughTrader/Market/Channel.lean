import TroughTrader.Market.Average
import TroughTrader.Market.Bar
import TroughTrader.Market.Crossing

/-!
# The price channel, bar by bar

A channel reads one bar at a time: it adds to the bar's close and low the moving average, the lower
envelope and the signs of the crossings of close and average. Readings are only ever added, and a
position in them counts the bars that were read, whatever their index in the feed.
-/

namespace TroughTrader.Market

/-- What is known after a bar, with not-a-number for what is undefined. -/
structure Reading where
  close : Float
  low : Float
  average : Float
  lowerEnvelope : Float
  crossUp : Float
  crossDown : Float

structure Channel where
  period : Nat
  one_le_period : 1 ≤ period
  factor : Float

namespace Channel

def make? (period : UInt64) (envelopePct : Float) : Except Precondition Channel :=
  if h : 1 ≤ period.toNat then .ok ⟨period.toNat, h, loweringFactor envelopePct⟩
  else .error .channelPeriod

def lastCloses (count : Nat) (readings : Array Reading) : List Float :=
  (readings.extract (readings.size - count) readings.size).toList.map (·.close)

def averageWith (c : Channel) (readings : Array Reading) (close : Float) : Float :=
  if c.period ≤ readings.size + 1 then mean (lastCloses (c.period - 1) readings ++ [close])
  else Binary64.undefined

/-- The reading of a bar that follows those already read. -/
def reading (c : Channel) (readings : Array Reading) (bar : Bar) : Reading :=
  let average := c.averageWith readings bar.close
  let (up, down) :=
    match readings.back? with
    | none => (Binary64.undefined, Binary64.undefined)
    | some last =>
      (crossSign last.close last.average bar.close average,
       crossSign last.average last.close average bar.close)
  ⟨bar.close, bar.low, average, average * c.factor, up, down⟩

/-- One more bar is read. What comes back with the readings is the position of the bar in them. -/
def update (c : Channel) (readings : Array Reading) (bar : Bar) : Nat × Array Reading :=
  (readings.size, readings.push (c.reading readings bar))

def push (c : Channel) (readings : Array Reading) (bar : Bar) : Array Reading :=
  (c.update readings bar).2

theorem push_eq (c : Channel) (readings : Array Reading) (bar : Bar) :
    c.push readings bar = readings.push (c.reading readings bar) := rfl

theorem size_push (c : Channel) (readings : Array Reading) (bar : Bar) :
    (c.push readings bar).size = readings.size + 1 := by
  rw [push_eq, Array.size_push]

def value? (readings : Array Reading) (field : Reading → Float) (position : Nat) : Option Float :=
  readings[position]?.bind fun r => Binary64.defined? (field r)

def lastPosition? (readings : Array Reading) : Option Nat :=
  if readings.isEmpty then none else some (readings.size - 1)

def last? (readings : Array Reading) (field : Reading → Float) : Option Float :=
  readings.back?.bind fun r => Binary64.defined? (field r)

theorem lastPosition?_push (c : Channel) (readings : Array Reading) (bar : Bar) :
    lastPosition? (c.push readings bar) = some readings.size := by
  simp [lastPosition?, push_eq]

theorem last?_push (c : Channel) (readings : Array Reading) (bar : Bar) (field : Reading → Float) :
    last? (c.push readings bar) field = Binary64.defined? (field (c.reading readings bar)) := by
  simp [last?, push_eq]

end Channel
end TroughTrader.Market
