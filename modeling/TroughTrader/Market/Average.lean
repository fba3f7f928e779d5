import TroughTrader.Binary64.Count
import TroughTrader.Decimal.Layout
import TroughTrader.Precondition

/-!
# Averages over whole series

The mean of a window adds its prices from left to right. `MovingAverage.values` slides a window over
a whole series and `LowerEnvelope.values` lowers the averages by a percentage; both give one value a
price (`length_values`), undefined until the first window is full.
-/

namespace TroughTrader.Market

/-- The arithmetic mean of the prices of a window, summed from the left onto negative zero. -/
def mean (window : List Float) : Float :=
  window.foldl (· + ·) (-0.0) / Binary64.ofCount window.length.toUInt64

/-- All runs of `width` neighbours, from the first to the last. -/
def windows (width : Nat) : List Float → List (List Float)
  | [] => []
  | x :: rest =>
    let w := (x :: rest).take width
    if w.length = width then w :: windows width rest else []

theorem length_windows {width : Nat} (h : 1 ≤ width) (closes : List Float) :
    (windows width closes).length = closes.length + 1 - width := by
  induction closes with
  | nil => simp [windows]; omega
  | cons x rest ih =>
    simp only [windows, List.length_take, List.length_cons]
    split <;> simp only [List.length_cons, List.length_nil, ih] <;> omega

def loweringFactor (pct : Float) : Float := 1.0 - pct / 100.0

/-- Whether a percentage is one that an envelope may lie below the average. -/
def isEnvelopePct (pct : Float) : Bool := 0.0 ≤ pct && pct < 100.0

structure MovingAverage where
  period : UInt64
  one_le_period : 1 ≤ period.toNat

namespace MovingAverage

def make? (period : UInt64) : Except Precondition MovingAverage :=
  if h : 1 ≤ period.toNat then .ok ⟨period, h⟩ else .error .averagePeriod

def name (a : MovingAverage) : String := "sma_" ++ toString a.period.toNat

/-- How many values at the start of a long series are undefined. -/
def lookback (a : MovingAverage) : Nat := a.period.toNat - 1

def values (a : MovingAverage) (closes : List Float) : List Float :=
  List.replicate (min closes.length a.lookback) Binary64.undefined
    ++ (windows a.period.toNat closes).map mean

theorem length_values (a : MovingAverage) (closes : List Float) :
    (a.values closes).length = closes.length := by
  have := a.one_le_period
  simp only [values, List.length_append, List.length_replicate, List.length_map,
    length_windows this, lookback]
  omega

end MovingAverage

structure LowerEnvelope where
  average : MovingAverage
  pct : Float
  isEnvelopePct : isEnvelopePct pct = true

namespace LowerEnvelope

def make? (period : UInt64) (pct : Float) : Except Precondition LowerEnvelope :=
  if h : Market.isEnvelopePct pct = true then
    (MovingAverage.make? period).map fun a => ⟨a, pct, h⟩
  else .error .envelopePct

def name (e : LowerEnvelope) : String :=
  "lower_env_" ++ toString e.average.period.toNat ++ "_" ++ Decimal.Layout.bare.text e.pct

def lookback (e : LowerEnvelope) : Nat := e.average.lookback

def values (e : LowerEnvelope) (closes : List Float) : List Float :=
  (e.average.values closes).map (· * loweringFactor e.pct)

theorem length_values (e : LowerEnvelope) (closes : List Float) :
    (e.values closes).length = closes.length := by
  simp [values, MovingAverage.length_values]

end LowerEnvelope
end TroughTrader.Market
