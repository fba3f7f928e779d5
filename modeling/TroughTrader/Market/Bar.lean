import TroughTrader.Binary64.Count
import TroughTrader.Calendar.Date

/-!
# Bars

One bar holds the prices of one step of the feed. A void bar lacks at least one price.
-/

namespace TroughTrader

structure Bar where
  index : UInt64
  date : Date
  opening : Float
  high : Float
  low : Float
  close : Float

namespace Bar

/-- A bar that lacks a price; it never reaches the price history. -/
def isVoid (b : Bar) : Bool :=
  b.opening.isNaN || b.high.isNaN || b.low.isNaN || b.close.isNaN

end Bar
end TroughTrader
