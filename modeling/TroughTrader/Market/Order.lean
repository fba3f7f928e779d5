/-!
# Orders

The broker gives every order an identifier and reports what becomes of it, perhaps more than once.
An order is open while it may still be executed.
-/

namespace TroughTrader

structure OrderId where
  number : UInt64
  deriving DecidableEq

namespace OrderId

def text (id : OrderId) : String := "#" ++ toString id.number.toNat

end OrderId

inductive Side where
  | buy
  | sell
  deriving DecidableEq

namespace Side

def text : Side → String
  | buy => "buy"
  | sell => "sell"

end Side

inductive OrderStatus where
  | submitted
  | accepted
  | partiallyFilled
  | completed
  | cancelled
  | expired
  | rejected
  deriving DecidableEq

namespace OrderStatus

/-- Whether the order may still be executed. -/
def isOpen : OrderStatus → Bool
  | submitted | accepted | partiallyFilled => true
  | completed | cancelled | expired | rejected => false

end OrderStatus

/-- What the broker reports of an order: the average price, if anything was executed, and the size
executed so far. -/
structure OrderReport where
  order : OrderId
  status : OrderStatus
  fillPrice : Option Float
  filledSize : UInt64

namespace OrderReport

def completed (order : OrderId) (price : Float) (size : UInt64) : OrderReport :=
  ⟨order, .completed, some price, size⟩

def rejected (order : OrderId) : OrderReport := ⟨order, .rejected, none, 0⟩

def cancelled (order : OrderId) : OrderReport := ⟨order, .cancelled, none, 0⟩

end OrderReport

structure OrderRequest where
  side : Side
  size : UInt64
  deriving DecidableEq

/-- What the broker answers while a bar is read: the cash at hand, the size held, and the
identifier that it gives to an order. -/
structure Account where
  cash : Float
  position : UInt64
  nextOrder : OrderId

end TroughTrader
