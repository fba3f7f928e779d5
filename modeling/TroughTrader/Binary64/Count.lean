import TroughTrader.Binary64.Nearest

/-!
# Counts and binary64 values

Counts are unsigned 64-bit. `toCountHalfEven` rounds to the nearest count and stays inside the
range: everything below zero, and not-a-number, becomes zero, and what is too large becomes the
largest count. `lesser` is the smaller of two prices, of which either may be missing.
-/

namespace TroughTrader.Binary64

/-- Not-a-number, which marks a value that is undefined. -/
def undefined : Float := Float.ofBits 0x7ff8000000000000

def defined? (x : Float) : Option Float :=
  if x.isNaN then none else some x

def toCountHalfEven (x : Float) : UInt64 :=
  if x.isNaN || isNegative x then 0
  else
    let (num, den) := magnitude x
    UInt64.ofNatClamp (roundHalfEven num den)

def ofCount (n : UInt64) : Float := n.toFloat

def lesser (a b : Float) : Float :=
  if a.isNaN then b else if b < a then b else a

end TroughTrader.Binary64
