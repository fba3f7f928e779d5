import TroughTrader.Binary64.Count
import TroughTrader.Precondition

/-!
# Crossings of two series

A series crosses above another one where it was not above it a step ago and is above it now. The
sign of a step is one on a crossing, zero where there is none, and undefined where a value is
missing. The first position has no step before it.
-/

namespace TroughTrader.Market

def crossSign (previousA previousB a b : Float) : Float :=
  if previousA.isNaN || previousB.isNaN || a.isNaN || b.isNaN then Binary64.undefined
  else if previousA ≤ previousB && b < a then 1.0
  else 0.0

def pairSigns : List (Float × Float) → List Float
  | [] => []
  | [_] => []
  | p :: q :: rest => crossSign p.1 p.2 q.1 q.2 :: pairSigns (q :: rest)

theorem length_pairSigns (ps : List (Float × Float)) : (pairSigns ps).length = ps.length - 1 := by
  fun_induction pairSigns ps <;> simp_all

/-- The signs of `a` against `b`, one a position. -/
def crossSigns (a b : List Float) : Except Precondition (List Float) :=
  if a.length = b.length then
    .ok (if a.isEmpty then [] else Binary64.undefined :: pairSigns (a.zip b))
  else .error .alignedSeries

end TroughTrader.Market
