import TroughTrader.Decimal.Numeral

/-!
# The fewest digits that read back

For one, two, up to seventeen significant digits, the two neighbours of a binary64 on that decimal
grid are read back. The first grid on which one of them gives the value again is taken, and of two
that do the nearer one; `Tie` says which of two that are equally near. Should no grid do, the value
is written out exactly, so that what is written always reads back.
-/

namespace TroughTrader.Decimal

inductive Tie where
  | larger
  | even
  deriving DecidableEq

structure Scaled where
  coefficient : Nat
  scale : Int
  deriving DecidableEq

namespace Scaled

def numeral (negative : Bool) (s : Scaled) : Numeral :=
  ⟨negative, Digits.ofNat s.coefficient, [], some s.scale⟩

def readsAs (s : Scaled) (x : Float) : Bool :=
  (s.numeral (Binary64.isNegative x)).toFloat.toBits == x.toBits

def trim (coefficient : Nat) (scale : Int) : Scaled :=
  if 0 < coefficient ∧ coefficient % 10 = 0 then trim (coefficient / 10) (scale + 1)
  else ⟨coefficient, scale⟩
termination_by coefficient
decreasing_by omega

/-- Every digit of a finite binary64: its magnitude is `m * 2 ^ q`, and a negative power of two is
a power of five over a power of ten. -/
def exact (x : Float) : Scaled :=
  let (m, q) := Binary64.significand x
  ⟨(m <<< q.toNat) * Nat.pow 5 (-q).toNat, min q 0⟩

def decade (num den : Nat) : Int :=
  -- One bit is about 30103 / 100000 of a decimal digit.
  let p := ((num.log2 : Int) - den.log2 - 1) * 30103 / 100000 + 1
  let (n, d) := inTens num den p
  if n < d then p else p + 1

/-- The decimal of at most `count` digits that reads back as `x` and is nearest to it, if any. -/
def candidate? (tie : Tie) (x : Float) (count : Nat) : Option Scaled :=
  let (num, den) := Binary64.magnitude x
  let place := decade num den - count
  let (n, d) := inTens num den place
  let lower := n / d
  let remainder := n % d
  let lowerReads := Scaled.readsAs ⟨lower, place⟩ x
  let upperReads := Scaled.readsAs ⟨lower + 1, place⟩ x
  let upperNearer := d < 2 * remainder ∨
    (2 * remainder = d ∧ (tie = .larger ∨ lower % 2 = 1))
  if upperReads ∧ (¬ lowerReads ∨ upperNearer) then some ⟨lower + 1, place⟩
  else if lowerReads then some ⟨lower, place⟩
  else none

def shortest (tie : Tie) (x : Float) : Scaled :=
  let found := ((List.range 17).findSome? fun k => candidate? tie x (k + 1)).getD (exact x)
  trim found.coefficient found.scale

end Scaled
end TroughTrader.Decimal
