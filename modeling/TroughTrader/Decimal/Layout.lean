import TroughTrader.Decimal.Shortest

/-!
# How a binary64 is laid out as text

All layouts write the fewest digits that read back. They differ in where positional notation ends,
in whether a whole number keeps a zero after the point, in the sign of an exponent and in the tie
between two equally near decimals. `Layout.numeral` chooses the numeral of a finite value and
`Layout.text` writes any value.
-/

namespace TroughTrader.Decimal

/-- A way to write binary64 values. The first digit of a value stands for a power of ten; `window`
bounds the powers that are written without an exponent, the second one excluded. -/
structure Layout where
  window : Option (Int × Int)
  pointZero : Bool
  plus : Bool
  tie : Tie

namespace Layout

def plain : Layout := ⟨some (-4, 16), true, false, .larger⟩

/-- Percentages inside names: never an exponent, and no point in a whole number. -/
def bare : Layout := ⟨none, false, false, .larger⟩

def json : Layout := ⟨some (-5, 16), true, true, .even⟩

def needsExponent (l : Layout) (power : Int) : Bool :=
  match l.window with
  | none => false
  | some (low, high) => power < low || high ≤ power

def wholeFraction (l : Layout) : Digits := if l.pointZero then Digits.zeros 1 else []

def positional (l : Layout) (negative : Bool) (s : Scaled) : Numeral :=
  let digits := Digits.ofNat s.coefficient
  if 0 ≤ s.scale then
    ⟨negative, digits ++ Digits.zeros s.scale.toNat, l.wholeFraction, none⟩
  else
    let places := (-s.scale).toNat
    if digits.length ≤ places then
      ⟨negative, Digits.zeros 1, Digits.zeros (places - digits.length) ++ digits, none⟩
    else
      ⟨negative, digits.take (digits.length - places), digits.drop (digits.length - places), none⟩

def scientific (negative : Bool) (s : Scaled) : Numeral :=
  let digits := Digits.ofNat s.coefficient
  ⟨negative, digits.take 1, digits.drop 1, some (s.scale + (digits.length - 1 : Nat))⟩

def numeral (l : Layout) (x : Float) : Numeral :=
  let negative := Binary64.isNegative x
  if x == 0 then ⟨negative, Digits.zeros 1, l.wholeFraction, none⟩
  else
    let s := Scaled.shortest l.tie x
    let power := s.scale + ((Digits.ofNat s.coefficient).length - 1 : Nat)
    if l.needsExponent power then scientific negative s else l.positional negative s

def text (l : Layout) (x : Float) : String :=
  if x.isNaN then "NaN"
  else if x.isInf then (if Binary64.isNegative x then "-inf" else "inf")
  else String.ofList ((l.numeral x).chars l.plus)

end Layout
end TroughTrader.Decimal
