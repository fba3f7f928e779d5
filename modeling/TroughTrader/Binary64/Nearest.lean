/-!
# The binary64 nearest to a ratio

A ratio `num / den` of naturals is counted in units of its last binary place, `2 ^ lastPlace`, and
rounded to a whole number of them, a half going to the even neighbour. Since the bit pattern of a
finite binary64 grows by one from each magnitude to the next, `nearestBits` is the pattern itself:
a carry out of the significand lands in the exponent, and a magnitude beyond the largest finite
one reaches the pattern of infinity. Rounding to a whole number is off by at most half a unit on
either side (`le_roundHalfEven` and `roundHalfEven_le`).
-/

namespace TroughTrader.Binary64

def roundHalfEven (num den : Nat) : Nat :=
  let quotient := num / den
  let remainder := num % den
  if den < 2 * remainder ∨ (2 * remainder = den ∧ quotient % 2 = 1) then quotient + 1
  else quotient

theorem roundHalfEven_mul (n : Nat) {den : Nat} (h : 0 < den) :
    roundHalfEven (n * den) den = n := by
  simp only [roundHalfEven, Nat.mul_div_cancel n h, Nat.mul_mod_left]
  rw [if_neg (by omega)]

theorem le_roundHalfEven (num : Nat) {den : Nat} (h : 0 < den) :
    2 * num ≤ 2 * (den * roundHalfEven num den) + den := by
  have parts := Nat.div_add_mod num den
  have below := Nat.mod_lt num h
  simp only [roundHalfEven]
  split
  · rw [Nat.mul_add]; omega
  · omega

theorem roundHalfEven_le (num den : Nat) :
    2 * (den * roundHalfEven num den) ≤ 2 * num + den := by
  have parts := Nat.div_add_mod num den
  simp only [roundHalfEven]
  split
  · rw [Nat.mul_add]; omega
  · omega

/-- The ratio `num / den` counted in units of `2 ^ e`, again as a ratio. -/
def inUnits (num den : Nat) (e : Int) : Nat × Nat :=
  (num <<< (-e).toNat, den <<< e.toNat)

def leadingBit : Nat := 0x10000000000000

def signBit : Nat := 0x8000000000000000

/-- The exponent of the last place of a binary64 near `num / den`: 53 significant bits, and never
below the least magnitude, `2 ^ (-1074)`. -/
def lastPlace (num den : Nat) : Int :=
  let guess : Int := (num.log2 : Int) - den.log2 - 52
  let (n, d) := inUnits num den guess
  max (-1074) (if n / d < leadingBit then guess - 1 else guess)

def infinityBits : Nat := 2047 * leadingBit

def nearestBits (num den : Nat) : Nat :=
  if num = 0 then 0
  else
    let e := lastPlace num den
    let (n, d) := inUnits num den e
    min infinityBits ((e + 1074).toNat * leadingBit + roundHalfEven n d)

/-- The binary64 of a pattern without sign bit, or its negation. -/
def signed (negative : Bool) (bits : Nat) : Float :=
  Float.ofBits (UInt64.ofNat (bits + if negative then signBit else 0))

def nearest (negative : Bool) (num den : Nat) : Float := signed negative (nearestBits num den)

def zero (negative : Bool) : Float := signed negative 0

def infinity (negative : Bool) : Float := signed negative infinityBits

def isNegative (x : Float) : Bool := signBit ≤ x.toBits.toNat

/-- The magnitude of a finite binary64 is `m * 2 ^ q` for this pair `(m, q)`. -/
def significand (x : Float) : Nat × Int :=
  let fraction := x.toBits.toNat % leadingBit
  let exponent := x.toBits.toNat / leadingBit % 2048
  if exponent = 0 then (fraction, -1074) else (fraction + leadingBit, (exponent : Int) - 1075)

def magnitude (x : Float) : Nat × Nat :=
  let (m, q) := significand x
  inUnits m 1 (-q)

end TroughTrader.Binary64
