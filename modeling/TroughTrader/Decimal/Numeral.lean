import TroughTrader.Binary64.Nearest

/-!
# Decimal numerals

A numeral is a number as it is written: a sign, digits, digits after the point, and an exponent of
ten. `Numeral.chars` writes it, `Numeral.toFloat` is the binary64 nearest to its value and
`Numeral.toCount?` its value as a count, if it is written as one. Digits that are written are read
back: `Digits.toNat_ofNat` and `Digits.span_chars_append`.
-/

namespace TroughTrader.Decimal

/-- Decimal digits, the most significant first. -/
abbrev Digits := List (Fin 10)

/-- The ratio `num / den` counted in units of `10 ^ e`, again as a ratio. -/
def inTens (num den : Nat) (e : Int) : Nat × Nat :=
  (num * Nat.pow 10 (-e).toNat, den * Nat.pow 10 e.toNat)

namespace Digits

def zero : Fin 10 := 0

def zeros (count : Nat) : Digits := List.replicate count zero

def ofNat (n : Nat) : Digits :=
  if h : n < 10 then [⟨n, h⟩]
  else ofNat (n / 10) ++ [⟨n % 10, Nat.mod_lt n (by decide)⟩]

def toNat (ds : Digits) : Nat :=
  ds.foldl (fun n d => 10 * n + d.val) 0

def charOf (d : Fin 10) : Char := Char.ofNat (48 + d.val)

def ofChar? (c : Char) : Option (Fin 10) :=
  if h : 48 ≤ c.toNat ∧ c.toNat < 58 then some ⟨c.toNat - 48, by omega⟩ else none

def chars (ds : Digits) : List Char := ds.map charOf

def span : List Char → Digits × List Char
  | [] => ([], [])
  | c :: rest =>
    match ofChar? c with
    | none => ([], c :: rest)
    | some d => let (ds, tail) := span rest; (d :: ds, tail)

theorem ofChar?_charOf (d : Fin 10) : ofChar? (charOf d) = some d := by
  revert d
  decide

theorem toNat_concat (ds : Digits) (d : Fin 10) : toNat (ds ++ [d]) = 10 * toNat ds + d.val := by
  simp [toNat]

theorem toNat_ofNat (n : Nat) : toNat (ofNat n) = n := by
  fun_induction ofNat n with
  | case1 => simp [toNat]
  | case2 n _ ih =>
    rw [toNat_concat, ih]
    exact Nat.div_add_mod n 10

theorem ofNat_ne_nil (n : Nat) : ofNat n ≠ [] := by
  fun_induction ofNat n <;> simp

theorem span_chars_append (ds : Digits) {rest : List Char}
    (h : ∀ c ∈ rest.head?, ofChar? c = none) : span (chars ds ++ rest) = (ds, rest) := by
  induction ds with
  | nil =>
    cases rest with
    | nil => rfl
    | cons c rest => simp [chars, span, h c (by simp)]
  | cons d ds ih =>
    simp only [chars, List.map_cons, List.cons_append, span, ofChar?_charOf]
    simp only [chars] at ih
    rw [ih]

end Digits

/-- A number as it is written. No fraction digits means that no point is written. -/
structure Numeral where
  negative : Bool
  whole : Digits
  fraction : Digits
  exponent : Option Int
  deriving DecidableEq

namespace Numeral

def ofNat (n : Nat) : Numeral := ⟨false, Digits.ofNat n, [], none⟩

def coefficient (n : Numeral) : Nat := Digits.toNat (n.whole ++ n.fraction)

def scale (n : Numeral) : Int := n.exponent.getD 0 - n.fraction.length

/-- A positive coefficient below this power of ten lies under half the least magnitude. -/
def vanishes (coefficient : Nat) (scale : Int) : Bool :=
  (coefficient.log2 : Int) + 1 + 3 * scale < -1100

/-- The binary64 nearest to the numeral's value; an infinity where that is too large. -/
def toFloat (n : Numeral) : Float :=
  let c := n.coefficient
  let s := n.scale
  if c = 0 ∨ vanishes c s then Binary64.zero n.negative
  else if 400 < s then Binary64.infinity n.negative
  else
    let (num, den) := inTens c 1 (-s)
    Binary64.nearest n.negative num den

def toCount? (n : Numeral) : Option UInt64 :=
  let value := Digits.toNat n.whole
  if n.negative ∨ n.fraction ≠ [] ∨ n.exponent.isSome then none
  else if value < UInt64.size then some (UInt64.ofNat value)
  else none

theorem toCount?_ofNat (n : UInt64) : (ofNat n.toNat).toCount? = some n := by
  simp [ofNat, toCount?, Digits.toNat_ofNat, n.toNat_lt]

/-- The written exponent; `plus` asks for a sign also where it is not negative. -/
def exponentChars (plus : Bool) (e : Int) : List Char :=
  (if e < 0 then ['-'] else if plus then ['+'] else []) ++ (Digits.ofNat e.natAbs).chars

def chars (plus : Bool) (n : Numeral) : List Char :=
  (if n.negative then ['-'] else []) ++ n.whole.chars
    ++ (if n.fraction.isEmpty then [] else '.' :: n.fraction.chars)
    ++ (match n.exponent with
        | none => []
        | some e => 'e' :: exponentChars plus e)

end Numeral
end TroughTrader.Decimal
