/-!
# Hexadecimal digits

Digits are written in lower case and read in either case: `value?_digit` says that reading gives
back what was written.
-/

namespace TroughTrader.Hexadecimal

def digit (n : Nat) : Char := if n < 10 then Char.ofNat (48 + n) else Char.ofNat (87 + n)

def value? (c : Char) : Option Nat :=
  let n := c.toNat
  if 48 ≤ n ∧ n ≤ 57 then some (n - 48)
  else if 65 ≤ n ∧ n ≤ 70 then some (n - 55)
  else if 97 ≤ n ∧ n ≤ 102 then some (n - 87)
  else none

theorem value?_digit {n : Nat} (h : n < 16) : value? (digit n) = some n := by
  have all : ∀ k : Fin 16, value? (digit k) = some k.val := by decide
  exact all ⟨n, h⟩

end TroughTrader.Hexadecimal
