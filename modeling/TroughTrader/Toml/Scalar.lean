import TroughTrader.Binary64.Count
import TroughTrader.Text.Hexadecimal
import TroughTrader.Toml.Value

/-!
# Words of TOML

Values without quotes are words: truth values, integers, and numbers with a point, an exponent or a
name. An underscore may stand between two digits. Integers have 64 bits with a sign; hexadecimal,
octal and binary ones have no sign.
-/

namespace TroughTrader.Toml

open Decimal

def isWordChar (c : Char) : Bool :=
  c.isAlphanum || c == '_' || c == '+' || c == '-' || c == '.'

/-- The characters without underscores, each of which must stand between two digits. -/
def ungroup? (isDigit : Char → Bool) : List Char → Option (List Char)
  | [] => none
  | [c] => if isDigit c then some [c] else none
  | c :: '_' :: d :: rest =>
    if isDigit c then (ungroup? isDigit (d :: rest)).map (c :: ·) else none
  | c :: d :: rest =>
    if isDigit c then (ungroup? isDigit (d :: rest)).map (c :: ·) else none

def isDigitOf (base : Nat) (c : Char) : Bool := (Hexadecimal.value? c).any (· < base)

def naturalOf? (base : Nat) (cs : List Char) : Option Nat := do
  let cs ← ungroup? (isDigitOf base) cs
  return cs.foldl (fun n c => base * n + (Hexadecimal.value? c).getD 0) 0

def digits? (cs : List Char) : Option Digits := do
  let cs ← ungroup? (isDigitOf 10) cs
  cs.mapM Digits.ofChar?

def isDecimalOrGroup (c : Char) : Bool := c.isDigit || c == '_'

def integer? (n : Int) : Option Toml :=
  if Int64.minValue.toInt ≤ n ∧ n ≤ Int64.maxValue.toInt then some (.integer n) else none

def splitSign : List Char → Bool × List Char
  | '-' :: cs => (true, cs)
  | '+' :: cs => (false, cs)
  | cs => (false, cs)

def fractionOf? : List Char → Option (Digits × List Char)
  | '.' :: cs => (digits? (cs.takeWhile isDecimalOrGroup)).map (·, cs.dropWhile isDecimalOrGroup)
  | cs => some ([], cs)

def exponentOf? : List Char → Option (Option Int)
  | [] => some none
  | e :: cs =>
    if e = 'e' ∨ e = 'E' then do
      let (negative, cs) := splitSign cs
      let n := Digits.toNat (← digits? cs)
      return some (if negative then -(n : Int) else n)
    else none

/-- The binary64 nearest to a numeral; what rounds to positive infinity is refused. -/
def real? (n : Numeral) : Option Toml :=
  let x := n.toFloat
  if x.isInf ∧ ¬ n.negative then none else some (.real x)

/-- A decimal number: an integer unless it has a point or an exponent. -/
def decimal? (word : List Char) : Option Toml := do
  let (negative, cs) := splitSign word
  let whole ← digits? (cs.takeWhile isDecimalOrGroup)
  let (fraction, cs) ← fractionOf? (cs.dropWhile isDecimalOrGroup)
  let exponent ← exponentOf? cs
  if whole.head? = some Digits.zero ∧ whole.length ≠ 1 then none
  else if fraction.isEmpty ∧ exponent.isNone then
    let n := Digits.toNat whole
    integer? (if negative then -(n : Int) else n)
  else real? ⟨negative, whole, fraction, exponent⟩

def named? (word : List Char) : Option Toml :=
  let (negative, cs) := splitSign word
  if cs = ['i', 'n', 'f'] then some (.real (Binary64.infinity negative))
  else if cs = ['n', 'a', 'n'] then some (.real Binary64.undefined)
  else none

def ofWord? (word : List Char) : Option Toml :=
  match word with
  | '0' :: 'x' :: cs => (naturalOf? 16 cs).bind fun n => integer? n
  | '0' :: 'o' :: cs => (naturalOf? 8 cs).bind fun n => integer? n
  | '0' :: 'b' :: cs => (naturalOf? 2 cs).bind fun n => integer? n
  | ['t', 'r', 'u', 'e'] => some (.boolean true)
  | ['f', 'a', 'l', 's', 'e'] => some (.boolean false)
  | _ => (named? word).orElse fun _ => decimal? word

end TroughTrader.Toml
