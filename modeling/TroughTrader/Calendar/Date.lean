import TroughTrader.Decimal.Numeral
import TroughTrader.Text.Blank

/-!
# Calendar dates

A date is a year, a month and a day of the proleptic Gregorian calendar, with years from -262143 to
262142. `Date.text` writes it with hyphens, the month and the day with two digits; years from 0 to
9999 have four digits, and all others a sign and at least four digits. `Date.ofText?` reads more
than is written: blanks around the numbers, and a month or a day of one digit.
-/

namespace TroughTrader

namespace Calendar

def isLeap (year : Int) : Bool :=
  year % 4 == 0 && (year % 100 != 0 || year % 400 == 0)

def daysIn (year : Int) (month : Nat) : Nat :=
  if month = 2 then (if isLeap year then 29 else 28)
  else if month = 4 ∨ month = 6 ∨ month = 9 ∨ month = 11 then 30
  else 31

/-- Whether the numbers name a day of the calendar within the years that are kept. -/
def isDay (year : Int) (month day : Nat) : Bool :=
  -262143 ≤ year && year ≤ 262142 && 1 ≤ month && month ≤ 12 && 1 ≤ day
    && day ≤ daysIn year month

end Calendar

structure Date where
  year : Int
  month : Nat
  day : Nat
  isDay : Calendar.isDay year month day = true
  deriving DecidableEq

namespace Date

open Decimal Text

/-- The digits of a natural, filled with zeros up to a width. -/
def padded (width n : Nat) : List Char :=
  let digits := Digits.ofNat n
  Digits.chars (Digits.zeros (width - digits.length) ++ digits)

def yearChars (year : Int) : List Char :=
  if 0 ≤ year ∧ year ≤ 9999 then padded 4 year.toNat
  else (if year < 0 then '-' else '+') :: padded 4 year.natAbs

def chars (d : Date) : List Char :=
  yearChars d.year ++ '-' :: padded 2 d.month ++ '-' :: padded 2 d.day

def text (d : Date) : String := String.ofList d.chars

/-- One to `width` digits at the head of a text, as a natural, and the rest. Further digits are
left to the rest. -/
def number? (width : Nat) (cs : List Char) : Option (Nat × List Char) :=
  let digits := (Digits.span (cs.take width)).1
  if digits.isEmpty then none else some (Digits.toNat digits, cs.drop digits.length)

/-- A year of up to four digits, or of any number of digits after a sign. -/
def year? : List Char → Option (Int × List Char)
  | '-' :: cs => (number? cs.length cs).map fun (n, rest) => (-(n : Int), rest)
  | '+' :: cs => (number? cs.length cs).map fun (n, rest) => ((n : Int), rest)
  | cs => (number? 4 cs).map fun (n, rest) => ((n : Int), rest)

def hyphen? (cs : List Char) : Option (List Char) :=
  match skipBlanks cs with
  | '-' :: rest => some rest
  | _ => none

def ofNumbers? (year : Int) (month day : Nat) : Option Date :=
  if h : Calendar.isDay year month day = true then some ⟨year, month, day, h⟩ else none

theorem ofNumbers?_self (d : Date) : ofNumbers? d.year d.month d.day = some d := by
  simp [ofNumbers?, d.isDay]

def ofChars? (cs : List Char) : Option Date := do
  let (year, cs) ← year? (skipBlanks cs)
  let cs ← hyphen? cs
  let (month, cs) ← number? 2 (skipBlanks cs)
  let cs ← hyphen? cs
  let (day, cs) ← number? 2 (skipBlanks cs)
  if (skipBlanks cs).isEmpty then ofNumbers? year month day else none

def ofText? (s : String) : Option Date := ofChars? s.toList

end Date
end TroughTrader
