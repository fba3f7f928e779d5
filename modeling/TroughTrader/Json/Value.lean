import TroughTrader.Decimal.Numeral
import TroughTrader.Text.Hexadecimal

/-!
# JSON values

A value keeps numbers as numerals and strings as they are written between the quotes, escapes
included, so that nothing is lost before a reader says what it wants. `Body` is the written form of
a string; `Body.text?` is its text, which a body that names half of a surrogate pair does not have,
and gives back what `Body.ofText` wrote (`Body.text?_ofText`).
-/

namespace TroughTrader

/-- What is written between the quotes of a JSON string. -/
abbrev Json.Body := List Char

inductive Json where
  | null
  | bool (b : Bool)
  | number (n : Decimal.Numeral)
  | string (body : Json.Body)
  | array (items : List Json)
  | object (members : List (Json.Body × Json))

namespace Json

namespace Body

open Hexadecimal

def hex4? (a b c d : Char) : Option Nat := do
  return ((16 * (← value? a) + (← value? b)) * 16 + (← value? c)) * 16 + (← value? d)

def letter? : Char → Option Nat
  | '"' => some 34
  | '\\' => some 92
  | '/' => some 47
  | 'b' => some 8
  | 'f' => some 12
  | 'n' => some 10
  | 'r' => some 13
  | 't' => some 9
  | _ => none

/-- The codes that a body names, one after the other: characters, and halves of surrogate pairs.
Fails on an escape that is none and on a control character. -/
def codes? : List Char → Option (List Nat)
  | [] => some []
  | '\\' :: 'u' :: a :: b :: c :: d :: rest => do
    let code ← hex4? a b c d
    return code :: (← codes? rest)
  | '\\' :: e :: rest => do
    let code ← letter? e
    return code :: (← codes? rest)
  | c :: rest =>
    if c = '\\' ∨ c = '"' ∨ c.toNat < 32 then none else (codes? rest).map (c.toNat :: ·)

/-- Codes as characters: a high half and a low half that follow each other make one. -/
def join? : List Nat → Option (List Char)
  | [] => some []
  | high :: low :: rest =>
    if 0xd800 ≤ high ∧ high ≤ 0xdbff then
      if 0xdc00 ≤ low ∧ low ≤ 0xdfff then
        (join? rest).map (Char.ofNat (0x10000 + (high - 0xd800) * 0x400 + (low - 0xdc00)) :: ·)
      else none
    else if high.isValidChar then (join? (low :: rest)).map (Char.ofNat high :: ·) else none
  | [code] => if code.isValidChar then some [Char.ofNat code] else none

/-- Whether a body is one that may stand between quotes. -/
def isWritten (body : Body) : Bool := (codes? body).isSome

def text? (body : Body) : Option String :=
  ((codes? body).bind join?).map String.ofList

def escapeChar (c : Char) : List Char :=
  if c = '"' then ['\\', '"']
  else if c = '\\' then ['\\', '\\']
  else if c.toNat = 8 then ['\\', 'b']
  else if c.toNat = 12 then ['\\', 'f']
  else if c.toNat = 10 then ['\\', 'n']
  else if c.toNat = 13 then ['\\', 'r']
  else if c.toNat = 9 then ['\\', 't']
  else if c.toNat < 32 then
    ['\\', 'u', '0', '0', digit (c.toNat / 16), digit (c.toNat % 16)]
  else [c]

def ofText (s : String) : Body := s.toList.flatMap escapeChar

theorem codes?_escapeChar_append (c : Char) (body : Body) :
    codes? (escapeChar c ++ body) = (codes? body).map (c.toNat :: ·) := by
  have letter : ∀ {e : Char} {n : Nat}, e ≠ 'u' → letter? e = some n →
      codes? ('\\' :: e :: body) = (codes? body).map (n :: ·) := by
    intro e n notU h
    rw [codes?, h]
    · cases codes? body <;> rfl
    · simp_all
  simp only [escapeChar]
  split
  case isTrue h => subst h; exact letter (by decide) (by decide)
  split
  case isTrue h => subst h; exact letter (by decide) (by decide)
  split
  case isTrue h => rw [h]; exact letter (by decide) (by decide)
  split
  case isTrue h => rw [h]; exact letter (by decide) (by decide)
  split
  case isTrue h => rw [h]; exact letter (by decide) (by decide)
  split
  case isTrue h => rw [h]; exact letter (by decide) (by decide)
  split
  case isTrue h => rw [h]; exact letter (by decide) (by decide)
  split
  case isTrue h =>
    have zero : value? '0' = some 0 := by decide
    have code : hex4? '0' '0' (digit (c.toNat / 16)) (digit (c.toNat % 16)) = some c.toNat := by
      simp only [hex4?, zero, value?_digit (n := c.toNat / 16) (by omega),
        value?_digit (n := c.toNat % 16) (by omega), Option.bind_eq_bind, Option.bind_some]
      exact congrArg some (by omega)
    simp only [List.cons_append, List.nil_append, codes?, code]
    cases codes? body <;> rfl
  case isFalse quote backslash _ _ _ _ _ control =>
    rw [List.singleton_append, codes?]
    · simp [quote, backslash, control]
    · simp_all
    · simp_all

theorem codes?_ofText (s : String) : codes? (ofText s) = some (s.toList.map Char.toNat) := by
  rw [ofText]
  induction s.toList with
  | nil => rfl
  | cons c cs ih => rw [List.flatMap_cons, codes?_escapeChar_append, ih]; rfl

theorem join?_map_toNat (cs : List Char) : join? (cs.map Char.toNat) = some cs := by
  induction cs with
  | nil => rfl
  | cons c cs ih =>
    have valid : c.toNat.isValidChar := c.valid
    cases cs with
    | nil => simp [join?, valid]
    | cons d ds =>
      have outside : ¬ (0xd800 ≤ c.toNat ∧ c.toNat ≤ 0xdbff) := by
        intro h
        rcases valid with h' | h' <;> omega
      simp only [List.map_cons] at ih
      simp [join?, outside, valid, ih]

theorem text?_ofText (s : String) : text? (ofText s) = some s := by
  simp [text?, codes?_ofText, join?_map_toNat]

end Body

def ofText (s : String) : Json := .string (Body.ofText s)

def ofCount (n : UInt64) : Json := .number (.ofNat n.toNat)

end Json
end TroughTrader
