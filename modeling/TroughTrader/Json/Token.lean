import TroughTrader.Json.Value

/-!
# Tokens of JSON

A JSON text is cut into brackets, commas, colons, strings and words. A word ends at a blank, at a
quote or at punctuation, and must be `null`, `true`, `false` or a number. `Token.scan?` reads a
text from left to right with the state `Mode`; `Token.chars` writes one token.
-/

namespace TroughTrader.Json

inductive Token where
  | openArray
  | closeArray
  | openObject
  | closeObject
  | comma
  | colon
  | null
  | bool (b : Bool)
  | number (n : Decimal.Numeral)
  | string (body : Body)
  deriving DecidableEq

namespace Token

open Decimal

def isBlank (c : Char) : Bool := c == ' ' || c == '\n' || c == '\t' || c == '\r'

def punctuation? : Char → Option Token
  | '[' => some .openArray
  | ']' => some .closeArray
  | '\x7b' => some .openObject
  | '\x7d' => some .closeObject
  | ',' => some .comma
  | ':' => some .colon
  | _ => none

/-- A whole part has no leading zero. -/
def isWhole (ds : Digits) : Bool := !ds.isEmpty && (ds.head? != some Digits.zero || ds.length == 1)

/-- The exponent, if there is one: a letter, a sign or none, and digits up to the end. -/
def exponent? : List Char → Option (Option Int)
  | [] => some none
  | e :: rest =>
    if e = 'e' ∨ e = 'E' then
      let (negative, digits) :=
        match rest with
        | '-' :: r => (true, r)
        | '+' :: r => (false, r)
        | r => (false, r)
      match Digits.span digits with
      | ([], _) => none
      | (ds, []) =>
        let n := Digits.toNat ds
        some (some (if negative then -(n : Int) else n))
      | _ => none
    else none

def fraction? : List Char → Option (Digits × List Char)
  | '.' :: rest =>
    match Digits.span rest with
    | ([], _) => none
    | (ds, tail) => some (ds, tail)
  | rest => some ([], rest)

def numeral? (word : List Char) : Option Numeral := do
  let (negative, cs) :=
    match word with
    | '-' :: r => (true, r)
    | r => (false, r)
  let (whole, cs) := Digits.span cs
  let (fraction, cs) ← fraction? cs
  let exponent ← exponent? cs
  if isWhole whole then some ⟨negative, whole, fraction, exponent⟩ else none

def ofWord? (word : List Char) : Option Token :=
  if word = ['n', 'u', 'l', 'l'] then some .null
  else if word = ['t', 'r', 'u', 'e'] then some (.bool true)
  else if word = ['f', 'a', 'l', 's', 'e'] then some (.bool false)
  else (numeral? word).map .number

/-- What is being read: nothing, a word, or a string. Characters are kept last first. -/
inductive Mode where
  | between
  | word (seen : List Char)
  | string (seen : List Char)
  | escape (seen : List Char)

/-- The tokens that a character completes, and what is read after it, outside of a word or
string. -/
def start (c : Char) : List Token × Mode :=
  if isBlank c then ([], .between)
  else if c = '"' then ([], .string [])
  else match punctuation? c with
    | some t => ([t], .between)
    | none => ([], .word [c])

def endsWord (c : Char) : Bool := isBlank c || c == '"' || (punctuation? c).isSome

def advance? : Mode → Char → Option (List Token × Mode)
  | .between, c => some (start c)
  | .word seen, c =>
    if endsWord c then
      (ofWord? seen.reverse).map fun t => (t :: (start c).1, (start c).2)
    else some ([], .word (c :: seen))
  | .string seen, c =>
    if c = '"' then
      if Body.isWritten seen.reverse then some ([.string seen.reverse], .between) else none
    else if c = '\\' then some ([], .escape seen)
    else some ([], .string (c :: seen))
  | .escape seen, c => some ([], .string (c :: '\\' :: seen))

def finish? : Mode → Option (List Token)
  | .between => some []
  | .word seen => (ofWord? seen.reverse).map ([·])
  | _ => none

def step? (state : List Token × Mode) (c : Char) : Option (List Token × Mode) :=
  (advance? state.2 c).map fun (tokens, mode) => (tokens.reverseAux state.1, mode)

def scan? (text : List Char) : Option (List Token) := do
  let (tokens, mode) ← text.foldlM step? ([], .between)
  let last ← finish? mode
  return tokens.reverseAux last

def chars : Token → List Char
  | .openArray => ['[']
  | .closeArray => [']']
  | .openObject => ['\x7b']
  | .closeObject => ['\x7d']
  | .comma => [',']
  | .colon => [':']
  | .null => ['n', 'u', 'l', 'l']
  | .bool true => ['t', 'r', 'u', 'e']
  | .bool false => ['f', 'a', 'l', 's', 'e']
  | .number n => n.chars true
  | .string body => '"' :: body ++ ['"']

end Token
end TroughTrader.Json
