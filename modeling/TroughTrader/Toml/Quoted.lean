import TroughTrader.Toml.Scalar

/-!
# Quoted text of TOML

Strings and keys between quotes. Double quotes know escapes and single quotes do not; three quotes
enclose text of several lines, which drops a line end right after them. Each reader takes the text
behind the opening quotes and gives the content and the rest.
-/

namespace TroughTrader.Toml

/-- The characters that stand for themselves between quotes: all but control characters, of which
only the tab may occur. -/
def isPlain (c : Char) : Bool := c == '\t' || (32 ≤ c.toNat && c.toNat ≠ 127)

def scalar? (digits : List Char) : Option Char := do
  let ds ← digits.mapM Hexadecimal.value?
  let code := ds.foldl (fun n d => 16 * n + d) 0
  if code.isValidChar then some (Char.ofNat code) else none

def letter? : Char → Option Char
  | 'b' => some '\x08'
  | 't' => some '\t'
  | 'n' => some '\n'
  | 'f' => some '\x0c'
  | 'r' => some '\r'
  | '"' => some '"'
  | '\\' => some '\\'
  | _ => none

def prepend (c : Char) : Option (List Char × List Char) → Option (List Char × List Char) :=
  Option.map fun (content, rest) => (c :: content, rest)

def basic? : List Char → Option (List Char × List Char)
  | [] => none
  | '"' :: rest => some ([], rest)
  | '\\' :: 'u' :: a :: b :: c :: d :: rest => do prepend (← scalar? [a, b, c, d]) (basic? rest)
  | '\\' :: 'U' :: a :: b :: c :: d :: e :: f :: g :: h :: rest => do
    prepend (← scalar? [a, b, c, d, e, f, g, h]) (basic? rest)
  | '\\' :: e :: rest => do prepend (← letter? e) (basic? rest)
  | c :: rest => if isPlain c then prepend c (basic? rest) else none

def literal? : List Char → Option (List Char × List Char)
  | [] => none
  | '\'' :: rest => some ([], rest)
  | c :: rest => if isPlain c then prepend c (literal? rest) else none

/-- Where a text of several lines is: in the text, behind a backslash that ends a line, or in the
blanks and line ends that such a backslash drops. -/
inductive LineMode where
  | text
  | lineEnd
  | dropping
  deriving DecidableEq

/-- Text of several lines up to three double quotes, with at most two quotes more before them. -/
def multiBasic? : LineMode → List Char → Option (List Char × List Char)
  | _, [] => none
  | .lineEnd, '\n' :: rest => multiBasic? .dropping rest
  | .lineEnd, '\r' :: '\n' :: rest => multiBasic? .dropping rest
  | .lineEnd, c :: rest => if c = ' ' ∨ c = '\t' then multiBasic? .lineEnd rest else none
  | .dropping, '\n' :: rest => multiBasic? .dropping rest
  | .dropping, '\r' :: '\n' :: rest => multiBasic? .dropping rest
  | .dropping, ' ' :: rest => multiBasic? .dropping rest
  | .dropping, '\t' :: rest => multiBasic? .dropping rest
  | _, '"' :: '"' :: '"' :: '"' :: '"' :: rest => some (['"', '"'], rest)
  | _, '"' :: '"' :: '"' :: '"' :: rest => some (['"'], rest)
  | _, '"' :: '"' :: '"' :: rest => some ([], rest)
  | _, '"' :: rest => prepend '"' (multiBasic? .text rest)
  | _, '\\' :: 'u' :: a :: b :: c :: d :: rest => do
    prepend (← scalar? [a, b, c, d]) (multiBasic? .text rest)
  | _, '\\' :: 'U' :: a :: b :: c :: d :: e :: f :: g :: h :: rest => do
    prepend (← scalar? [a, b, c, d, e, f, g, h]) (multiBasic? .text rest)
  | _, '\\' :: '\r' :: '\n' :: rest => multiBasic? .dropping rest
  | _, '\\' :: e :: rest =>
    if e = '\n' then multiBasic? .dropping rest
    else if e = ' ' ∨ e = '\t' then multiBasic? .lineEnd rest
    else do prepend (← letter? e) (multiBasic? .text rest)
  | _, '\r' :: '\n' :: rest => prepend '\n' (multiBasic? .text rest)
  | _, c :: rest =>
    if isPlain c ∨ c = '\n' then prepend c (multiBasic? .text rest) else none

def multiLiteral? : List Char → Option (List Char × List Char)
  | [] => none
  | '\'' :: '\'' :: '\'' :: '\'' :: '\'' :: rest => some (['\'', '\''], rest)
  | '\'' :: '\'' :: '\'' :: '\'' :: rest => some (['\''], rest)
  | '\'' :: '\'' :: '\'' :: rest => some ([], rest)
  | '\r' :: '\n' :: rest => prepend '\n' (multiLiteral? rest)
  | c :: rest => if isPlain c ∨ c = '\n' then prepend c (multiLiteral? rest) else none

def dropLineEnd : List Char → List Char
  | '\n' :: rest => rest
  | '\r' :: '\n' :: rest => rest
  | rest => rest

def quoted? : List Char → Option (List Char × List Char)
  | '"' :: '"' :: '"' :: rest => multiBasic? .text (dropLineEnd rest)
  | '"' :: rest => basic? rest
  | '\'' :: '\'' :: '\'' :: rest => multiLiteral? (dropLineEnd rest)
  | '\'' :: rest => literal? rest
  | _ => none

end TroughTrader.Toml
