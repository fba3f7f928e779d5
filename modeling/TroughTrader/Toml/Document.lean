import TroughTrader.Toml.Quoted

/-!
# TOML documents

A document is read line by line: blank lines and comments, headers of tables and of arrays of
tables, and keys with their values. Values may nest; the readers of nested values take the number of
brackets and members that they may still read, for which the length of the text is always enough.
-/

namespace TroughTrader.Toml

def skipBlanks (cs : List Char) : List Char := cs.dropWhile fun c => c == ' ' || c == '\t'

def skipComment : List Char → List Char
  | '#' :: rest => rest.dropWhile isPlain
  | cs => cs

def lineEnd? (cs : List Char) : Option (List Char) :=
  match skipComment (skipBlanks cs) with
  | [] => some []
  | '\n' :: rest => some rest
  | '\r' :: '\n' :: rest => some rest
  | _ => none

/-- What may stand around the values of an array: blanks, line ends and comments. -/
def skipLines : Nat → List Char → List Char
  | 0, cs => cs
  | fuel + 1, cs =>
    match skipBlanks cs with
    | '\n' :: rest => skipLines fuel rest
    | '\r' :: '\n' :: rest => skipLines fuel rest
    | '#' :: rest => skipLines fuel (rest.dropWhile isPlain)
    | rest => rest

def isBareKeyChar (c : Char) : Bool := c.isAlphanum || c == '_' || c == '-'

def keyPart? : List Char → Option (String × List Char)
  | '"' :: rest => (basic? rest).map fun (name, tail) => (String.ofList name, tail)
  | '\'' :: rest => (literal? rest).map fun (name, tail) => (String.ofList name, tail)
  | cs =>
    let name := cs.takeWhile isBareKeyChar
    if name.isEmpty then none else some (String.ofList name, cs.dropWhile isBareKeyChar)

def key? : Nat → List Char → Option (List String × List Char)
  | 0, _ => none
  | fuel + 1, cs => do
    let (name, rest) ← keyPart? (skipBlanks cs)
    match skipBlanks rest with
    | '.' :: rest => do
      let (names, rest) ← key? fuel rest
      return (name :: names, rest)
    | rest => return ([name], rest)

def keyAndEquals? (cs : List Char) : Option (List String × List Char) := do
  let (path, rest) ← key? cs.length cs
  match rest with
  | '=' :: rest => return (path, rest)
  | _ => none

mutual

def value? : Nat → List Char → Option (Toml × List Char)
  | 0, _ => none
  | fuel + 1, cs =>
    match cs with
    | '"' :: _ | '\'' :: _ =>
      (quoted? cs).map fun (content, rest) => (.string (String.ofList content), rest)
    | '[' :: rest => (items? fuel rest).map fun (items, rest) => (.array items, rest)
    | '\x7b' :: rest =>
      match skipBlanks rest with
      | '\x7d' :: rest => some (.table .inline [], rest)
      | rest => (members? fuel [] rest).map fun (ms, rest) => (.table .inline ms, rest)
    | _ => (ofWord? (cs.takeWhile isWordChar)).map (·, cs.dropWhile isWordChar)

/-- The items of an array up to its bracket; a comma may follow the last one. -/
def items? : Nat → List Char → Option (List Toml × List Char)
  | 0, _ => none
  | fuel + 1, cs =>
    match skipLines cs.length cs with
    | ']' :: rest => some ([], rest)
    | cs => do
      let (v, rest) ← value? fuel cs
      match skipLines rest.length rest with
      | ',' :: rest => do
        let (vs, rest) ← items? fuel rest
        return (v :: vs, rest)
      | ']' :: rest => return ([v], rest)
      | _ => none

def members? : Nat → Members → List Char → Option (Members × List Char)
  | 0, _, _ => none
  | fuel + 1, ms, cs => do
    let (path, rest) ← keyAndEquals? cs
    let (v, rest) ← value? fuel (skipBlanks rest)
    let ms ← ms.insert? v path
    match skipBlanks rest with
    | ',' :: rest => members? fuel ms rest
    | '\x7d' :: rest => return (ms, rest)
    | _ => none

end

/-- A document that is partly read: its members, and the path of the table whose header came
last. -/
structure Reading where
  members : Members
  current : List String

namespace Reading

def keyValue? (r : Reading) (cs : List Char) : Option (Reading × List Char) := do
  let (path, rest) ← keyAndEquals? cs
  let (v, rest) ← value? rest.length (skipBlanks rest)
  let rest ← lineEnd? rest
  let members ← r.members.modifyAt? (Members.insert? v path) r.current
  return ({ r with members }, rest)

/-- The members with the last name of a path opened under all the others. -/
def openPath? (openName? : String → Members → Option Members) (path : List String)
    (ms : Members) : Option Members := do
  let name ← path.getLast?
  ms.modifyAt? (openName? name) path.dropLast

def rowHeader? (r : Reading) (cs : List Char) : Option (Reading × List Char) := do
  let (path, rest) ← key? cs.length cs
  match rest with
  | ']' :: ']' :: rest => do
    let rest ← lineEnd? rest
    return (⟨← openPath? Members.openRow? path r.members, path⟩, rest)
  | _ => none

def tableHeader? (r : Reading) (cs : List Char) : Option (Reading × List Char) := do
  let (path, rest) ← key? cs.length cs
  match rest with
  | ']' :: rest => do
    let rest ← lineEnd? rest
    return (⟨← openPath? Members.openTable? path r.members, path⟩, rest)
  | _ => none

def line? (r : Reading) (cs : List Char) : Option (Reading × List Char) :=
  match cs with
  | '[' :: '[' :: rest => r.rowHeader? rest
  | '[' :: rest => r.tableHeader? rest
  | '#' :: _ | '\n' :: _ | '\r' :: _ => (lineEnd? cs).map (r, ·)
  | _ => r.keyValue? cs

def lines? : Nat → Reading → List Char → Option Members
  | fuel, r, cs =>
    match fuel, skipBlanks cs with
    | _, [] => some r.members
    | 0, _ => none
    | fuel + 1, cs => do
      -- A line takes at least one character, so the fuel lasts as long as the text.
      let (r, rest) ← r.line? cs
      lines? fuel r rest

end Reading

/-- The members of a document. A byte order mark may come first. -/
def ofChars? : List Char → Option Members
  | '\ufeff' :: cs => Reading.lines? cs.length ⟨[], []⟩ cs
  | cs => Reading.lines? cs.length ⟨[], []⟩ cs

def ofText? (text : String) : Option Members := ofChars? text.toList

end TroughTrader.Toml
