import TroughTrader.Json.Token

/-!
# JSON texts

`Json.tokens` writes a value as tokens and `Json.text` as compact text. `Json.ofText?` reads a
text: its tokens drive a reader that keeps the brackets that are still open, however many.
-/

namespace TroughTrader.Json

/-- A bracket that is still open, with what stands in it so far, last first; an object may also
have a key that waits for its value. -/
inductive Frame where
  | array (items : List Json)
  | object (members : List (Body × Json)) (key : Body)

inductive Place where
  | value
  | firstItem
  | firstKey
  | key
  | colon (name : Body)
  | separator
  deriving DecidableEq

/-- A text that is partly read. `done` is a value that stands outside all brackets. -/
structure Progress where
  place : Place
  frames : List Frame
  done : Option Json

namespace Progress

/-- A complete value has been read: it goes into the innermost open bracket. -/
def complete (v : Json) : List Frame → Progress
  | [] => ⟨.separator, [], some v⟩
  | .array items :: frames => ⟨.separator, .array (v :: items) :: frames, none⟩
  | .object members key :: frames =>
    ⟨.separator, .object ((key, v) :: members) key :: frames, none⟩

def enter (frame : Frame) (place : Place) (frames : List Frame) : Progress :=
  ⟨place, frame :: frames, none⟩

def value? (frames : List Frame) : Token → Option Progress
  | .null => some (complete .null frames)
  | .bool b => some (complete (.bool b) frames)
  | .number n => some (complete (.number n) frames)
  | .string body => some (complete (.string body) frames)
  | .openArray => some (enter (.array []) .firstItem frames)
  | .openObject => some (enter (.object [] []) .firstKey frames)
  | _ => none

def close? : List Frame → Token → Option Progress
  | .array items :: frames, .closeArray => some (complete (.array items.reverse) frames)
  | .object members _ :: frames, .closeObject => some (complete (.object members.reverse) frames)
  | _, _ => none

/-- After a value: a comma and another one, or the end of the bracket. -/
def separator? (frames : List Frame) : Token → Option Progress
  | .comma =>
    match frames with
    | .array _ :: _ => some ⟨.value, frames, none⟩
    | .object _ _ :: _ => some ⟨.key, frames, none⟩
    | [] => none
  | t => close? frames t

def step? (p : Progress) (t : Token) : Option Progress :=
  match p.place, t with
  | .value, t => value? p.frames t
  | .firstItem, .closeArray => close? p.frames t
  | .firstItem, t => value? p.frames t
  | .firstKey, .closeObject => close? p.frames t
  | .firstKey, .string body => some ⟨.colon body, p.frames, none⟩
  | .key, .string body => some ⟨.colon body, p.frames, none⟩
  | .colon name, .colon =>
    match p.frames with
    | .object members _ :: frames => some ⟨.value, .object members name :: frames, none⟩
    | _ => none
  | .separator, t => separator? p.frames t
  | _, _ => none

def initial : Progress := ⟨.value, [], none⟩

end Progress

def ofTokens? (tokens : List Token) : Option Json :=
  (tokens.foldlM Progress.step? Progress.initial).bind (·.done)

def ofChars? (text : List Char) : Option Json := (Token.scan? text).bind ofTokens?

def ofText? (text : String) : Option Json := ofChars? text.toList

mutual

def tokens : Json → List Token
  | .null => [.null]
  | .bool b => [.bool b]
  | .number n => [.number n]
  | .string body => [.string body]
  | .array items => .openArray :: itemTokens items ++ [.closeArray]
  | .object members => .openObject :: memberTokens members ++ [.closeObject]

def itemTokens : List Json → List Token
  | [] => []
  | [v] => tokens v
  | v :: w :: rest => tokens v ++ .comma :: itemTokens (w :: rest)

def memberTokens : List (Body × Json) → List Token
  | [] => []
  | [(key, v)] => .string key :: .colon :: tokens v
  | (key, v) :: next :: rest =>
    .string key :: .colon :: tokens v ++ .comma :: memberTokens (next :: rest)

end

def text (v : Json) : String := String.ofList (v.tokens.flatMap Token.chars)

end TroughTrader.Json
