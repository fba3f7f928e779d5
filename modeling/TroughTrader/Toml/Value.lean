import TroughTrader.Decimal.Numeral

/-!
# TOML values

The values of a configuration document: truth values, integers, binary64 numbers, strings, arrays
and tables. A table remembers how it came to be, because that decides who may still add to it: by its
own header, by a longer header or a dotted key that passes through it, or inline. Moments of time are
no values here, so a document that holds one is refused.
-/

namespace TroughTrader

inductive Toml.Origin where
  | header
  | implied
  | dotted
  | inline
  deriving DecidableEq

inductive Toml where
  | boolean (b : Bool)
  | integer (n : Int)
  | real (x : Float)
  | string (s : String)
  | array (items : List Toml)
  | table (origin : Toml.Origin) (members : List (String × Toml))
  /-- An array of tables, the last one first. -/
  | rows (tables : List (List (String × Toml)))

namespace Toml

abbrev Members := List (String × Toml)

namespace Members

def replace (ms : Members) (name : String) (v : Toml) : Members :=
  ms.map fun m => if m.1 == name then (name, v) else m

def under? : Toml → Option (Members × (Members → Toml))
  | .table origin inner => if origin = .inline then none else some (inner, .table origin)
  | .rows (last :: others) => some (last, fun ms => .rows (ms :: others))
  | _ => none

def modifyAt? (change : Members → Option Members) : List String → Members → Option Members
  | [], ms => change ms
  | name :: path, ms =>
    match ms.lookup name with
    | none => (modifyAt? change path []).map fun inner => ms ++ [(name, .table .implied inner)]
    | some v => do
      let (inner, rebuild) ← under? v
      let inner ← modifyAt? change path inner
      return ms.replace name (rebuild inner)

/-- Adds a value under a dotted key. Tables that a dotted key made may grow, and no others. -/
def insert? (v : Toml) : List String → Members → Option Members
  | [], _ => none
  | [name], ms => if (ms.lookup name).isSome then none else some (ms ++ [(name, v)])
  | name :: path, ms =>
    match ms.lookup name with
    | none => (insert? v path []).map fun inner => ms ++ [(name, .table .dotted inner)]
    | some (.table .dotted inner) =>
      (insert? v path inner).map fun inner => ms.replace name (.table .dotted inner)
    | some _ => none

def openTable? (name : String) (ms : Members) : Option Members :=
  match ms.lookup name with
  | none => some (ms ++ [(name, .table .header [])])
  | some (.table .implied inner) => some (ms.replace name (.table .header inner))
  | some _ => none

def openRow? (name : String) (ms : Members) : Option Members :=
  match ms.lookup name with
  | none => some (ms ++ [(name, .rows [[]])])
  | some (.rows tables) => some (ms.replace name (.rows ([] :: tables)))
  | some _ => none

end Members
end Toml
end TroughTrader
