import TroughTrader.Calendar.Date
import TroughTrader.Decimal.Layout
import TroughTrader.Json.Text
import TroughTrader.Record.Slots

/-!
# Fields in JSON

The values of fields as JSON, and back: counts, prices, truth values, dates, names, and values that
may be missing. `openSlots?` and `closedSlots?` take the fields of a record from an object or from
an array.
-/

namespace TroughTrader.Json

def count? : Json → Option UInt64
  | .number n => n.toCount?
  | _ => none

def price? : Json → Option Float
  | .number n => let x := n.toFloat; if x.isFinite then some x else none
  | _ => none

def bool? : Json → Option Bool
  | .bool b => some b
  | _ => none

def text? : Json → Option String
  | .string body => Body.text? body
  | _ => none

def date? (v : Json) : Option Date := v.text?.bind Date.ofText?

/-- A name without content: a string, or an object with the name as its only key and null as its
value. -/
def name? : Json → Option String
  | .string body => Body.text? body
  | .object [(key, .null)] => Body.text? key
  | _ => none

def option? {α : Type} (read : Json → Option α) : Json → Option (Option α)
  | .null => some none
  | v => (read v).map some

/-- A field that may be missing or null. -/
def optional {α : Type} (read : Json → Option α) : Option Json → Option (Option α)
  | none => some none
  | some v => option? read v

/-- The slots of an open record: an object, or an array with a value for each field. -/
def openSlots? (names : List String) : Json → Option (List (Option Json))
  | .object members => do
    let members ← members.mapM fun (key, v) => (Body.text? key).map (·, v)
    Record.slots? false names members
  | .array items => if items.length = names.length then some (items.map some) else none
  | _ => none

/-- The slots of a closed record whose fields all have defaults: an array may end early. -/
def closedSlots? (names : List String) : Json → Option (List (Option Json))
  | .object members => do
    let members ← members.mapM fun (key, v) => (Body.text? key).map (·, v)
    Record.slots? true names members
  | .array items =>
    if items.length ≤ names.length then
      some (items.map some ++ List.replicate (names.length - items.length) none)
    else none
  | _ => none

def ofPrice (x : Float) : Json :=
  if x.isFinite then .number (Decimal.Layout.json.numeral x) else .null

def ofOption {α : Type} (write : α → Json) : Option α → Json
  | none => .null
  | some x => write x

def ofDate (d : Date) : Json := ofText d.text

def ofFields (fields : List (String × Json)) : Json :=
  .object (fields.map fun (name, v) => (Body.ofText name, v))

end TroughTrader.Json
