import TroughTrader.Record.JsonFields
import TroughTrader.Settings.Slots
import TroughTrader.Trade.Strategy

/-!
# JSON forms

Every record that leaves the library has a JSON form: `toJson` writes it with its fields in order,
and `ofJson?` reads it from an object or, with the fields in order, from an array. Choices are
written as their names.
-/

namespace TroughTrader

open Record Json

namespace OrderId

def toJson (id : OrderId) : Json := Json.ofCount id.number

def ofJson? (v : Json) : Option OrderId := v.count?.map OrderId.mk

end OrderId

namespace Side

def name : Side → String
  | buy => "Buy"
  | sell => "Sell"

def all : List Side := [buy, sell]

def toJson (s : Side) : Json := Json.ofText s.name

def ofJson? (v : Json) : Option Side := v.name?.bind fun n => all.find? fun s => s.name == n

end Side

namespace OrderStatus

def name : OrderStatus → String
  | submitted => "Submitted"
  | accepted => "Accepted"
  | partiallyFilled => "PartiallyFilled"
  | completed => "Completed"
  | cancelled => "Cancelled"
  | expired => "Expired"
  | rejected => "Rejected"

def all : List OrderStatus :=
  [submitted, accepted, partiallyFilled, completed, cancelled, expired, rejected]

def ofName? (n : String) : Option OrderStatus := all.find? fun s => s.name == n

theorem ofName?_name (s : OrderStatus) : ofName? s.name = some s := by
  cases s <;> decide

def toJson (s : OrderStatus) : Json := Json.ofText s.name

def ofJson? (v : Json) : Option OrderStatus := v.name?.bind ofName?

end OrderStatus

namespace Exposure

def name : Exposure → String
  | flat => "Flat"
  | long => "Long"

def all : List Exposure := [flat, long]

def toJson (e : Exposure) : Json := Json.ofText e.name

def ofJson? (v : Json) : Option Exposure := v.name?.bind fun n => all.find? fun e => e.name == n

end Exposure

namespace Stage

def name : Stage → String
  | flat => "Flat"
  | pendingEntry => "PendingEntry"
  | long => "Long"
  | pendingExit => "PendingExit"

def all : List Stage := [flat, pendingEntry, long, pendingExit]

def ofName? (n : String) : Option Stage := all.find? fun s => s.name == n

theorem ofName?_name (s : Stage) : ofName? s.name = some s := by
  cases s <;> decide

def toJson (s : Stage) : Json := Json.ofText s.name

def ofJson? (v : Json) : Option Stage := v.name?.bind ofName?

end Stage

namespace SmallSize

def toJson (s : SmallSize) : Json := Json.ofText s.key

def ofJson? (v : Json) : Option SmallSize := v.name?.bind ofKey?

end SmallSize

namespace Bar

def fields : List String := ["index", "date", "open", "high", "low", "close"]

def toJson (b : Bar) : Json :=
  Json.ofFields
    [("index", Json.ofCount b.index), ("date", Json.ofDate b.date),
     ("open", Json.ofPrice b.opening), ("high", Json.ofPrice b.high),
     ("low", Json.ofPrice b.low), ("close", Json.ofPrice b.close)]

def ofJson? (v : Json) : Option Bar := do
  match ← v.openSlots? fields with
  | [index, date, opening, high, low, close] =>
    return {
      index := ← required count? index
      date := ← required date? date
      opening := ← required price? opening
      high := ← required price? high
      low := ← required price? low
      close := ← required price? close }
  | _ => none

end Bar

namespace OrderReport

def fields : List String := ["handle", "status", "fill_price", "filled_size"]

def toJson (r : OrderReport) : Json :=
  Json.ofFields
    [("handle", r.order.toJson), ("status", r.status.toJson),
     ("fill_price", Json.ofOption Json.ofPrice r.fillPrice),
     ("filled_size", Json.ofCount r.filledSize)]

def ofJson? (v : Json) : Option OrderReport := do
  match ← v.openSlots? fields with
  | [order, status, fillPrice, filledSize] =>
    return {
      order := ← required OrderId.ofJson? order
      status := ← required OrderStatus.ofJson? status
      fillPrice := ← optional price? fillPrice
      filledSize := ← required count? filledSize }
  | _ => none

end OrderReport

namespace BottomAnswers

def fields : List String := ["dipped", "cross_confirmed", "spacing_ok"]

def toJson (a : BottomAnswers) : Json :=
  Json.ofFields
    [("dipped", .bool a.dips), ("cross_confirmed", .bool a.crossed),
     ("spacing_ok", .bool a.spaced)]

def ofJson? (v : Json) : Option BottomAnswers := do
  match ← v.openSlots? fields with
  | [dips, crossed, spaced] =>
    return {
      dips := ← required bool? dips
      crossed := ← required bool? crossed
      spaced := ← required bool? spaced }
  | _ => none

end BottomAnswers

namespace Bottom

def fields : List String := ["bar_index", "date", "close", "low", "lower_envelope"]

def toJson (b : Bottom) : Json :=
  Json.ofFields
    [("bar_index", Json.ofCount b.barIndex), ("date", Json.ofDate b.date),
     ("close", Json.ofPrice b.close), ("low", Json.ofPrice b.low),
     ("lower_envelope", Json.ofPrice b.lowerEnvelope)]

def ofJson? (v : Json) : Option Bottom := do
  match ← v.openSlots? fields with
  | [barIndex, date, close, low, lowerEnvelope] =>
    return {
      barIndex := ← required count? barIndex
      date := ← required date? date
      close := ← required price? close
      low := ← required price? low
      lowerEnvelope := ← required price? lowerEnvelope }
  | _ => none

end Bottom

namespace JournalEntry

def fields : List String :=
  ["bar_index", "date", "phase", "entry_price", "stop_loss_price", "last_signal_bar",
   "signal_fired"]

def toJson (e : JournalEntry) : Json :=
  Json.ofFields
    [("bar_index", Json.ofCount e.barIndex), ("date", Json.ofDate e.date),
     ("phase", e.stage.toJson), ("entry_price", Json.ofOption Json.ofPrice e.entryPrice),
     ("stop_loss_price", Json.ofOption Json.ofPrice e.stopPrice),
     ("last_signal_bar", Json.ofOption Json.ofCount e.lastEntry),
     ("signal_fired", .bool e.wasBottom)]

def ofJson? (v : Json) : Option JournalEntry := do
  match ← v.openSlots? fields with
  | [barIndex, date, stage, entryPrice, stopPrice, lastEntry, wasBottom] =>
    return {
      barIndex := ← required count? barIndex
      date := ← required date? date
      stage := ← required Stage.ofJson? stage
      entryPrice := ← optional price? entryPrice
      stopPrice := ← optional price? stopPrice
      lastEntry := ← optional count? lastEntry
      wasBottom := ← required bool? wasBottom }
  | _ => none

def journalJson (entries : List JournalEntry) : Json := .array (entries.map toJson)

def journalOfJson? : Json → Option (List JournalEntry)
  | .array items => items.mapM ofJson?
  | _ => none

end JournalEntry

namespace Settings

def valueJson (s : Settings) : Setting → Json
  | .cycleLength => Json.ofCount s.cycleLength
  | .envelopePct => Json.ofPrice s.envelopePct
  | .confirmBars => Json.ofCount s.confirmBars
  | .minSpaceFrac => Json.ofPrice s.minSpaceFrac
  | .riskPct => Json.ofPrice s.riskPct
  | .maxRiskPct => Json.ofPrice s.maxRiskPct
  | .smallSize => s.smallSize.toJson

def toJson (s : Settings) : Json :=
  Json.ofFields (Setting.all.map fun f => (f.key, s.valueJson f))

def ofJson? (v : Json) : Option Settings := do
  ofSlots? count? price? SmallSize.ofJson? (← v.closedSlots? keys)

end Settings
end TroughTrader
