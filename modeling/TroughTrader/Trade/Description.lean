import TroughTrader.Trade.Strategy

/-!
# A strategy in words

The descriptive text of a strategy names its settings, its sizer, its state and the number of bars
it has read. A record is written as its title with named fields in braces.
-/

namespace TroughTrader

namespace Description

def record (title : String) (fields : List (String × String)) : String :=
  title ++ " \x7b " ++ ", ".intercalate (fields.map fun (name, value) => name ++ ": " ++ value)
    ++ " \x7d"

def count (n : UInt64) : String := toString n.toNat

def price (x : Float) : String := Decimal.Layout.plain.text x

def option (text : α → String) : Option α → String
  | none => "None"
  | some x => "Some(" ++ text x ++ ")"

def orderId (id : OrderId) : String := "OrderHandle(" ++ count id.number ++ ")"

def stakeFields (s : Stake) : List (String × String) :=
  [("entry_price", price s.entry), ("stop_loss", price s.stop), ("size", count s.size)]

def phase : Phase → String
  | .flat => "Flat"
  | .pendingEntry id stake => record "PendingEntry" (("order", orderId id) :: stakeFields stake)
  | .long stake => record "Long" (stakeFields stake)
  | .pendingExit id stake => record "PendingExit" (("order", orderId id) :: stakeFields stake)

def state (s : State) : String :=
  record "StrategyState"
    [("phase", phase s.phase), ("last_signal_bar", option count s.lastEntry)]

def settings (s : Settings) : String :=
  record "CycleBottomParams" (Setting.all.map fun f => (f.key, s.valueText f))

/-- A text between quotes, with quotes and backslashes marked. -/
def quoted (s : String) : String :=
  "\"" ++ String.ofList (s.toList.flatMap fun c =>
    if c = '"' ∨ c = '\\' then ['\\', c] else [c]) ++ "\""

end Description

def Strategy.description (s : Strategy) : String :=
  Description.record "CycleBottomStrategy"
    [("params", Description.settings s.settings.toSettings),
     ("sizer", Description.quoted s.sizer.name),
     ("state", Description.state s.state),
     ("bars_seen", toString s.readings.size)]

end TroughTrader
