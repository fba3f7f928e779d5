import TroughTrader.Market.Bottom
import TroughTrader.Sizing.RiskBudget
import TroughTrader.Trade.Phase

/-!
# Decisions of a trade

What a bar leads to, and what a broker's report leads to, follows from the phase and the readings
of the channel: an outcome, the transitions to make and the orders to send. A decision changes
nothing itself. A long position that the broker no longer holds is closed, and a bottom on the same
bar leads to a new buy.
-/

namespace TroughTrader

inductive SellReason where
  | crossDown
  | stopLoss
  deriving DecidableEq

inductive Outcome where
  | void
  | warmup
  | awaitingOrder (order : OrderId)
  | hold
  /-- A bottom, but the sizer bought nothing. -/
  | entryRefused
  | entrySubmitted (order : OrderId) (size : UInt64)
  | exitSubmitted (order : OrderId) (size : UInt64) (reason : SellReason)
  /-- The broker no longer held the position, and no entry followed. -/
  | reconciled
  deriving DecidableEq

structure Decision where
  outcome : Outcome
  transitions : List Transition
  orders : List OrderRequest

namespace Decision

open Market

def idle (outcome : Outcome) : Decision := ⟨outcome, [], []⟩

def buy (sizer : Sizer) (account : Account) (bottom : Bottom) : Decision :=
  let size := sizer.size bottom.close bottom.lowerEnvelope account.cash
  if size = 0 then idle .entryRefused
  else
    ⟨.entrySubmitted account.nextOrder size,
     [.buySent account.nextOrder ⟨bottom.close, bottom.lowerEnvelope, size⟩ bottom.barIndex],
     [⟨.buy, size⟩]⟩

def sell (account : Account) (reason : SellReason) : Decision :=
  ⟨.exitSubmitted account.nextOrder account.position reason,
   [.sellSent account.nextOrder],
   [⟨.sell, account.position⟩]⟩

/-- Why a long position is to be sold, if it is: a crossing below the average goes before a close
at or below the stop. -/
def sellReason? (readings : Array Reading) (close stop : Float) : Option SellReason :=
  if (Channel.last? readings (·.crossDown)).any fun sign => 0.0 < sign then some .crossDown
  else if close ≤ stop then some .stopLoss
  else none

def reconcile (sizer : Sizer) (account : Account) : Option Bottom → Decision
  | none => ⟨.reconciled, [.closed], []⟩
  | some bottom =>
    let entry := buy sizer account bottom
    { entry with transitions := .closed :: entry.transitions }

def ofBar (sizer : Sizer) (account : Account) (readings : Array Reading) (close : Float)
    (bottom : Option Bottom) : Phase → Decision
  | .pendingEntry order _ | .pendingExit order _ => idle (.awaitingOrder order)
  | .flat =>
    match bottom with
    | none => idle .hold
    | some bottom => buy sizer account bottom
  | .long stake =>
    if account.position = 0 then reconcile sizer account bottom
    else
      match sellReason? readings close stake.stop with
      | none => idle .hold
      | some reason => sell account reason

def lowerStop (low envelope : Float) : Float := Binary64.lesser low envelope

def lastStop? (readings : Array Reading) : Option Float := do
  let low ← Channel.last? readings (·.low)
  let envelope ← Channel.last? readings (·.lowerEnvelope)
  return lowerStop low envelope

/-- The size that a buy was executed for in the end. A completed buy that reports no size was
executed whole. -/
def boughtSize (report : OrderReport) (ordered : UInt64) : UInt64 :=
  if report.status = .completed ∧ report.filledSize = 0 then ordered else report.filledSize

def endOfBuy (readings : Array Reading) (report : OrderReport) (stake : Stake) : Transition :=
  let size := boughtSize report stake.size
  if size = 0 then .buyFailed
  else .bought
    ⟨report.fillPrice.getD stake.entry, (lastStop? readings).getD stake.stop, size⟩

def leftSize (report : OrderReport) (held : UInt64) : UInt64 :=
  if report.status = .completed ∨ held ≤ report.filledSize then 0 else held - report.filledSize

def endOfSell (report : OrderReport) (stake : Stake) : Transition :=
  let left := leftSize report stake.size
  if left = 0 then .closed else .sellFailed left

def ofReport (readings : Array Reading) (report : OrderReport) : Phase → List Transition
  | .pendingEntry order stake =>
    if report.order = order ∧ !report.status.isOpen then [endOfBuy readings report stake] else []
  | .pendingExit order stake =>
    if report.order = order ∧ !report.status.isOpen then [endOfSell report stake] else []
  | .flat | .long _ => []

end Decision
end TroughTrader
