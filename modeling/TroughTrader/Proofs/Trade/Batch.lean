import TroughTrader.Proofs.Market.Series
import TroughTrader.Trade.Run

/-!
# A trade that starts over on every bar

`Batch` keeps nothing but the bars that were read, the phase and the index of the last entry. On
each bar it computes every series over all bars again (`LowerEnvelope.series?`) and decides from
their last values (`Batch.readBar?`). It can only fail where two series are not aligned.
`Batch.observeAll?` and `Strategy.observeAll` list what is seen of a run, step by step: the outcome,
the orders and the state.
-/

namespace TroughTrader

open Market

namespace SoundSettings

def movingAverage (s : SoundSettings) : MovingAverage := ⟨s.cycleLength, s.one_le_cycleLength⟩

def lowerEnvelope (s : SoundSettings) : LowerEnvelope :=
  ⟨s.movingAverage, s.envelopePct, s.isInRange .envelopePct⟩

end SoundSettings

/-- What is seen of a step: the outcome if it is a bar, the orders, and the state after it. -/
structure Observed where
  outcome : Option Outcome
  orders : List OrderRequest
  state : State

/-- The bars that were read, the phase, and the index of the bar on which a buy was sent last. -/
structure Batch where
  bars : List Bar
  phase : Phase
  lastEntry : Option UInt64

namespace Batch

def start : Batch := ⟨[], .flat, none⟩

def state (m : Batch) : State := ⟨m.phase, m.lastEntry⟩

structure Result where
  after : Batch
  observed : Observed

def become (after : Batch) (outcome : Outcome) (orders : List OrderRequest) : Result :=
  ⟨after, ⟨some outcome, orders, after.state⟩⟩

section

variable (settings : SoundSettings) (sizer : Sizer)

def fires (m : Batch) (series : Series) (bar : Bar) : Bool :=
  bar.low ≤ series.lastEnvelope * 1.005 &&
    (settings.confirmBars.toNat < m.bars.length &&
      series.crossUp[m.bars.length - 1 - settings.confirmBars.toNat]?.any fun sign => 0.0 < sign) &&
    m.lastEntry.all fun last => last.toNat + settings.minGap.toNat < bar.index.toNat

/-- A flat trade buys on a bottom, unless the sizer says zero. -/
def enter (m : Batch) (series : Series) (bar : Bar) (account : Account) (otherwise : Outcome) :
    Result :=
  if m.fires settings series bar then
    let size := sizer.size bar.close series.lastEnvelope account.cash
    if 0 < size then
      { m with
        phase := .pendingEntry account.nextOrder ⟨bar.close, series.lastEnvelope, size⟩
        lastEntry := some bar.index }.become
          (.entrySubmitted account.nextOrder size) [⟨.buy, size⟩]
    else m.become .entryRefused []
  else m.become otherwise []

def exit (m : Batch) (stake : Stake) (account : Account) (reason : SellReason) : Result :=
  { m with phase := .pendingExit account.nextOrder stake }.become
    (.exitSubmitted account.nextOrder account.position reason) [⟨.sell, account.position⟩]

def decide (m : Batch) (series : Series) (bar : Bar) (account : Account) : Result :=
  match m.phase with
  | .pendingEntry order _ | .pendingExit order _ => m.become (.awaitingOrder order) []
  | .flat => m.enter settings sizer series bar account .hold
  | .long stake =>
    if account.position = 0 then
      { m with phase := .flat }.enter settings sizer series bar account .reconciled
    else if 0.0 < series.lastDown then m.exit stake account .crossDown
    else if bar.close ≤ stake.stop then m.exit stake account .stopLoss
    else m.become .hold []

def readBar? (m : Batch) (bar : Bar) (account : Account) : Except Precondition Result :=
  if bar.isVoid then .ok (m.become .void [])
  else do
    let next := { m with bars := m.bars ++ [bar] }
    let series ← settings.lowerEnvelope.series? next.bars
    return if next.bars.length < max settings.cycleLength.toNat (settings.confirmBars.toNat + 1)
      then next.become .warmup []
      else next.decide settings sizer series bar account

/-- The stop of a buy that was executed: the lower of the last low and the last envelope, where
there are both. -/
def boughtStop (m : Batch) (series : Series) (provisional : Float) : Float :=
  match m.bars.getLast? with
  | none => provisional
  | some last =>
    if series.lastEnvelope.isNaN then provisional
    else Binary64.lesser last.low series.lastEnvelope

def phaseAfter (m : Batch) (series : Series) (report : OrderReport) : Phase :=
  match m.phase with
  | .pendingEntry _ stake =>
    let size := if report.status = .completed ∧ report.filledSize = 0 then stake.size
      else report.filledSize
    if size = 0 then .flat
    else .long ⟨report.fillPrice.getD stake.entry, m.boughtStop series stake.stop, size⟩
  | .pendingExit _ stake =>
    let left := if report.status = .completed then 0
      else UInt64.ofNat (stake.size.toNat - report.filledSize.toNat)
    if left = 0 then .flat else .long { stake with size := left }
  | .flat | .long _ => m.phase

def readReport? (m : Batch) (report : OrderReport) : Except Precondition Result := do
  let series ← settings.lowerEnvelope.series? m.bars
  let after :=
    if m.phase.order? = some report.order ∧ !report.status.isOpen then
      { m with phase := m.phaseAfter series report }
    else m
  return ⟨after, ⟨none, [], after.state⟩⟩

def read? (m : Batch) : Event → Except Precondition Result
  | .bar bar account => m.readBar? settings sizer bar account
  | .report report => m.readReport? settings report

def observeAll? (m : Batch) : List Event → Except Precondition (List Observed)
  | [] => .ok []
  | e :: events => do
    let result ← m.read? settings sizer e
    let rest ← result.after.observeAll? events
    return result.observed :: rest

end

end Batch

namespace Strategy

def observe (s : Strategy) : Event → Observed
  | .bar bar account =>
    ⟨(s.readBar bar account).outcome, (s.readBar bar account).orders,
      (s.readBar bar account).strategy.state⟩
  | .report report => ⟨none, [], (s.readReport report).state⟩

def observeAll (s : Strategy) : List Event → List Observed
  | [] => []
  | e :: events => s.observe e :: (s.read e).observeAll events

end Strategy
end TroughTrader
