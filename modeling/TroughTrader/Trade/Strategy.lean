import TroughTrader.Trade.Decision
import TroughTrader.Trade.Journal

/-!
# The strategy

A strategy reads bars and reports one at a time. A bar that lacks a price changes nothing. Any
other bar extends the readings; once there are enough of them it is decided upon, and the journal
records the state after it. A report changes the state only.
-/

namespace TroughTrader

namespace SoundSettings

theorem one_le_cycleLength (s : SoundSettings) : 1 ≤ s.cycleLength.toNat := by
  simpa [Settings.isInRange] using s.isInRange .cycleLength

def channel (s : SoundSettings) : Market.Channel where
  period := s.cycleLength.toNat
  one_le_period := s.one_le_cycleLength
  factor := s.envelopeFactor

end SoundSettings

structure Strategy where
  settings : SoundSettings
  sizer : Sizer
  readings : Array Market.Reading
  state : State
  journal : Array JournalEntry

/-- What a bar leads to: the strategy after it, and the orders that are sent to the broker. -/
structure BarResult where
  strategy : Strategy
  outcome : Outcome
  orders : List OrderRequest

namespace Strategy

def start (settings : SoundSettings) (sizer : Sizer) : Strategy where
  settings := settings
  sizer := sizer
  readings := #[]
  state := .initial
  journal := #[]

/-- A strategy with a sizer of its own, if the settings are sound. -/
def withSizer (settings : Settings) (sizer : Sizer) : Except SettingsFault Strategy :=
  (SoundSettings.ofSettings settings).map fun sound => start sound sizer

def ofSettings (settings : Settings) : Except SettingsFault Strategy :=
  (SoundSettings.ofSettings settings).map fun sound => start sound sound.riskBudget.sizer

def rule (s : Strategy) : BottomRule := .ofSettings s.settings.toSettings

def readBar (s : Strategy) (bar : Bar) (account : Account) : BarResult :=
  if bar.isVoid then ⟨s, .void, []⟩
  else
    let readings := s.settings.channel.push s.readings bar
    match s.rule.answers? bar readings s.state.lastEntry with
    | none => ⟨{ s with readings }, .warmup, []⟩
    | some answers =>
      let bottom := s.rule.bottom? bar readings s.state.lastEntry
      let decision := Decision.ofBar s.sizer account readings bar.close bottom s.state.phase
      let state := s.state.afterAll decision.transitions
      let entry := JournalEntry.ofState bar.index bar.date state answers.isBottom
      ⟨{ s with readings, state, journal := s.journal.push entry },
       decision.outcome, decision.orders⟩

def readReport (s : Strategy) (report : OrderReport) : Strategy :=
  { s with state := s.state.afterAll (Decision.ofReport s.readings report s.state.phase) }

end Strategy
end TroughTrader
