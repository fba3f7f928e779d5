import TroughTrader.Calendar.Date
import TroughTrader.Trade.Phase

/-!
# The journal

The journal keeps one entry for every bar that was decided upon: the bar, the state after it, and
whether the bar was a bottom.
-/

namespace TroughTrader

structure JournalEntry where
  barIndex : UInt64
  date : Date
  stage : Stage
  entryPrice : Option Float
  stopPrice : Option Float
  lastEntry : Option UInt64
  /-- Whether the bar was a bottom, also when no entry followed. -/
  wasBottom : Bool

namespace JournalEntry

def ofState (barIndex : UInt64) (date : Date) (s : State) (wasBottom : Bool) : JournalEntry where
  barIndex := barIndex
  date := date
  stage := s.phase.stage
  entryPrice := s.phase.stake?.map (·.entry)
  stopPrice := s.phase.stake?.map (·.stop)
  lastEntry := s.lastEntry
  wasBottom := wasBottom

end JournalEntry
end TroughTrader
