import TroughTrader.Trade.Strategy

/-!
# Runs of a strategy

A run is a list of events: bars, each with the broker's answers at that moment, and reports.
`Strategy.readAll` is the strategy after a run and `Strategy.results` is what its bars led to. A run
that is cut in two is read one part after the other (`readAll_append`), and no event changes the
settings or the sizer.
-/

namespace TroughTrader

inductive Event where
  | bar (bar : Bar) (account : Account)
  | report (report : OrderReport)

namespace Strategy

def read (s : Strategy) : Event → Strategy
  | .bar bar account => (s.readBar bar account).strategy
  | .report report => s.readReport report

def readAll (s : Strategy) (events : List Event) : Strategy := events.foldl read s

def result? (s : Strategy) : Event → Option BarResult
  | .bar bar account => some (s.readBar bar account)
  | .report _ => none

/-- What the bars of a run lead to, in order. -/
def results (s : Strategy) : List Event → List BarResult
  | [] => []
  | e :: events => (s.result? e).toList ++ results (s.read e) events

def orders (s : Strategy) (events : List Event) : List OrderRequest :=
  (s.results events).flatMap (·.orders)

theorem readAll_append (s : Strategy) (first second : List Event) :
    s.readAll (first ++ second) = (s.readAll first).readAll second :=
  List.foldl_append

theorem settings_read (s : Strategy) (e : Event) : (s.read e).settings = s.settings := by
  cases e with
  | bar bar account =>
    simp only [read, readBar]
    repeat' split
    all_goals rfl
  | report report => rfl

theorem sizer_read (s : Strategy) (e : Event) : (s.read e).sizer = s.sizer := by
  cases e with
  | bar bar account =>
    simp only [read, readBar]
    repeat' split
    all_goals rfl
  | report report => rfl

theorem settings_readAll (s : Strategy) (events : List Event) :
    (s.readAll events).settings = s.settings := by
  induction events generalizing s with
  | nil => rfl
  | cons e events ih => exact (ih (s.read e)).trans (s.settings_read e)

end Strategy
end TroughTrader
