import TroughTrader.Market.Order

/-!
# Phases of a trade

A trade is flat, has a buy in flight, is long, or has a sell in flight. Prices and size are part of
the phases that have them, so a flat trade has none. `State.after?` is the state after a transition,
which there is only where the phase allows it; `canPrecede_of_after?` says that it keeps to the
order of the stages.
-/

namespace TroughTrader

inductive Exposure where
  | flat
  | long
  deriving DecidableEq

inductive Stage where
  | flat
  | pendingEntry
  | long
  | pendingExit
  deriving DecidableEq

namespace Stage

/-- Whether a stage may be followed by another one in a single step. -/
def canPrecede : Stage → Stage → Bool
  | flat, next => next = flat || next = pendingEntry
  | pendingEntry, next => next = pendingEntry || next = long || next = flat
  | long, next => next = long || next = pendingExit || next = flat
  | pendingExit, next => next = pendingExit || next = flat || next = long

theorem canPrecede_self (s : Stage) : s.canPrecede s = true := by
  cases s <;> rfl

end Stage

structure Stake where
  entry : Float
  stop : Float
  size : UInt64

inductive Phase where
  | flat
  | pendingEntry (order : OrderId) (stake : Stake)
  | long (stake : Stake)
  | pendingExit (order : OrderId) (stake : Stake)

namespace Phase

def stage : Phase → Stage
  | flat => .flat
  | pendingEntry _ _ => .pendingEntry
  | long _ => .long
  | pendingExit _ _ => .pendingExit

def exposure : Phase → Exposure
  | flat | pendingEntry _ _ => .flat
  | long _ | pendingExit _ _ => .long

def order? : Phase → Option OrderId
  | pendingEntry order _ | pendingExit order _ => some order
  | flat | long _ => none

def stake? : Phase → Option Stake
  | flat => none
  | pendingEntry _ stake | long stake | pendingExit _ stake => some stake

end Phase

/-- The phase, and the index of the bar on which a buy was sent last. -/
structure State where
  phase : Phase
  lastEntry : Option UInt64

inductive Transition where
  | buySent (order : OrderId) (stake : Stake) (barIndex : UInt64)
  | bought (stake : Stake)
  | buyFailed
  | sellSent (order : OrderId)
  | sellFailed (left : UInt64)
  | closed

namespace State

def initial : State := ⟨.flat, none⟩

/-- The state after a transition; none where the phase does not allow it. -/
def after? (s : State) : Transition → Option State
  | .buySent order stake barIndex =>
    match s.phase with
    | .flat => some ⟨.pendingEntry order stake, some barIndex⟩
    | _ => none
  | .bought stake =>
    match s.phase with
    | .pendingEntry _ _ => some { s with phase := .long stake }
    | _ => none
  | .buyFailed =>
    match s.phase with
    | .pendingEntry _ _ => some { s with phase := .flat }
    | _ => none
  | .sellSent order =>
    match s.phase with
    | .long stake => some { s with phase := .pendingExit order stake }
    | _ => none
  | .sellFailed left =>
    match s.phase with
    | .pendingExit _ stake => some { s with phase := .long { stake with size := left } }
    | _ => none
  | .closed =>
    match s.phase with
    | .pendingExit _ _ | .long _ => some { s with phase := .flat }
    | _ => none

theorem canPrecede_of_after? {s s' : State} {t : Transition} (h : s.after? t = some s') :
    s.phase.stage.canPrecede s'.phase.stage = true := by
  obtain ⟨phase, lastEntry⟩ := s
  cases t <;> cases phase <;> simp only [after?, Option.some.injEq, reduceCtorEq] at h <;>
    subst h <;> rfl

/-- A transition that is not allowed leaves the state as it is. -/
def after (s : State) (t : Transition) : State := (s.after? t).getD s

def afterAll (s : State) (ts : List Transition) : State := ts.foldl after s

end State
end TroughTrader
