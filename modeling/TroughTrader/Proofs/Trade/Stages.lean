import Mathlib.Data.List.Chain
import TroughTrader.Proofs.Trade.Flight

/-!
# Stages that follow one another

`State.stages` lists the stages that a state goes through while transitions are made one by one.
Allowed transitions keep to the order of the stages (`isChain_stages`), so every event does so step
by step. An event makes one transition at most, with one exception: a bar on which a long position
is found gone and a buy is sent at once (`Strategy.Reenters`) closes the trade and opens the next
one. `canPrecede_or_reenters` says that this is the only event after which the stage is one that the
stage before it does not allow.
-/

namespace TroughTrader

namespace State

def stages (s : State) : List Transition → List Stage
  | [] => [s.phase.stage]
  | t :: ts => s.phase.stage :: (s.after t).stages ts

theorem head?_stages (s : State) (ts : List Transition) :
    (s.stages ts).head? = some s.phase.stage := by
  cases ts <;> rfl

theorem getLast?_stages (s : State) (ts : List Transition) :
    (s.stages ts).getLast? = some (s.afterAll ts).phase.stage := by
  induction ts generalizing s with
  | nil => rfl
  | cons t ts ih =>
    rw [stages, List.getLast?_cons, ih]
    rfl

theorem isChain_stages {s after : State} {ts : List Transition}
    (h : ts.foldlM State.after? s = some after) :
    (s.stages ts).IsChain (fun a b => a.canPrecede b = true) := by
  induction ts generalizing s with
  | nil => exact List.isChain_singleton _
  | cons t ts ih =>
    obtain ⟨next, ht, hts⟩ := Option.bind_eq_some_iff.1 h
    have step : s.after t = next := by rw [State.after, ht]; rfl
    rw [stages, step, List.isChain_cons]
    refine ⟨?_, ih hts⟩
    intro stage hstage
    rw [head?_stages, Option.mem_some_iff] at hstage
    rw [← hstage]
    exact canPrecede_of_after? ht

end State

/-- Whether a bar that leads from a stage to an outcome finds a long position gone and buys. -/
def Outcome.Reenters (outcome : Outcome) (before : Stage) (account : Account) : Prop :=
  before = .long ∧ account.position = 0 ∧ ∃ order size, outcome = .entrySubmitted order size

def Strategy.Reenters (s : Strategy) : Event → Prop
  | .bar bar account =>
    (s.readBar bar account).outcome.Reenters s.state.phase.stage account
  | .report _ => False

theorem BarMove.stages_cases {s : Strategy} {bar : Bar} {account : Account} {decision : Decision}
    {after : State} (move : BarMove s bar account decision after) :
    s.state.phase.stage.canPrecede after.phase.stage = true ∧
        ¬ decision.outcome.Reenters s.state.phase.stage account ∨
      decision.outcome.Reenters s.state.phase.stage account ∧
        s.state.stages decision.transitions = [.long, .flat, .pendingEntry] := by
  cases move with
  | idle idle =>
    refine Or.inl ⟨Stage.canPrecede_self _, ?_⟩
    rintro ⟨_, _, order, size, rfl⟩
    cases idle
  | enter flat _ _ =>
    refine Or.inl ⟨by rw [flat]; rfl, ?_⟩
    rintro ⟨h, _⟩
    rw [flat] at h
    cases h
  | exit long _ =>
    refine Or.inl ⟨by rw [long]; rfl, ?_⟩
    rintro ⟨_, _, order, size, h⟩
    cases h
  | lost long _ outcome_eq =>
    refine Or.inl ⟨by rw [long]; rfl, ?_⟩
    rintro ⟨_, _, order, size, h⟩
    rcases outcome_eq with rfl | rfl <;> cases h
  -- The only move of two transitions: each is allowed, the two together are not.
  | reenter long gone _ _ =>
    refine Or.inr ⟨⟨by rw [long]; rfl, gone, _, _, rfl⟩, ?_⟩
    simp [State.stages, State.after, State.after?, long, Phase.stage]

theorem ReportMove.canPrecede {s : Strategy} {report : OrderReport}
    {transitions : List Transition} {after : State}
    (move : ReportMove s report transitions after) :
    s.state.phase.stage.canPrecede after.phase.stage = true := by
  cases move with
  | ignored _ => exact Stage.canPrecede_self _
  | bought pending _ _ => rw [pending]; rfl
  | buyFailed pending _ _ => rw [pending]; rfl
  | sold pending _ _ => rw [pending]; rfl
  | sellFailed pending _ _ => rw [pending]; rfl

namespace Strategy

/-- Whatever an event does, the trade goes from stage to stage as their order allows, and the stage
after the event is one that the stage before it allows, unless the event closes a long position that
is gone and buys again: then the trade goes from long through flat to a buy in flight. -/
theorem canPrecede_or_reenters (settings : SoundSettings) (sizer : Sizer) (events : List Event)
    (e : Event) :
    let s := (start settings sizer).readAll events
    let before := s.state.phase.stage
    let after := (s.read e).state.phase.stage
    let stages := s.state.stages (s.transitions e)
    stages.head? = some before ∧ stages.getLast? = some after ∧
      stages.IsChain (fun a b => a.canPrecede b = true) ∧
      (before.canPrecede after = true ∧ ¬ s.Reenters e ∨
        s.Reenters e ∧ stages = [.long, .flat, .pendingEntry]) := by
  intro s before after stages
  have hallowed := s.transitions_allowed e
  have hlast : stages.getLast? = some after := by
    rw [State.getLast?_stages, State.afterAll_of_allowed hallowed]
  refine ⟨State.head?_stages _ _, hlast, State.isChain_stages hallowed, ?_⟩
  cases e with
  | report report => exact Or.inl ⟨(s.reportMove report).canPrecede, id⟩
  | bar bar account =>
    rw [Reenters, (s.readBar_eq_decisionOn bar account).1]
    exact (s.barMove bar account).stages_cases

/-- A buy is executed, the position disappears at the broker, and the next bar is a bottom. A long
trade is then followed by a buy in flight, which the order of the stages does not allow. -/
theorem not_canPrecede_of_position_gone :
    let s := (start .brief SoundSettings.brief.riskBudget.sizer).readAll
      [.bar (.quote 0 90 100) (.ofOrder 1), .bar (.quote 1 90 100) (.ofOrder 1),
        .bar (.quote 2 90 101) (.ofOrder 1), .bar (.quote 3 90 100) (.ofOrder 2),
        .report (.completed ⟨1⟩ 101 79)]
    let e : Event := .bar (.quote 4 90 102) (.ofOrder 2)
    s.state.phase.stage = .long ∧ (s.read e).state.phase.stage = .pendingEntry ∧
      ¬ s.state.phase.stage.canPrecede (s.read e).state.phase.stage = true := by
  decide +kernel

end Strategy
end TroughTrader
