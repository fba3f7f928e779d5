import TroughTrader.Proofs.Trade.Flight

/-!
# Runs without their idle events

`Strategy.waiting` lists the orders of a run that no report has closed yet, from the events alone.
An event is effective if it is a bar with all its prices or the first report to close an order that
was sent (`Strategy.isEffective`); all others are idle. `Thins` relates a run to what is left of it
when some idle events are taken out, for whatever reason they are idle, and `effective_run` says that
without its idle events a run leads to the same strategy, the same outcome of every bar that is left,
and the same orders.
-/

namespace TroughTrader
namespace Strategy

/-- The orders that a run sends and that no later report of it closes. -/
def waiting (s : Strategy) : List Event → List OrderId
  | [] => []
  | e :: events =>
    ((s.sent? e).toList.filter fun id => !events.any (·.closes id)) ++ (s.read e).waiting events

/-- Whether the event after a run is a bar with all its prices, or the first report to close one of
the orders of the run. -/
def isEffective (s : Strategy) (before : List Event) : Event → Bool
  | .bar bar _ => !bar.isVoid
  | .report report => !report.status.isOpen && report.order ∈ s.waiting before

def effectiveAfter (s : Strategy) (before : List Event) : List Event → List Event
  | [] => []
  | e :: events =>
    let rest := s.effectiveAfter (before ++ [e]) events
    if s.isEffective before e then e :: rest else rest

def effective (s : Strategy) (events : List Event) : List Event := s.effectiveAfter [] events

def outcomes (s : Strategy) : List Event → List (Bar × Outcome)
  | [] => []
  | .bar bar account :: events =>
    (bar, (s.readBar bar account).outcome) :: (s.read (.bar bar account)).outcomes events
  | .report report :: events => (s.readReport report).outcomes events

def submissions (s : Strategy) : List Event → List (OrderId × OrderRequest)
  | [] => []
  | .bar bar account :: events =>
    (s.readBar bar account).orders.map (account.nextOrder, ·) ++
      (s.read (.bar bar account)).submissions events
  | .report report :: events => (s.readReport report).submissions events

theorem waiting_concat (s : Strategy) (events : List Event) (e : Event) :
    s.waiting (events ++ [e]) =
      ((s.waiting events).filter fun id => !e.closes id) ++
        ((s.readAll events).sent? e).toList := by
  induction events generalizing s with
  | nil => simp [waiting, readAll]
  | cons x events ih =>
    have hlater : ∀ id, (!(events ++ [e]).any (·.closes id)) =
        (!e.closes id && !events.any (·.closes id)) := by
      intro id
      simp [Bool.not_or, Bool.and_comm]
    rw [List.cons_append, waiting, waiting, ih, List.filter_append, List.filter_filter,
      List.append_assoc]
    simp only [hlater]
    rfl

theorem waiting_eq (settings : SoundSettings) (sizer : Sizer) (events : List Event) :
    (start settings sizer).waiting events =
      ((start settings sizer).readAll events).state.phase.order?.toList := by
  induction events using List.reverseRecOn with
  | nil => rfl
  | append_singleton events e ih =>
    have hread := ((start settings sizer).readAll events).order?_read e
    rw [waiting_concat, ih, readAll_append]
    change _ = (((start settings sizer).readAll events).read e).state.phase.order?.toList
    rw [hread]
    -- An order is sent only while none is in flight: an event adds one or may close one, not both.
    rcases ((start settings sizer).readAll events).orders_singleton_cases e with
      hnil | ⟨_, _, _, hfree⟩
    · rw [sent?_eq_none _ hnil]
      cases ((start settings sizer).readAll events).state.phase.order? with
      | none => rfl
      | some id => cases h : e.closes id <;> simp [h]
    · rw [hfree]
      cases ((start settings sizer).readAll events).sent? e <;> rfl

theorem read_of_isVoid (s : Strategy) {bar : Bar} (account : Account) (void : bar.isVoid = true) :
    s.read (.bar bar account) = s := by
  rw [read, s.readBar_of_isVoid bar account void]

end Strategy

/-- A run and what is left of it without some of its void bars, and without some reports that leave
the strategy as it is. -/
inductive Thins : Strategy → List Event → List Event → Prop
  | done (s : Strategy) : Thins s [] []
  | bar {s : Strategy} {bar : Bar} {account : Account} {fewer events : List Event}
      (priced : bar.isVoid = false) (rest : Thins (s.read (.bar bar account)) fewer events) :
      Thins s (.bar bar account :: fewer) (.bar bar account :: events)
  | report {s : Strategy} {report : OrderReport} {fewer events : List Event}
      (rest : Thins (s.readReport report) fewer events) :
      Thins s (.report report :: fewer) (.report report :: events)
  | void {s : Strategy} {bar : Bar} {account : Account} {fewer events : List Event}
      (void : bar.isVoid = true) (rest : Thins s fewer events) :
      Thins s fewer (.bar bar account :: events)
  | ignored {s : Strategy} {report : OrderReport} {fewer events : List Event}
      (ignored : s.readReport report = s) (rest : Thins s fewer events) :
      Thins s fewer (.report report :: events)

namespace Thins

variable {s : Strategy} {fewer events : List Event}

theorem readAll_eq (h : Thins s fewer events) : s.readAll fewer = s.readAll events := by
  induction h with
  | done s => rfl
  | bar _ _ ih => exact ih
  | report _ ih => exact ih
  | @void s bar account _ events void _ ih =>
    have hread : s.readAll (.bar bar account :: events) =
        (s.read (.bar bar account)).readAll events := rfl
    rw [ih, hread, s.read_of_isVoid account void]
  | @ignored s report _ events ignored _ ih =>
    have hread : s.readAll (.report report :: events) = (s.readReport report).readAll events := rfl
    rw [ih, hread, ignored]

theorem outcomes_eq (h : Thins s fewer events) :
    s.outcomes fewer = (s.outcomes events).filter fun seen => !seen.1.isVoid := by
  induction h with
  | done s => rfl
  | bar priced _ ih => simp [Strategy.outcomes, priced, ih]
  | report _ ih => exact ih
  | @void s bar account _ _ void _ ih =>
    simp [Strategy.outcomes, s.read_of_isVoid account void, void, ih]
  | ignored ignored _ ih => rw [ih, Strategy.outcomes, ignored]

theorem submissions_eq (h : Thins s fewer events) : s.submissions fewer = s.submissions events := by
  induction h with
  | done s => rfl
  | bar _ _ ih => rw [Strategy.submissions, Strategy.submissions, ih]
  | report _ ih => exact ih
  | @void s bar account _ _ void _ ih =>
    rw [ih, Strategy.submissions, s.readBar_of_isVoid bar account void,
      s.read_of_isVoid account void]
    rfl
  | ignored ignored _ ih => rw [ih, Strategy.submissions, ignored]

end Thins

namespace Strategy

theorem readReport_of_idle (settings : SoundSettings) (sizer : Sizer) (before : List Event)
    (report : OrderReport)
    (idle : (start settings sizer).isEffective before (.report report) = false) :
    ((start settings sizer).readAll before).readReport report =
      (start settings sizer).readAll before := by
  have hstate : (((start settings sizer).readAll before).readReport report).state =
      ((start settings sizer).readAll before).state := by
    rcases (((start settings sizer).readAll before).reportMove report).eq_or_closes with
      heq | ⟨id, pending, hcloses⟩
    · exact heq
    · rw [isEffective, waiting_eq, pending] at idle
      simp only [Event.closes, Bool.and_eq_true, decide_eq_true_eq] at hcloses
      simp [hcloses.1, hcloses.2] at idle
  rw [readReport] at hstate ⊢
  rw [show State.afterAll _ _ = _ from hstate]

theorem thins_effectiveAfter (settings : SoundSettings) (sizer : Sizer)
    (before events : List Event) :
    Thins ((start settings sizer).readAll before)
      ((start settings sizer).effectiveAfter before events) events := by
  induction events generalizing before with
  | nil => exact .done _
  | cons e events ih =>
    have hrest := ih (before ++ [e])
    rw [readAll_append] at hrest
    rw [effectiveAfter]
    cases he : (start settings sizer).isEffective before e with
    | true =>
      rw [if_pos rfl]
      cases e with
      | bar bar account => exact .bar (by simpa [isEffective] using he) hrest
      | report report => exact .report hrest
    -- The event stays in the prefix that later events are judged by; the strategy does not see it.
    | false =>
      rw [if_neg Bool.false_ne_true]
      cases e with
      | bar bar account =>
        have void : bar.isVoid = true := by simpa [isEffective] using he
        have hread : ((start settings sizer).readAll before).readAll [.bar bar account] =
            (start settings sizer).readAll before := read_of_isVoid _ account void
        rw [hread] at hrest
        exact .void void hrest
      | report report =>
        have ignored := readReport_of_idle settings sizer before report he
        have hread : ((start settings sizer).readAll before).readAll [.report report] =
            (start settings sizer).readAll before := ignored
        rw [hread] at hrest
        exact .ignored ignored hrest

/-- Void bars, open statuses, and reports that are not the first to close an order after it was sent
may all be left out of a run, however they are mixed with the other events: the strategy after it is
the same, with its readings, state and journal, every bar that is left has the same outcome, and the
broker is sent the same orders. -/
theorem effective_run (settings : SoundSettings) (sizer : Sizer) (events : List Event) :
    let s := start settings sizer
    let fewer := s.effective events
    s.readAll fewer = s.readAll events ∧
      s.outcomes fewer = (s.outcomes events).filter (fun seen => !seen.1.isVoid) ∧
      s.submissions fewer = s.submissions events := by
  intro s fewer
  have hthins : Thins s fewer events := thins_effectiveAfter settings sizer [] events
  exact ⟨hthins.readAll_eq, hthins.outcomes_eq, hthins.submissions_eq⟩

/-- Of these nine events, the three bars with all their prices and one report are effective. -/
example : ((start .brief SoundSettings.brief.riskBudget.sizer).effective
    [.bar (.quote 0 90 100) (.ofOrder 1), .bar (.quote 1 Binary64.undefined 100) (.ofOrder 1),
      .bar (.quote 1 90 100) (.ofOrder 1), .report (.rejected ⟨1⟩),
      .bar (.quote 2 90 101) (.ofOrder 1), .report ⟨⟨1⟩, .accepted, none, 0⟩,
      .report (.completed ⟨1⟩ 101 79), .report (.completed ⟨1⟩ 101 79),
      .report (.cancelled ⟨9⟩)]).length = 4 := by
  decide +kernel

end Strategy
end TroughTrader
