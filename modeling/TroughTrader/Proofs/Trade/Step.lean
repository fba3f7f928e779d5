import TroughTrader.Proofs.Market.Bottom
import TroughTrader.Trade.Run

/-!
# What one event can do

`Strategy.decisionOn` is the decision on any bar, idle where there is nothing to decide, and
`readBar_eq_decisionOn` says that it is all a bar does to the trade. `BarMove` lists these decisions
with the states after them, and `ReportMove` lists the transitions that a report can lead to;
`barMove` and `reportMove` say that the lists are complete. Every transition that is asked for is
allowed (`transitions_allowed`), so none is passed over in silence.
-/

namespace TroughTrader

open Market

theorem State.afterAll_of_allowed {ts : List Transition} {s after : State}
    (h : ts.foldlM State.after? s = some after) : s.afterAll ts = after := by
  induction ts generalizing s with
  | nil => exact Option.some.inj h
  | cons t ts ih =>
    obtain ⟨next, ht, hts⟩ := Option.bind_eq_some_iff.1 h
    have step : s.after t = next := by rw [State.after, ht]; rfl
    rw [State.afterAll, List.foldl_cons, step]
    exact ih hts

def Outcome.isIdle : Outcome → Bool
  | .void | .warmup | .awaitingOrder _ | .hold | .entryRefused => true
  | .entrySubmitted _ _ | .exitSubmitted _ _ _ | .reconciled => false

namespace Strategy

variable (s : Strategy) (bar : Bar) (account : Account)

def readingsWith : Array Reading := s.settings.channel.push s.readings bar

/-- The bottom that a bar is, when it is added to the readings. -/
def bottomOn? : Option Bottom := s.rule.bottom? bar (s.readingsWith bar) s.state.lastEntry

def decisionOn : Decision :=
  if bar.isVoid then .idle .void
  else if s.readings.size + 1 < s.rule.requiredBars then .idle .warmup
  else .ofBar s.sizer account (s.readingsWith bar) bar.close (s.bottomOn? bar) s.state.phase

/-- The answers to the three questions about a bar, when it is added to the readings. -/
def answersOn : BottomAnswers where
  dips := BottomRule.dips bar.low (s.readingsWith bar)
  crossed := BottomRule.crossedAbove s.rule.confirmBars (s.readingsWith bar)
  spaced := BottomRule.isSpaced s.rule.minGap bar.index s.state.lastEntry

def transitions : Event → List Transition
  | .bar bar account => (s.decisionOn bar account).transitions
  | .report report => Decision.ofReport s.readings report s.state.phase

theorem readBar_of_isVoid (h : bar.isVoid = true) : s.readBar bar account = ⟨s, .void, []⟩ := by
  rw [readBar, if_pos h]

theorem readBar_of_lt (hv : ¬ bar.isVoid = true) (h : s.readings.size + 1 < s.rule.requiredBars) :
    s.readBar bar account = ⟨{ s with readings := s.readingsWith bar }, .warmup, []⟩ := by
  simp only [readBar, if_neg hv, BottomRule.answers?_push_of_lt _ _ _ _ _ _ h]
  rfl

def entryOn : JournalEntry :=
  .ofState bar.index bar.date (s.state.afterAll (s.decisionOn bar account).transitions)
    (s.answersOn bar).isBottom

theorem readBar_of_le (hv : ¬ bar.isVoid = true) (h : s.rule.requiredBars ≤ s.readings.size + 1) :
    s.readBar bar account =
      ⟨{ s with
          readings := s.readingsWith bar
          state := s.state.afterAll (s.decisionOn bar account).transitions
          journal := s.journal.push (s.entryOn bar account) },
        (s.decisionOn bar account).outcome, (s.decisionOn bar account).orders⟩ := by
  have hd : s.decisionOn bar account = .ofBar s.sizer account (s.readingsWith bar) bar.close
      (s.bottomOn? bar) s.state.phase := by
    rw [decisionOn, if_neg hv, if_neg (Nat.not_lt.2 h)]
  rw [entryOn, hd]
  simp only [readBar, if_neg hv, BottomRule.answers?_push _ _ _ _ _ _ h]
  rfl

/-- A bar does to the trade what its decision says. -/
theorem readBar_eq_decisionOn :
    (s.readBar bar account).outcome = (s.decisionOn bar account).outcome ∧
      (s.readBar bar account).orders = (s.decisionOn bar account).orders ∧
      (s.readBar bar account).strategy.state =
        s.state.afterAll (s.decisionOn bar account).transitions := by
  by_cases hv : bar.isVoid = true
  · rw [readBar_of_isVoid s bar account hv, decisionOn, if_pos hv]
    exact ⟨rfl, rfl, rfl⟩
  · by_cases h : s.readings.size + 1 < s.rule.requiredBars
    · rw [readBar_of_lt s bar account hv h, decisionOn, if_neg hv, if_pos h]
      exact ⟨rfl, rfl, rfl⟩
    · rw [readBar_of_le s bar account hv (Nat.not_lt.1 h)]
      exact ⟨rfl, rfl, rfl⟩

end Strategy

def Bottom.stake (bottom : Bottom) (sizer : Sizer) (cash : Float) : Stake :=
  ⟨bottom.close, bottom.lowerEnvelope, sizer.size bottom.close bottom.lowerEnvelope cash⟩

def OrderReport.boughtStake (report : OrderReport) (readings : Array Reading) (ordered : Stake) :
    Stake :=
  ⟨report.fillPrice.getD ordered.entry, (Decision.lastStop? readings).getD ordered.stop,
    Decision.boughtSize report ordered.size⟩

/-- What a bar can do: the decision on it, and the state after it. -/
inductive BarMove (s : Strategy) (bar : Bar) (account : Account) : Decision → State → Prop
  | idle {outcome : Outcome} (idle : outcome.isIdle = true) :
      BarMove s bar account (.idle outcome) s.state
  | enter {bottom : Bottom} (flat : s.state.phase = .flat)
      (bottomOn : s.bottomOn? bar = some bottom)
      (size_ne : (bottom.stake s.sizer account.cash).size ≠ 0) :
      BarMove s bar account
        ⟨.entrySubmitted account.nextOrder (bottom.stake s.sizer account.cash).size,
          [.buySent account.nextOrder (bottom.stake s.sizer account.cash) bar.index],
          [⟨.buy, (bottom.stake s.sizer account.cash).size⟩]⟩
        ⟨.pendingEntry account.nextOrder (bottom.stake s.sizer account.cash), some bar.index⟩
  | exit {stake : Stake} {reason : SellReason} (long : s.state.phase = .long stake)
      (held : account.position ≠ 0) :
      BarMove s bar account (.sell account reason)
        ⟨.pendingExit account.nextOrder stake, s.state.lastEntry⟩
  | lost {stake : Stake} {outcome : Outcome} (long : s.state.phase = .long stake)
      (gone : account.position = 0) (outcome_eq : outcome = .reconciled ∨ outcome = .entryRefused) :
      BarMove s bar account ⟨outcome, [.closed], []⟩ ⟨.flat, s.state.lastEntry⟩
  | reenter {stake : Stake} {bottom : Bottom} (long : s.state.phase = .long stake)
      (gone : account.position = 0) (bottomOn : s.bottomOn? bar = some bottom)
      (size_ne : (bottom.stake s.sizer account.cash).size ≠ 0) :
      BarMove s bar account
        ⟨.entrySubmitted account.nextOrder (bottom.stake s.sizer account.cash).size,
          [.closed, .buySent account.nextOrder (bottom.stake s.sizer account.cash) bar.index],
          [⟨.buy, (bottom.stake s.sizer account.cash).size⟩]⟩
        ⟨.pendingEntry account.nextOrder (bottom.stake s.sizer account.cash), some bar.index⟩

/-- What a report can do: the transitions that it leads to, and the state after it. -/
inductive ReportMove (s : Strategy) (report : OrderReport) : List Transition → State → Prop
  | ignored (other : s.state.phase.order? ≠ some report.order ∨ report.status.isOpen = true) :
      ReportMove s report [] s.state
  | bought {stake : Stake} (pending : s.state.phase = .pendingEntry report.order stake)
      (closed : report.status.isOpen = false)
      (size_ne : Decision.boughtSize report stake.size ≠ 0) :
      ReportMove s report [.bought (report.boughtStake s.readings stake)]
        ⟨.long (report.boughtStake s.readings stake), s.state.lastEntry⟩
  | buyFailed {stake : Stake} (pending : s.state.phase = .pendingEntry report.order stake)
      (closed : report.status.isOpen = false)
      (size_eq : Decision.boughtSize report stake.size = 0) :
      ReportMove s report [.buyFailed] ⟨.flat, s.state.lastEntry⟩
  | sold {stake : Stake} (pending : s.state.phase = .pendingExit report.order stake)
      (closed : report.status.isOpen = false)
      (left_eq : Decision.leftSize report stake.size = 0) :
      ReportMove s report [.closed] ⟨.flat, s.state.lastEntry⟩
  | sellFailed {stake : Stake} (pending : s.state.phase = .pendingExit report.order stake)
      (closed : report.status.isOpen = false)
      (left_ne : Decision.leftSize report stake.size ≠ 0) :
      ReportMove s report [.sellFailed (Decision.leftSize report stake.size)]
        ⟨.long { stake with size := Decision.leftSize report stake.size }, s.state.lastEntry⟩

theorem BarMove.allowed {s : Strategy} {bar : Bar} {account : Account} {decision : Decision}
    {after : State} (move : BarMove s bar account decision after) :
    decision.transitions.foldlM State.after? s.state = some after := by
  cases move with
  | idle _ => rfl
  | enter flat _ _ => simp [State.after?, flat]
  | exit long _ => simp [Decision.sell, State.after?, long]
  | lost long _ _ => simp [State.after?, long]
  | reenter long _ _ _ => simp [State.after?, long]

theorem ReportMove.allowed {s : Strategy} {report : OrderReport} {transitions : List Transition}
    {after : State} (move : ReportMove s report transitions after) :
    transitions.foldlM State.after? s.state = some after := by
  cases move with
  | ignored _ => rfl
  | bought pending _ _ => simp [State.after?, pending]
  | buyFailed pending _ _ => simp [State.after?, pending]
  | sold pending _ _ => simp [State.after?, pending]
  | sellFailed pending _ _ => simp [State.after?, pending]

namespace Strategy

variable (s : Strategy) (bar : Bar) (account : Account)

theorem buy_of_size_ne {bottom : Bottom} (h : (bottom.stake s.sizer account.cash).size ≠ 0) :
    Decision.buy s.sizer account bottom =
      ⟨.entrySubmitted account.nextOrder (bottom.stake s.sizer account.cash).size,
        [.buySent account.nextOrder (bottom.stake s.sizer account.cash) bottom.barIndex],
        [⟨.buy, (bottom.stake s.sizer account.cash).size⟩]⟩ := by
  rw [Decision.buy]
  exact if_neg h

theorem buy_of_size_eq {bottom : Bottom} (h : (bottom.stake s.sizer account.cash).size = 0) :
    Decision.buy s.sizer account bottom = .idle .entryRefused := by
  rw [Decision.buy]
  exact if_pos h

theorem exists_barMove_of_long {stake : Stake} (hp : s.state.phase = .long stake) :
    ∃ after, BarMove s bar account (.ofBar s.sizer account (s.readingsWith bar) bar.close
      (s.bottomOn? bar) (.long stake)) after := by
  by_cases hg : account.position = 0
  · rw [Decision.ofBar, if_pos hg]
    cases hb : s.bottomOn? bar with
    | none => exact ⟨_, .lost hp hg (Or.inl rfl)⟩
    | some bottom =>
      by_cases hz : (bottom.stake s.sizer account.cash).size = 0
      · rw [Decision.reconcile, s.buy_of_size_eq account hz]
        exact ⟨_, .lost hp hg (Or.inr rfl)⟩
      · rw [Decision.reconcile, s.buy_of_size_ne account hz, BottomRule.barIndex_of_bottom? hb]
        exact ⟨_, .reenter hp hg hb hz⟩
  · rw [Decision.ofBar, if_neg hg]
    cases Decision.sellReason? (s.readingsWith bar) bar.close stake.stop with
    | none => exact ⟨_, .idle rfl⟩
    | some reason => exact ⟨_, .exit hp hg⟩

theorem exists_barMove : ∃ after, BarMove s bar account (s.decisionOn bar account) after := by
  by_cases hv : bar.isVoid = true
  · rw [decisionOn, if_pos hv]
    exact ⟨_, .idle rfl⟩
  by_cases hlt : s.readings.size + 1 < s.rule.requiredBars
  · rw [decisionOn, if_neg hv, if_pos hlt]
    exact ⟨_, .idle rfl⟩
  rw [decisionOn, if_neg hv, if_neg hlt]
  cases hp : s.state.phase with
  | pendingEntry order stake => exact ⟨_, .idle rfl⟩
  | pendingExit order stake => exact ⟨_, .idle rfl⟩
  | long stake => exact s.exists_barMove_of_long bar account hp
  | flat =>
    cases hb : s.bottomOn? bar with
    | none => exact ⟨_, .idle rfl⟩
    | some bottom =>
      by_cases hz : (bottom.stake s.sizer account.cash).size = 0
      · rw [Decision.ofBar, s.buy_of_size_eq account hz]
        exact ⟨_, .idle rfl⟩
      · rw [Decision.ofBar, s.buy_of_size_ne account hz, BottomRule.barIndex_of_bottom? hb]
        exact ⟨_, .enter hp hb hz⟩

theorem barMove :
    BarMove s bar account (s.decisionOn bar account) (s.readBar bar account).strategy.state := by
  obtain ⟨after, move⟩ := s.exists_barMove bar account
  rw [(s.readBar_eq_decisionOn bar account).2.2, State.afterAll_of_allowed move.allowed]
  exact move

theorem exists_reportMove (report : OrderReport) :
    ∃ after, ReportMove s report (Decision.ofReport s.readings report s.state.phase) after := by
  cases hp : s.state.phase with
  | flat => exact ⟨_, .ignored (Or.inl (by rw [hp]; simp [Phase.order?]))⟩
  | long stake => exact ⟨_, .ignored (Or.inl (by rw [hp]; simp [Phase.order?]))⟩
  | pendingEntry order stake =>
    by_cases h : report.order = order ∧ (!report.status.isOpen) = true
    · rw [Decision.ofReport, if_pos h, Decision.endOfBuy]
      obtain ⟨rfl, hc⟩ := h
      by_cases hz : Decision.boughtSize report stake.size = 0
      · exact ⟨_, by rw [if_pos hz]; exact .buyFailed hp (by simpa using hc) hz⟩
      · exact ⟨_, by rw [if_neg hz]; exact .bought hp (by simpa using hc) hz⟩
    · rw [Decision.ofReport, if_neg h]
      exact ⟨_, .ignored (by rw [hp, Phase.order?]; grind)⟩
  | pendingExit order stake =>
    by_cases h : report.order = order ∧ (!report.status.isOpen) = true
    · rw [Decision.ofReport, if_pos h, Decision.endOfSell]
      obtain ⟨rfl, hc⟩ := h
      by_cases hz : Decision.leftSize report stake.size = 0
      · exact ⟨_, by rw [if_pos hz]; exact .sold hp (by simpa using hc) hz⟩
      · exact ⟨_, by rw [if_neg hz]; exact .sellFailed hp (by simpa using hc) hz⟩
    · rw [Decision.ofReport, if_neg h]
      exact ⟨_, .ignored (by rw [hp, Phase.order?]; grind)⟩

theorem reportMove (report : OrderReport) :
    ReportMove s report (Decision.ofReport s.readings report s.state.phase)
      (s.readReport report).state := by
  obtain ⟨after, move⟩ := s.exists_reportMove report
  rw [readReport, State.afterAll_of_allowed move.allowed]
  exact move

/-- No event asks for a transition that the phase of that moment does not allow. -/
theorem transitions_allowed (e : Event) :
    (s.transitions e).foldlM State.after? s.state = some (s.read e).state := by
  cases e with
  | bar bar account => exact (s.barMove bar account).allowed
  | report report => exact (s.reportMove report).allowed

end Strategy
end TroughTrader
