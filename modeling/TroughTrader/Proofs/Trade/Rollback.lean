import TroughTrader.Proofs.Trade.Remainder
import TroughTrader.Proofs.Trade.Stake

/-!
# Orders that execute nothing

An order that is sent puts a payload into the phase (`BarMove.of_sent`). While it is in flight
nothing else is sent and every priced bar is told to wait for it (`Strategy.orders_of_order?` and
`Strategy.outcome_of_order?`). If it ends without having executed anything, after whatever number of
other events, a sell leaves the very phase from which it was sent and a buy leaves a flat trade.
-/

namespace TroughTrader

theorem BarMove.of_sent {s : Strategy} {bar : Bar} {account : Account} {decision : Decision}
    {after : State} (move : BarMove s bar account decision after) (sent : decision.orders ≠ []) :
    (∃ stake, decision.outcome = .entrySubmitted account.nextOrder stake.size ∧
        after = ⟨.pendingEntry account.nextOrder stake, some bar.index⟩) ∨
      ∃ stake reason, s.state.phase = .long stake ∧
        decision.outcome = .exitSubmitted account.nextOrder account.position reason ∧
        after = ⟨.pendingExit account.nextOrder stake, s.state.lastEntry⟩ := by
  cases move with
  | idle _ => exact absurd rfl sent
  | enter _ _ _ => exact Or.inl ⟨_, rfl, rfl⟩
  | exit long _ => exact Or.inr ⟨_, _, long, rfl, rfl⟩
  | lost _ _ _ => exact absurd rfl sent
  | reenter _ _ _ _ => exact Or.inl ⟨_, rfl, rfl⟩

theorem ReportMove.of_unfilled_buy {s : Strategy} {report : OrderReport}
    {transitions : List Transition} {after : State}
    (move : ReportMove s report transitions after) {stake : Stake}
    (pending : s.state.phase = .pendingEntry report.order stake)
    (closed : report.status.isOpen = false) (unfinished : report.status ≠ .completed)
    (unfilled : report.filledSize = 0) : after = ⟨.flat, s.state.lastEntry⟩ := by
  cases move with
  | ignored other =>
    rw [pending, closed] at other
    simp [Phase.order?] at other
  | bought _ _ size_ne =>
    have hnothing : ∀ ordered, Decision.boughtSize report ordered = 0 := by
      intro ordered
      rw [Decision.boughtSize, if_neg (fun h => unfinished h.1), unfilled]
    exact absurd (hnothing _) size_ne
  | buyFailed _ _ _ => rfl
  | sold _ _ _ => rfl
  | sellFailed phase _ _ => rw [pending] at phase; cases phase

theorem Stake.afterSale_zero (stake : Stake) (h : stake.size ≠ 0) :
    stake.afterSale stake.size 0 = .long stake := by
  rw [afterSale, if_pos (UInt64.pos_iff_ne_zero.2 h), UInt64.sub_zero]

namespace Strategy

theorem orders_of_order? (s : Strategy) {events : List Event} {id : OrderId}
    (pending : s.state.phase.order? = some id) (others : ∀ e ∈ events, e.closes id = false) :
    s.orders events = [] := by
  induction events generalizing s with
  | nil => rfl
  | cons e events ih =>
    have hread := s.state_read_of_order? pending (others e List.mem_cons_self)
    have hrest := ih (s.read e) (by rwa [hread]) fun e' he' =>
      others e' (List.mem_cons_of_mem _ he')
    rw [orders_cons, hrest, List.append_nil]
    rcases s.orders_singleton_cases e with hnil | ⟨_, _, _, hfree⟩
    · exact hnil
    · rw [hfree] at pending
      cases pending

theorem outcome_of_order? (s : Strategy) {bar : Bar} {account : Account} {id : OrderId}
    (pending : s.state.phase.order? = some id)
    (enough : s.settings.requiredBars ≤ s.readings.size) :
    (s.readBar bar account).outcome = if bar.isVoid then .void else .awaitingOrder id := by
  have hnlt : ¬ s.readings.size + 1 < s.rule.requiredBars := by
    change ¬ s.readings.size + 1 < s.settings.requiredBars
    omega
  rw [(s.readBar_eq_decisionOn bar account).1, decisionOn, if_neg hnlt]
  by_cases hv : bar.isVoid = true
  · rw [if_pos hv, if_pos hv]
    rfl
  · rw [if_neg hv, if_neg hv]
    cases hp : s.state.phase with
    | flat => rw [hp] at pending; cases pending
    | long stake => rw [hp] at pending; cases pending
    | pendingEntry order stake => rw [hp] at pending; cases pending; rfl
    | pendingExit order stake => rw [hp] at pending; cases pending; rfl

theorem outcome_readAll_of_order? (settings : SoundSettings) (sizer : Sizer) (events : List Event)
    (bar : Bar) (account : Account) {id : OrderId}
    (pending : ((start settings sizer).readAll events).state.phase.order? = some id) :
    (((start settings sizer).readAll events).readBar bar account).outcome =
      if bar.isVoid then .void else .awaitingOrder id := by
  have hphase : ((start settings sizer).readAll events).state.phase ≠ .flat := by
    intro hflat
    rw [hflat] at pending
    cases pending
  apply outcome_of_order? _ pending
  rw [settings_readAll]
  exact requiredBars_le_readAll settings sizer events hphase

theorem state_after_unfilled_buy (s : Strategy) {more : List Event} {report : OrderReport}
    {order : OrderId} {stake : Stake} {index : Option UInt64}
    (pending : s.state = ⟨.pendingEntry order stake, index⟩)
    (others : ∀ e ∈ more, e.closes order = false)
    (closing : (Event.report report).closes order = true)
    (unfinished : report.status ≠ .completed) (unfilled : report.filledSize = 0) :
    (s.readAll (more ++ [.report report])).state = ⟨.flat, index⟩ := by
  have hwaiting : (s.readAll more).state = ⟨.pendingEntry order stake, index⟩ :=
    (s.state_readAll_of_order? (by rw [pending]; rfl) others).trans pending
  simp only [Event.closes, Bool.and_eq_true, decide_eq_true_eq, Bool.not_eq_true'] at closing
  obtain ⟨rfl, closed⟩ := closing
  have hend := ((s.readAll more).reportMove report).of_unfilled_buy (by rw [hwaiting]) closed
    unfinished unfilled
  rw [hwaiting] at hend
  rw [readAll_append]
  exact hend

theorem order?_of_sent (s : Strategy) {bar : Bar} {account : Account}
    (sent : (s.readBar bar account).orders ≠ []) :
    (s.read (.bar bar account)).state.phase.order? = some account.nextOrder := by
  rw [(s.readBar_eq_decisionOn bar account).2.1] at sent
  rcases (s.barMove bar account).of_sent sent with ⟨_, _, hafter⟩ | ⟨_, _, _, _, hafter⟩
  · rw [read, hafter]
    rfl
  · rw [read, hafter]
    rfl

/-- What is left by an order that ends with nothing executed. A stake of nothing would leave a flat
trade after a sell, as if it had been sold, so the stake has to be sound. -/
theorem state_after_unfilled (s : Strategy) (sound : s.state.phase.IsSound) {more : List Event}
    {bar : Bar} {account : Account} {report : OrderReport}
    (sent : (s.readBar bar account).orders ≠ [])
    (others : ∀ e ∈ more, e.closes account.nextOrder = false)
    (closing : (Event.report report).closes account.nextOrder = true)
    (unfinished : report.status ≠ .completed) (unfilled : report.filledSize = 0) :
    (∃ stake reason, s.state.phase = .long stake ∧ (s.readBar bar account).outcome =
        .exitSubmitted account.nextOrder account.position reason ∧
      (s.readAll (.bar bar account :: more ++ [.report report])).state = s.state) ∨
    ∃ size, (s.readBar bar account).outcome = .entrySubmitted account.nextOrder size ∧
      (s.read (.bar bar account)).state.lastEntry = some bar.index ∧
      (s.readAll (.bar bar account :: more ++ [.report report])).state =
        ⟨.flat, some bar.index⟩ := by
  obtain ⟨houtcome, horders, -⟩ := s.readBar_eq_decisionOn bar account
  rw [horders] at sent
  rw [houtcome]
  rcases (s.barMove bar account).of_sent sent with
    ⟨stake, hentry, hafter⟩ | ⟨stake, reason, long, hexit, hafter⟩
  · exact Or.inr ⟨_, hentry, congrArg State.lastEntry hafter,
      (s.read (.bar bar account)).state_after_unfilled_buy hafter others closing unfinished
        unfilled⟩
  · refine Or.inl ⟨stake, reason, long, hexit, ?_⟩
    have hended := s.state_after_unfinished_sell long (houtcome.trans hexit) others closing
      unfinished
    have hheld : s.state.phase.stake? = some stake := by
      rw [long]
      rfl
    rw [unfilled, stake.afterSale_zero (sound stake hheld).size_ne, ← long] at hended
    exact hended

/-- An order is sent, and other events follow that do not end it: bars with or without prices, open
statuses, reports of other orders. All the while the state is as it was when the order was sent,
no other order is sent, and every priced bar is told to wait. Then the order ends without being
completed and with nothing executed. After a sell the state is the one before it; after a buy the
trade is flat, and the last entry is still the bar on which the buy was sent. -/
theorem rollback_of_unfilled (settings : SoundSettings) (sizer : Sizer) (events more : List Event)
    (bar : Bar) (account : Account) (report : OrderReport) :
    let s := (start settings sizer).readAll events
    let order := account.nextOrder
    let sent := s.read (.bar bar account)
    let ended := s.readAll (.bar bar account :: more ++ [.report report])
    (s.readBar bar account).orders ≠ [] →
    (∀ e ∈ more, e.closes order = false) →
    (Event.report report).closes order = true →
    report.status ≠ .completed →
    report.filledSize = 0 →
      sent.state.phase.order? = some order ∧
        (∀ seen rest, more = seen ++ rest → (sent.readAll seen).state = sent.state) ∧
        sent.orders more = [] ∧
        (∀ seen b a rest, more = seen ++ .bar b a :: rest →
          ((sent.readAll seen).readBar b a).outcome =
            if b.isVoid then .void else .awaitingOrder order) ∧
        ((∃ stake reason, s.state.phase = .long stake ∧
            (s.readBar bar account).outcome = .exitSubmitted order account.position reason ∧
            ended.state = s.state) ∨
          ∃ size, (s.readBar bar account).outcome = .entrySubmitted order size ∧
            sent.state.lastEntry = some bar.index ∧ ended.state = ⟨.flat, some bar.index⟩) := by
  intro s order sent ended hsent others closing unfinished unfilled
  have pending : sent.state.phase.order? = some order := s.order?_of_sent hsent
  have hkeep : ∀ seen rest, more = seen ++ rest → (sent.readAll seen).state = sent.state := by
    rintro seen rest rfl
    exact sent.state_readAll_of_order? pending fun e he => others e (List.mem_append_left _ he)
  refine ⟨pending, hkeep, sent.orders_of_order? pending others, ?_,
    s.state_after_unfilled (isSound_readAll settings sizer events) hsent others closing unfinished
      unfilled⟩
  intro seen b a rest hsplit
  have hrun : (start settings sizer).readAll (events ++ .bar bar account :: seen) =
      sent.readAll seen := readAll_append _ _ _
  have hwait := @outcome_readAll_of_order? settings sizer (events ++ .bar bar account :: seen) b a
    order
  rw [hrun, hkeep seen _ hsplit] at hwait
  exact hwait pending

/-- A bought position is gone on the bar of the next bottom. The buy that is sent at once is
rejected after a void bar, a bar that waits, an open status and a late report of the first buy. -/
theorem rollback_of_unfilled_reentry :
    let events : List Event := [.bar (.quote 0 90 100) (.ofOrder 1),
      .bar (.quote 1 90 100) (.ofOrder 1), .bar (.quote 2 90 101) (.ofOrder 1),
      .bar (.quote 3 90 100) (.ofOrder 2), .report (.completed ⟨1⟩ 101 79)]
    let s := (start .brief SoundSettings.brief.riskBudget.sizer).readAll events
    let entry : Event := .bar (.quote 4 90 102) (.ofOrder 2)
    let more : List Event := [.bar (.quote 5 Binary64.undefined 100) (.ofOrder 3),
      .bar (.quote 6 90 90) (.ofOrder 3), .report ⟨⟨2⟩, .accepted, none, 0⟩,
      .report (.cancelled ⟨1⟩)]
    s.state.phase.stage = .long ∧ s.orders [entry] = [⟨.buy, 66⟩] ∧
      (s.readAll (entry :: more ++ [.report (.rejected ⟨2⟩)])).state = ⟨.flat, some 4⟩ := by
  intro events s entry more
  have hentry : (s.readBar (.quote 4 90 102) (.ofOrder 2)).outcome = .entrySubmitted ⟨2⟩ 66 := by
    decide +kernel
  obtain ⟨-, -, -, -, hended⟩ := rollback_of_unfilled .brief SoundSettings.brief.riskBudget.sizer
    events more (.quote 4 90 102) (.ofOrder 2) (.rejected ⟨2⟩) (by decide +kernel) (by decide)
    (by decide) (by decide) rfl
  refine ⟨by decide +kernel, by decide +kernel, ?_⟩
  rcases hended with ⟨_, _, _, hexit, _⟩ | ⟨_, _, _, hflat⟩
  · cases hentry.symm.trans hexit
  · exact hflat

end Strategy
end TroughTrader
