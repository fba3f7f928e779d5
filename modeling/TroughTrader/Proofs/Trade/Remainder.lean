import TroughTrader.Proofs.Trade.Flight

/-!
# What an unfinished sell leaves

A sell is sent for all that the broker holds (`BarMove.of_exitSubmitted`), but what an unfinished
one leaves is counted from the recorded size (`ReportMove.of_unfinished_sell`).
`phase_after_unfinished_sell` gives the phase after such a sell, and says when it is what the sell
order itself left: when the broker held the recorded size, or when neither of the two exceeds what
was sold.
-/

namespace TroughTrader

/-- The phase once some of a number of held units are sold: long of the rest, if there is one. -/
def Stake.afterSale (stake : Stake) (held sold : UInt64) : Phase :=
  if sold < held then .long { stake with size := held - sold } else .flat

theorem Stake.afterSale_eq_iff (stake : Stake) (held held' sold : UInt64) :
    stake.afterSale held sold = stake.afterSale held' sold ↔
      held = held' ∨ held ≤ sold ∧ held' ≤ sold := by
  by_cases h : sold < held
  · have hnot : ¬ held ≤ sold := UInt64.not_le.2 h
    by_cases h' : sold < held'
    · simp only [afterSale, if_pos h, if_pos h', Phase.long.injEq, Stake.mk.injEq, true_and,
        UInt64.sub_left_inj, hnot, false_and, or_false]
    · have hne : held ≠ held' := by
        rintro rfl
        exact h' h
      simp [afterSale, h, h', hnot, hne]
  · have hle : held ≤ sold := UInt64.not_lt.1 h
    by_cases h' : sold < held'
    · have hne : held ≠ held' := by
        rintro rfl
        exact h h'
      simp [afterSale, h, h', hne, UInt64.not_le.2 h']
    · simp [afterSale, h, h', hle, UInt64.not_lt.1 h']

theorem BarMove.of_exitSubmitted {s : Strategy} {bar : Bar} {account : Account}
    {decision : Decision} {after : State} (move : BarMove s bar account decision after)
    {order : OrderId} {size : UInt64} {reason : SellReason}
    (sold : decision.outcome = .exitSubmitted order size reason) :
    order = account.nextOrder ∧ size = account.position ∧ decision.orders = [⟨.sell, size⟩] ∧
      ∃ stake, s.state.phase = .long stake ∧
        after = ⟨.pendingExit order stake, s.state.lastEntry⟩ := by
  cases move with
  | idle idle =>
    rw [Decision.idle] at sold
    subst sold
    cases idle
  | enter _ _ _ => cases sold
  | exit long _ =>
    cases sold
    exact ⟨rfl, rfl, rfl, _, long, rfl⟩
  | lost _ _ outcome_eq => rcases outcome_eq with rfl | rfl <;> cases sold
  | reenter _ _ _ _ => cases sold

theorem Decision.leftSize_eq_zero_iff {report : OrderReport}
    (unfinished : report.status ≠ .completed) (held : UInt64) :
    leftSize report held = 0 ↔ held ≤ report.filledSize := by
  constructor
  · intro hzero
    by_contra hlt
    rw [leftSize, if_neg (not_or.2 ⟨unfinished, hlt⟩)] at hzero
    have hsub := UInt64.toNat_sub_of_le _ _ (UInt64.le_of_lt (UInt64.not_le.1 hlt))
    rw [hzero] at hsub
    rw [UInt64.le_iff_toNat_le] at hlt
    change 0 = _ at hsub
    omega
  · intro hle
    rw [leftSize, if_pos (Or.inr hle)]

theorem ReportMove.of_unfinished_sell {s : Strategy} {report : OrderReport}
    {transitions : List Transition} {after : State}
    (move : ReportMove s report transitions after) {stake : Stake}
    (pending : s.state.phase = .pendingExit report.order stake)
    (closed : report.status.isOpen = false) (unfinished : report.status ≠ .completed) :
    after = ⟨stake.afterSale stake.size report.filledSize, s.state.lastEntry⟩ := by
  cases move with
  | ignored other =>
    rw [pending, closed] at other
    simp [Phase.order?] at other
  | bought phase _ _ => rw [pending] at phase; cases phase
  | buyFailed phase _ _ => rw [pending] at phase; cases phase
  | sold phase _ left_eq =>
    rw [pending] at phase
    cases phase
    have hle := (Decision.leftSize_eq_zero_iff unfinished _).1 left_eq
    rw [Stake.afterSale, if_neg (UInt64.not_lt.2 hle)]
  | sellFailed phase _ left_ne =>
    rw [pending] at phase
    cases phase
    have hnot := mt (Decision.leftSize_eq_zero_iff unfinished _).2 left_ne
    rw [Stake.afterSale, if_pos (UInt64.not_le.1 hnot), Decision.leftSize,
      if_neg (not_or.2 ⟨unfinished, hnot⟩)]

namespace Strategy

theorem state_after_unfinished_sell (s : Strategy) {bar : Bar} {account : Account} {stake : Stake}
    {order : OrderId} {size : UInt64} {reason : SellReason} {more : List Event}
    {report : OrderReport} (long : s.state.phase = .long stake)
    (sold : (s.readBar bar account).outcome = .exitSubmitted order size reason)
    (others : ∀ e ∈ more, e.closes order = false)
    (closing : (Event.report report).closes order = true) (unfinished : report.status ≠ .completed) :
    (s.readAll (.bar bar account :: more ++ [.report report])).state =
      ⟨stake.afterSale stake.size report.filledSize, s.state.lastEntry⟩ := by
  rw [(s.readBar_eq_decisionOn bar account).1] at sold
  obtain ⟨-, -, -, stake', long', hsent⟩ := (s.barMove bar account).of_exitSubmitted sold
  obtain rfl : stake = stake' := by
    rw [long] at long'
    cases long'
    rfl
  -- What is recorded when the sell is sent is all that its end is counted from.
  have hpending : (s.read (.bar bar account)).state = ⟨.pendingExit order stake, s.state.lastEntry⟩ :=
    hsent
  have hwaiting : ((s.read (.bar bar account)).readAll more).state =
      ⟨.pendingExit order stake, s.state.lastEntry⟩ :=
    (state_readAll_of_order? _ (by rw [hpending]; rfl) others).trans hpending
  simp only [Event.closes, Bool.and_eq_true, decide_eq_true_eq, Bool.not_eq_true'] at closing
  obtain ⟨rfl, closed⟩ := closing
  have hend := (reportMove ((s.read (.bar bar account)).readAll more) report).of_unfinished_sell
    (by rw [hwaiting]) closed unfinished
  rw [hwaiting] at hend
  rw [readAll_append]
  exact hend

/-- After a sell that ends unfinished, however late its end is reported, the trade is long of the
recorded size less what was sold, at the same prices, or flat if that is nothing. This is what the
order left of itself exactly if it was sent for the recorded size, or if neither of the two sizes
exceeds what was sold. -/
theorem phase_after_unfinished_sell (settings : SoundSettings) (sizer : Sizer)
    (events more : List Event) (bar : Bar) (account : Account) (report : OrderReport)
    {stake : Stake} {order : OrderId} {size : UInt64} {reason : SellReason} :
    let s := (start settings sizer).readAll events
    let ended := s.readAll (.bar bar account :: more ++ [.report report])
    s.state.phase = .long stake →
    (s.readBar bar account).outcome = .exitSubmitted order size reason →
    (∀ e ∈ more, e.closes order = false) →
    (Event.report report).closes order = true →
    report.status ≠ .completed →
      (s.readBar bar account).orders = [⟨.sell, size⟩] ∧ size = account.position ∧
        ended.state = ⟨stake.afterSale stake.size report.filledSize, s.state.lastEntry⟩ ∧
        (ended.state.phase = stake.afterSale size report.filledSize ↔
          stake.size = size ∨ stake.size ≤ report.filledSize ∧ size ≤ report.filledSize) := by
  intro s ended long sold others closing unfinished
  have hended := s.state_after_unfinished_sell long sold others closing unfinished
  have hsold := sold
  rw [(s.readBar_eq_decisionOn bar account).1] at hsold
  obtain ⟨-, hsize, horders, -⟩ := (s.barMove bar account).of_exitSubmitted hsold
  refine ⟨(s.readBar_eq_decisionOn bar account).2.1.trans horders, hsize, hended, ?_⟩
  rw [show ended.state.phase = _ from congrArg State.phase hended]
  exact stake.afterSale_eq_iff _ _ _

def executedBuy : List Event :=
  [.bar (.quote 0 90 100) (.ofOrder 1), .bar (.quote 1 90 100) (.ofOrder 1),
    .bar (.quote 2 90 101) (.ofOrder 1), .report (.completed ⟨1⟩ 101 79)]

/-- The broker holds 100 units by now and sells 50 of them; in between there are a bar, an open
status and the end of another order. The trade is long of 29 units, not of 50. -/
theorem phase_after_unfinished_sell_larger_position :
    let s := (start .brief SoundSettings.brief.riskBudget.sizer).readAll executedBuy
    let sale : Event := .bar (.quote 3 90 95) ⟨10000.0, 100, ⟨2⟩⟩
    let more : List Event := [.bar (.quote 4 90 94) ⟨10000.0, 70, ⟨3⟩⟩,
      .report ⟨⟨2⟩, .partiallyFilled, none, 30⟩, .report (.cancelled ⟨1⟩)]
    let ended := s.readAll (sale :: more ++ [.report ⟨⟨2⟩, .cancelled, none, 50⟩])
    s.orders [sale] = [⟨.sell, 100⟩] ∧
      ∃ stake, s.state.phase = .long stake ∧ stake.size = 79 ∧
        ended.state = ⟨.long { stake with size := 29 }, s.state.lastEntry⟩ := by
  intro s sale more ended
  have hsize : s.state.phase.stake?.map (·.size) = some 79 := by decide +kernel
  have hstage : s.state.phase.stage = .long := by decide +kernel
  obtain ⟨stake, long⟩ : ∃ stake, s.state.phase = .long stake := by
    cases hp : s.state.phase with
    | long stake => exact ⟨stake, rfl⟩
    | _ => rw [hp] at hstage; cases hstage
  have h79 : stake.size = 79 := by
    rw [long] at hsize
    exact Option.some.inj hsize
  have hsold : (s.readBar (.quote 3 90 95) ⟨10000.0, 100, ⟨2⟩⟩).outcome =
      .exitSubmitted ⟨2⟩ 100 .crossDown := by
    decide +kernel
  obtain ⟨-, -, hended, -⟩ := phase_after_unfinished_sell .brief
    SoundSettings.brief.riskBudget.sizer executedBuy more (.quote 3 90 95) ⟨10000.0, 100, ⟨2⟩⟩
    ⟨⟨2⟩, .cancelled, none, 50⟩ long hsold (by decide) (by decide) (by decide)
  refine ⟨by decide +kernel, stake, long, h79, hended.trans ?_⟩
  rw [Stake.afterSale, h79]
  rfl

/-- The broker holds 100 units by now and sells 79 of them. The trade is flat, and 21 units of its
own sell order are left. -/
theorem flat_of_unfinished_sell_larger_position :
    let s := (start .brief SoundSettings.brief.riskBudget.sizer).readAll executedBuy
    let sale : Event := .bar (.quote 3 90 95) ⟨10000.0, 100, ⟨2⟩⟩
    let ended := s.readAll [sale, .report ⟨⟨2⟩, .cancelled, none, 79⟩]
    s.orders [sale] = [⟨.sell, 100⟩] ∧ s.state.phase.stage = .long ∧
      ended.state.phase.stage = .flat ∧ ∀ stake : Stake, (stake.afterSale 100 79).stage = .long := by
  refine ⟨by decide +kernel, by decide +kernel, by decide +kernel, fun stake => rfl⟩

end Strategy
end TroughTrader
