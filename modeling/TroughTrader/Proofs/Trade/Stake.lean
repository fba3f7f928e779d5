import TroughTrader.Proofs.Binary64.Lesser
import TroughTrader.Proofs.Trade.Feed
import TroughTrader.Proofs.Trade.Refinement
import TroughTrader.Proofs.Trade.Stages

/-!
# The stake of a trade

Outside the flat phase a trade has a stake of at least one unit and a stop that is defined, so that
the test of a close against the stop is never idle (`IsSound`). The fill of a buy sets the stop from
the last priced bar and its envelope (`Strategy.boughtStop_eq`). From then on, until the trade is
flat again, events may only lower the size (`Strategy.stake_read_of_long`). The last theorem says
this of whole runs, where `Strategy.stages` lists the stages that a run goes through, those within
one event included.
-/

namespace TroughTrader

open Market

/-- A stake of at least one unit, with a stop that a close can reach. -/
structure Stake.IsSound (stake : Stake) : Prop where
  size_ne : stake.size ≠ 0
  stop_defined : stake.stop.isNaN = false

def Phase.IsSound (phase : Phase) : Prop := ∀ stake, phase.stake? = some stake → stake.IsSound

theorem Phase.exists_stake (phase : Phase) (h : phase ≠ .flat) :
    ∃ stake, phase.stake? = some stake := by
  cases phase with
  | flat => exact absurd rfl h
  | pendingEntry order stake => exact ⟨stake, rfl⟩
  | long stake => exact ⟨stake, rfl⟩
  | pendingExit order stake => exact ⟨stake, rfl⟩

theorem Phase.exists_of_pendingEntry (phase : Phase) (h : phase.stage = .pendingEntry) :
    ∃ order stake, phase = .pendingEntry order stake := by
  cases phase with
  | pendingEntry order stake => exact ⟨order, stake, rfl⟩
  | _ => cases h

theorem Phase.exists_of_long (phase : Phase) (h : phase.stage = .long) :
    ∃ stake, phase = .long stake := by
  cases phase with
  | long stake => exact ⟨stake, rfl⟩
  | _ => cases h

theorem Market.Channel.isNaN_of_last? {readings : Array Reading} {field : Reading → Float}
    {x : Float} (h : last? readings field = some x) : x.isNaN = false := by
  obtain ⟨r, -, hr⟩ := Option.bind_eq_some_iff.1 h
  obtain ⟨rfl, hdefined⟩ := Binary64.defined?_eq_some hr
  exact hdefined

theorem Decision.isNaN_lastStop? {readings : Array Reading} {stop : Float}
    (h : lastStop? readings = some stop) : stop.isNaN = false := by
  obtain ⟨low, hlow, hrest⟩ := Option.bind_eq_some_iff.1 h
  obtain ⟨envelope, henvelope, hstop⟩ := Option.bind_eq_some_iff.1 hrest
  cases hstop
  exact Binary64.isNaN_lesser (Channel.isNaN_of_last? hlow) (Channel.isNaN_of_last? henvelope)

theorem Decision.leftSize_le (report : OrderReport) (held : UInt64) :
    leftSize report held ≤ held := by
  unfold leftSize
  by_cases h : report.status = .completed ∨ held ≤ report.filledSize
  · rw [if_pos h]
    exact UInt64.zero_le
  · rw [if_neg h, UInt64.le_iff_toNat_le]
    have hlt : report.filledSize < held := UInt64.not_le.1 fun hle => h (Or.inr hle)
    rw [UInt64.toNat_sub_of_le _ _ (UInt64.le_of_lt hlt)]
    omega

theorem Bottom.isSound_stake {s : Strategy} {bar : Bar} {bottom : Bottom} {cash : Float}
    (bottomOn : s.bottomOn? bar = some bottom) (size_ne : (bottom.stake s.sizer cash).size ≠ 0) :
    (bottom.stake s.sizer cash).IsSound := by
  obtain ⟨_, _, _, henvelope, _⟩ := BottomRule.eq_of_bottom? bottomOn
  exact ⟨size_ne, Channel.isNaN_of_last? henvelope⟩

theorem BarMove.isSound {s : Strategy} {bar : Bar} {account : Account} {decision : Decision}
    {after : State} (move : BarMove s bar account decision after) (h : s.state.phase.IsSound) :
    after.phase.IsSound := by
  cases move with
  | idle _ => exact h
  | enter _ bottomOn size_ne =>
    intro stake hstake
    cases hstake
    exact Bottom.isSound_stake bottomOn size_ne
  | exit long _ =>
    intro stake hstake
    apply h
    rw [long]
    exact hstake
  | lost _ _ _ =>
    intro stake hstake
    cases hstake
  | reenter _ _ bottomOn size_ne =>
    intro stake hstake
    cases hstake
    exact Bottom.isSound_stake bottomOn size_ne

theorem ReportMove.isSound {s : Strategy} {report : OrderReport} {transitions : List Transition}
    {after : State} (move : ReportMove s report transitions after) (h : s.state.phase.IsSound) :
    after.phase.IsSound := by
  cases move with
  | ignored _ => exact h
  | @bought ordered pending _ size_ne =>
    have hordered : ordered.IsSound := h ordered (by rw [pending]; rfl)
    intro stake hstake
    cases hstake
    refine ⟨size_ne, ?_⟩
    -- A fill price may be anything; the stop never comes from it.
    change ((Decision.lastStop? s.readings).getD ordered.stop).isNaN = false
    cases hlast : Decision.lastStop? s.readings with
    | none => exact hordered.stop_defined
    | some stop => exact Decision.isNaN_lastStop? hlast
  | buyFailed _ _ _ =>
    intro stake hstake
    cases hstake
  | sold _ _ _ =>
    intro stake hstake
    cases hstake
  | @sellFailed held pending _ left_ne =>
    have hheld : held.IsSound := h held (by rw [pending]; rfl)
    intro stake hstake
    cases hstake
    exact ⟨left_ne, hheld.stop_defined⟩

/-- A bar on which the trade does not become flat leaves the stake of a long trade as it is. -/
theorem BarMove.stake_of_long {s : Strategy} {bar : Bar} {account : Account} {decision : Decision}
    {after : State} (move : BarMove s bar account decision after)
    (long : s.state.phase.exposure = .long) (kept : .flat ∉ s.state.stages decision.transitions) :
    after.phase.exposure = .long ∧ after.phase.stake? = s.state.phase.stake? := by
  cases move with
  | idle _ => exact ⟨long, rfl⟩
  | enter flat _ _ => rw [flat] at long; cases long
  | exit phase _ => exact ⟨rfl, by rw [phase]; rfl⟩
  | lost phase _ _ => simp [State.stages, State.after, State.after?, phase, Phase.stage] at kept
  | reenter phase _ _ _ =>
    simp [State.stages, State.after, State.after?, phase, Phase.stage] at kept

/-- A report after which a long trade is not flat may lower its size, and changes nothing else. -/
theorem ReportMove.stake_of_long {s : Strategy} {report : OrderReport}
    {transitions : List Transition} {after : State}
    (move : ReportMove s report transitions after) {stake : Stake}
    (long : s.state.phase.exposure = .long) (hstake : s.state.phase.stake? = some stake)
    (kept : .flat ∉ s.state.stages transitions) :
    after.phase.exposure = .long ∧
      ∃ left ≤ stake.size, after.phase.stake? = some { stake with size := left } := by
  cases move with
  | ignored _ => exact ⟨long, stake.size, UInt64.le_refl _, hstake⟩
  | bought pending _ _ => rw [pending] at long; cases long
  | buyFailed pending _ _ => rw [pending] at long; cases long
  | sold pending _ _ => simp [State.stages, State.after, State.after?, pending, Phase.stage] at kept
  | sellFailed pending _ _ =>
    rw [pending] at hstake
    cases hstake
    exact ⟨rfl, _, Decision.leftSize_le report stake.size, rfl⟩

theorem ReportMove.of_bought {s : Strategy} {report : OrderReport} {transitions : List Transition}
    {after : State} (move : ReportMove s report transitions after) {order : OrderId}
    {ordered bought : Stake} (pending : s.state.phase = .pendingEntry order ordered)
    (long : after.phase = .long bought) : bought = report.boughtStake s.readings ordered := by
  cases move with
  | ignored _ => rw [pending] at long; cases long
  | bought phase _ _ =>
    rw [pending] at phase
    cases phase
    cases long
    rfl
  | buyFailed _ _ _ => cases long
  | sold _ _ _ => cases long
  | sellFailed phase _ _ => rw [pending] at phase; cases phase

namespace Strategy

theorem isSound_read (s : Strategy) (e : Event) (h : s.state.phase.IsSound) :
    (s.read e).state.phase.IsSound := by
  cases e with
  | bar bar account => exact (s.barMove bar account).isSound h
  | report report => exact (s.reportMove report).isSound h

theorem isSound_readAll (settings : SoundSettings) (sizer : Sizer) (events : List Event) :
    ((start settings sizer).readAll events).state.phase.IsSound := by
  induction events using List.reverseRecOn with
  | nil =>
    intro stake hstake
    cases hstake
  | append_singleton events e ih =>
    rw [readAll_append]
    exact isSound_read _ e ih

def stages (s : Strategy) : List Event → List Stage
  | [] => [s.state.phase.stage]
  | e :: events => s.state.stages (s.transitions e) ++ (s.read e).stages events

theorem stake_read_of_long (s : Strategy) {e : Event} {stake : Stake}
    (long : s.state.phase.exposure = .long) (hstake : s.state.phase.stake? = some stake)
    (kept : .flat ∉ s.state.stages (s.transitions e)) :
    (s.read e).state.phase.exposure = .long ∧
      ∃ left ≤ stake.size, (s.read e).state.phase.stake? = some { stake with size := left } := by
  cases e with
  | report report => exact (s.reportMove report).stake_of_long long hstake kept
  | bar bar account =>
    obtain ⟨hlong, hkeep⟩ := (s.barMove bar account).stake_of_long long kept
    exact ⟨hlong, stake.size, UInt64.le_refl _, hkeep.trans hstake⟩

theorem stake_readAll_of_long (s : Strategy) {events : List Event} {stake : Stake}
    (long : s.state.phase.exposure = .long) (hstake : s.state.phase.stake? = some stake)
    (kept : .flat ∉ s.stages events) :
    ∃ left ≤ stake.size,
      (s.readAll events).state.phase.stake? = some { stake with size := left } := by
  induction events generalizing s stake with
  | nil => exact ⟨stake.size, UInt64.le_refl _, hstake⟩
  | cons e events ih =>
    rw [stages, List.mem_append, not_or] at kept
    obtain ⟨hlong, mid, hmid, hread⟩ := s.stake_read_of_long long hstake kept.1
    obtain ⟨left, hleft, hrest⟩ := ih (s.read e) hlong hread kept.2
    exact ⟨left, UInt64.le_trans hleft hmid, hrest⟩

theorem isVoid_of_mem_pricedFeed {events : List Event} {bar : Bar} (h : bar ∈ pricedFeed events) :
    bar.isVoid = false := by
  simpa using (List.mem_filter.1 h).2

theorem low_defined_of_getLast? {events : List Event} {bar : Bar}
    (h : (pricedFeed events).getLast? = some bar) : bar.low.isNaN = false :=
  (Binary64.defined?_eq_some
    (Bar.defined?_low (isVoid_of_mem_pricedFeed (List.mem_of_getLast? h)))).2

theorem refines_pricedFeed (settings : SoundSettings) (sizer : Sizer) (events : List Event) :
    Refines ((start settings sizer).readAll events)
      ⟨pricedFeed events, ((start settings sizer).readAll events).state.phase,
        ((start settings sizer).readAll events).state.lastEntry⟩ := by
  refine ⟨?_, fun bar => isVoid_of_mem_pricedFeed, rfl⟩
  rw [settings_readAll]
  exact readings_readAll_start settings sizer events

theorem requiredBars_pos (settings : SoundSettings) : 1 ≤ settings.requiredBars :=
  le_trans settings.one_le_cycleLength (Nat.le_max_left _ _)

theorem exists_last_of_phase_ne_flat (settings : SoundSettings) (sizer : Sizer)
    (events : List Event) (h : ((start settings sizer).readAll events).state.phase ≠ .flat) :
    ∃ bar envelope, (pricedFeed events).getLast? = some bar ∧
      (settings.lowerEnvelope.values ((pricedFeed events).map (·.close))).getLast? =
        some envelope := by
  have henough := requiredBars_le_readAll settings sizer events h
  rw [readings_readAll_start, Channel.size_readAll] at henough
  have hone := requiredBars_pos settings
  have hbars : pricedFeed events ≠ [] := List.ne_nil_of_length_pos (by omega)
  have henvelopes : settings.lowerEnvelope.values ((pricedFeed events).map (·.close)) ≠ [] := by
    apply List.ne_nil_of_length_pos
    rw [LowerEnvelope.length_values, List.length_map]
    omega
  exact ⟨_, _, List.getLast?_eq_some_getLast hbars, List.getLast?_eq_some_getLast henvelopes⟩

theorem boughtStop_eq (settings : SoundSettings) (sizer : Sizer) (events : List Event)
    {bar : Bar} {envelope : Float} (hbar : (pricedFeed events).getLast? = some bar)
    (henvelope : (settings.lowerEnvelope.values ((pricedFeed events).map (·.close))).getLast? =
      some envelope) (provisional : Float) :
    (Decision.lastStop? ((start settings sizer).readAll events).readings).getD provisional =
      if envelope.isNaN then provisional else Binary64.lesser bar.low envelope := by
  have hseries := Channel.map_lowerEnvelope_readAll_eq settings.channel settings.lowerEnvelope rfl
    rfl (pricedFeed events)
  have hlast : (Series.ofReadings ((start settings sizer).readAll events).readings).lastEnvelope =
      envelope := by
    rw [readings_readAll_start, Series.lastEnvelope, Series.ofReadings, hseries,
      List.getLastD_eq_getLast?, henvelope]
    rfl
  rw [← (refines_pricedFeed settings sizer events).boughtStop_eq provisional, Batch.boughtStop,
    hbar, hlast]

/-- The fill of a buy, in the words of the whole series over the priced bars of the run. -/
theorem stake_of_fill (settings : SoundSettings) (sizer : Sizer) (events : List Event) {e : Event}
    {order : OrderId} {ordered bought : Stake}
    (pending : ((start settings sizer).readAll events).state.phase = .pendingEntry order ordered)
    (long : (((start settings sizer).readAll events).read e).state.phase = .long bought) :
    ∃ report bar envelope, e = .report report ∧ (pricedFeed events).getLast? = some bar ∧
      (settings.lowerEnvelope.values ((pricedFeed events).map (·.close))).getLast? =
        some envelope ∧
      bought.entry = report.fillPrice.getD ordered.entry ∧
      bought.stop = if envelope.isNaN then ordered.stop else Binary64.lesser bar.low envelope := by
  have hphase : ((start settings sizer).readAll events).state.phase ≠ .flat := by
    rw [pending]
    intro h
    cases h
  obtain ⟨bar, envelope, hbar, henvelope⟩ :=
    exists_last_of_phase_ne_flat settings sizer events hphase
  cases e with
  | bar b account =>
    have hkeep := ((start settings sizer).readAll events).state_read_of_order? (e := .bar b account)
      (by rw [pending]; rfl) rfl
    rw [hkeep, pending] at long
    cases long
  | report report =>
    have hbought :=
      (((start settings sizer).readAll events).reportMove report).of_bought pending long
    have hstop := boughtStop_eq settings sizer events hbar henvelope ordered.stop
    rw [hbought]
    exact ⟨report, bar, envelope, rfl, hbar, henvelope, rfl, hstop⟩

/-- In every run a trade that is not flat has at least one unit and a defined stop. When its buy is
executed, the entry is the reported price or else the provisional one, and the stop is the lesser of
the low and the envelope of the last priced bar, or the provisional one where that envelope is
undefined. From then on, at whatever two moments before the trade is flat again, the entry and the
stop are the same and the size is no larger at the later one. -/
theorem stake_through_trade (settings : SoundSettings) (sizer : Sizer) (events : List Event) :
    let s := (start settings sizer).readAll events
    let bars := pricedFeed events
    (s.state.phase ≠ .flat → ∃ stake, s.state.phase.stake? = some stake ∧ 1 ≤ stake.size ∧
        stake.stop.isNaN = false) ∧
      (∀ e order ordered bought, s.state.phase = .pendingEntry order ordered →
        (s.read e).state.phase = .long bought →
          ∃ report bar envelope, e = .report report ∧ bars.getLast? = some bar ∧
            (settings.lowerEnvelope.values (bars.map (·.close))).getLast? = some envelope ∧
            bought.entry = report.fillPrice.getD ordered.entry ∧
            (envelope.isNaN = true → bought.stop = ordered.stop) ∧
            (envelope.isNaN = false → bought.stop = Binary64.lesser bar.low envelope ∧
              (bought.stop = bar.low ∨ bought.stop = envelope) ∧
              ¬ bar.low < bought.stop ∧ ¬ envelope < bought.stop)) ∧
      ∀ more stake, s.state.phase.exposure = .long → s.state.phase.stake? = some stake →
        .flat ∉ s.stages more →
          ∃ left ≤ stake.size,
            (s.readAll more).state.phase.stake? = some { stake with size := left } := by
  intro s bars
  refine ⟨?_, ?_, fun more stake long hstake kept => s.stake_readAll_of_long long hstake kept⟩
  · intro hphase
    obtain ⟨stake, hstake⟩ := s.state.phase.exists_stake hphase
    obtain ⟨size_ne, stop_defined⟩ := isSound_readAll settings sizer events stake hstake
    have hpos := UInt64.lt_iff_toNat_lt.1 (UInt64.pos_iff_ne_zero.2 size_ne)
    exact ⟨stake, hstake, UInt64.le_iff_toNat_le.2 hpos, stop_defined⟩
  · intro e order ordered bought pending long
    obtain ⟨report, bar, envelope, rfl, hbar, henvelope, hentry, hstop⟩ :=
      stake_of_fill settings sizer events pending long
    refine ⟨report, bar, envelope, rfl, hbar, henvelope, hentry, ?_, ?_⟩
    · intro hnan
      rw [hstop, if_pos hnan]
    · intro hdefined
      rw [if_neg (by rw [hdefined]; exact Bool.false_ne_true)] at hstop
      rw [hstop]
      exact ⟨rfl, Binary64.lesser_eq_or _ _,
        Binary64.not_lt_lesser (low_defined_of_getLast? hbar)⟩

/-- A buy is cancelled after 50 units without a price. The first sell of the trade is rejected, the
second one is cancelled after 20 units: the stake is that of the fill, but for its size. -/
theorem stake_through_trade_partial_sell :
    let s := (start .brief SoundSettings.brief.riskBudget.sizer).readAll
      [.bar (.quote 0 90 100) (.ofOrder 1), .bar (.quote 1 90 100) (.ofOrder 1),
        .bar (.quote 2 90 101) (.ofOrder 1)]
    let fill : Event := .report ⟨⟨1⟩, .cancelled, none, 50⟩
    let more : List Event := [.bar (.quote 3 90 95) ⟨10000.0, 50, ⟨2⟩⟩, .report (.rejected ⟨2⟩),
      .bar (.quote 4 80 85) ⟨10000.0, 50, ⟨3⟩⟩, .report ⟨⟨3⟩, .cancelled, some 85, 20⟩]
    ∃ ordered bought, s.state.phase = .pendingEntry ⟨1⟩ ordered ∧
      (s.read fill).state.phase = .long bought ∧ bought.entry = ordered.entry ∧
      .flat ∉ (s.read fill).stages more ∧
      ((s.read fill).readAll more).state.phase.stake? = some { bought with size := 30 } := by
  intro s fill more
  let events : List Event := [.bar (.quote 0 90 100) (.ofOrder 1),
    .bar (.quote 1 90 100) (.ofOrder 1), .bar (.quote 2 90 101) (.ofOrder 1)]
  have horder : s.state.phase.order? = some ⟨1⟩ := by decide +kernel
  obtain ⟨order, ordered, pending⟩ := s.state.phase.exists_of_pendingEntry (by decide +kernel)
  obtain ⟨bought, long⟩ := (s.read fill).state.phase.exists_of_long (by decide +kernel)
  have kept : .flat ∉ (s.read fill).stages more := by decide +kernel
  have hsize : ((s.read fill).readAll more).state.phase.stake?.map (·.size) = some 30 := by
    decide +kernel
  obtain ⟨report, bar, envelope, hreport, -, -, hentry, -⟩ :=
    (stake_through_trade .brief SoundSettings.brief.riskBudget.sizer events).2.1 fill order ordered
      bought pending long
  have hexposure : (s.read fill).state.phase.exposure = .long := by rw [long]; rfl
  have hstake : (s.read fill).state.phase.stake? = some bought := by rw [long]; rfl
  obtain ⟨left, -, hleft⟩ :=
    (stake_through_trade .brief SoundSettings.brief.riskBudget.sizer (events ++ [fill])).2.2 more
      bought hexposure hstake kept
  rw [pending] at horder
  cases horder
  cases Event.report.inj hreport
  have hrun : (start .brief SoundSettings.brief.riskBudget.sizer).readAll (events ++ [fill]) =
      s.read fill := readAll_append _ _ _
  rw [hrun] at hleft
  rw [hleft] at hsize ⊢
  cases hsize
  exact ⟨ordered, bought, pending, long, hentry, kept, rfl⟩

end Strategy
end TroughTrader
