import Mathlib.Data.List.Forall2
import TroughTrader.Proofs.Trade.Feed
import TroughTrader.Proofs.Trade.Idle

/-!
# Runs under other names

A `Relabelling` gives every order a name of its own and numbers the bars from another start. Two
runs are related by it if their events are, one by one (`Relabelling.Events`): a bar may then also
have another date, another first price and another highest price. A step of one run is a step of the
other one under the new names (`Relabelling.Strategies.read`), because the names of orders are only
compared with each other, numbers of bars only enter as differences, and the readings are taken from
closes and lows.
-/

namespace TroughTrader

open Market

/-- New names for the orders, no two of them alike, and how far the numbers of the bars move. -/
structure Relabelling where
  order : OrderId → OrderId
  order_injective : Function.Injective order
  shift : Int

namespace Relabelling

variable (r : Relabelling)

/-- The number of a bar, and its new number. -/
def Moves (i j : UInt64) : Prop := (j.toNat : Int) = i.toNat + r.shift

instance (i j : UInt64) : Decidable (r.Moves i j) := inferInstanceAs (Decidable (_ = _))

def phase : Phase → Phase
  | .flat => .flat
  | .pendingEntry order stake => .pendingEntry (r.order order) stake
  | .long stake => .long stake
  | .pendingExit order stake => .pendingExit (r.order order) stake

def outcome : Outcome → Outcome
  | .awaitingOrder order => .awaitingOrder (r.order order)
  | .entrySubmitted order size => .entrySubmitted (r.order order) size
  | .exitSubmitted order size reason => .exitSubmitted (r.order order) size reason
  | .void => .void
  | .warmup => .warmup
  | .hold => .hold
  | .entryRefused => .entryRefused
  | .reconciled => .reconciled

def account (account : Account) : Account := { account with nextOrder := r.order account.nextOrder }

def report (report : OrderReport) : OrderReport := { report with order := r.order report.order }

/-- Two bars that differ in their numbers, and in what is not read: the date, the first price and
the highest price, and all prices where one is lacking. -/
structure Bars (bar bar' : Bar) : Prop where
  index_moves : r.Moves bar.index bar'.index
  isVoid_eq : bar'.isVoid = bar.isVoid
  low_eq : bar.isVoid = false → bar'.low = bar.low
  close_eq : bar.isVoid = false → bar'.close = bar.close

inductive Events : Event → Event → Prop
  | bar {bar bar' : Bar} (bars : r.Bars bar bar') (account : Account) :
      Events (.bar bar account) (.bar bar' (r.account account))
  | report (report : OrderReport) : Events (.report report) (.report (r.report report))

structure States (state state' : State) : Prop where
  phase_eq : state'.phase = r.phase state.phase
  lastEntry_moves : Option.Rel r.Moves state.lastEntry state'.lastEntry

/-- Two journal entries that differ in the numbers of bars, and in the date. -/
structure Entries (entry entry' : JournalEntry) : Prop where
  barIndex_moves : r.Moves entry.barIndex entry'.barIndex
  stage_eq : entry'.stage = entry.stage
  entryPrice_eq : entry'.entryPrice = entry.entryPrice
  stopPrice_eq : entry'.stopPrice = entry.stopPrice
  lastEntry_moves : Option.Rel r.Moves entry.lastEntry entry'.lastEntry
  wasBottom_eq : entry'.wasBottom = entry.wasBottom

structure Strategies (s s' : Strategy) : Prop where
  settings_eq : s'.settings = s.settings
  sizer_eq : s'.sizer = s.sizer
  readings_eq : s'.readings = s.readings
  states : r.States s.state s'.state
  journals : List.Forall₂ r.Entries s.journal.toList s'.journal.toList

structure Bottoms (bottom bottom' : Bottom) : Prop where
  barIndex_moves : r.Moves bottom.barIndex bottom'.barIndex
  close_eq : bottom'.close = bottom.close
  lowerEnvelope_eq : bottom'.lowerEnvelope = bottom.lowerEnvelope

inductive Transitions : Transition → Transition → Prop
  | buySent (order : OrderId) (stake : Stake) {i j : UInt64} (moves : r.Moves i j) :
      Transitions (.buySent order stake i) (.buySent (r.order order) stake j)
  | bought (stake : Stake) : Transitions (.bought stake) (.bought stake)
  | buyFailed : Transitions .buyFailed .buyFailed
  | sellSent (order : OrderId) : Transitions (.sellSent order) (.sellSent (r.order order))
  | sellFailed (left : UInt64) : Transitions (.sellFailed left) (.sellFailed left)
  | closed : Transitions .closed .closed

structure Decisions (decision decision' : Decision) : Prop where
  outcome_eq : decision'.outcome = r.outcome decision.outcome
  orders_eq : decision'.orders = decision.orders
  transitions : List.Forall₂ r.Transitions decision.transitions decision'.transitions

theorem isSpaced_eq {minGap i j : UInt64} {last last' : Option UInt64} (moves : r.Moves i j)
    (hlast : Option.Rel r.Moves last last') :
    BottomRule.isSpaced minGap j last' = BottomRule.isSpaced minGap i last := by
  cases hlast with
  | none => rfl
  | some hmoves =>
    rw [BottomRule.isSpaced, BottomRule.isSpaced, decide_eq_decide]
    unfold Moves at moves hmoves
    omega

theorem push_eq {bar bar' : Bar} (h : r.Bars bar bar') (priced : bar.isVoid = false)
    (c : Channel) (readings : Array Reading) : c.push readings bar' = c.push readings bar := by
  rw [Channel.push_eq, Channel.push_eq, Channel.reading, Channel.reading, h.close_eq priced,
    h.low_eq priced]

theorem states_after {state state' : State} {t t' : Transition} (h : r.States state state')
    (ht : r.Transitions t t') : r.States (state.after t) (state'.after t') := by
  obtain ⟨phase, last⟩ := state
  obtain ⟨phase', last'⟩ := state'
  obtain ⟨rfl, hlast⟩ := h
  cases ht with
  | buySent order stake moves =>
    cases phase with
    | flat => exact ⟨rfl, .some moves⟩
    | pendingEntry _ _ | long _ | pendingExit _ _ => exact ⟨rfl, hlast⟩
  | bought stake => cases phase <;> exact ⟨rfl, hlast⟩
  | buyFailed => cases phase <;> exact ⟨rfl, hlast⟩
  | sellSent order => cases phase <;> exact ⟨rfl, hlast⟩
  | sellFailed left => cases phase <;> exact ⟨rfl, hlast⟩
  | closed => cases phase <;> exact ⟨rfl, hlast⟩

theorem states_afterAll {state state' : State} {ts ts' : List Transition}
    (h : r.States state state') (hts : List.Forall₂ r.Transitions ts ts') :
    r.States (state.afterAll ts) (state'.afterAll ts') := by
  induction hts generalizing state state' with
  | nil => exact h
  | cons ht _ ih => exact ih (r.states_after h ht)

theorem decisions_idle (outcome : Outcome) : r.Decisions (.idle outcome) (.idle (r.outcome outcome)) :=
  ⟨rfl, rfl, .nil⟩

theorem decisions_buy {bottom bottom' : Bottom} (h : r.Bottoms bottom bottom') (sizer : Sizer)
    (account : Account) :
    r.Decisions (.buy sizer account bottom) (.buy sizer (r.account account) bottom') := by
  unfold Decision.buy
  rw [h.close_eq, h.lowerEnvelope_eq, show (r.account account).cash = account.cash from rfl]
  by_cases hsize : sizer.size bottom.close bottom.lowerEnvelope account.cash = 0
  · simp only [if_pos hsize]
    exact r.decisions_idle .entryRefused
  · simp only [if_neg hsize]
    exact ⟨rfl, rfl, .cons (.buySent _ _ h.barIndex_moves) .nil⟩

theorem decisions_reconcile {bottom bottom' : Option Bottom} (h : Option.Rel r.Bottoms bottom bottom')
    (sizer : Sizer) (account : Account) :
    r.Decisions (.reconcile sizer account bottom)
      (.reconcile sizer (r.account account) bottom') := by
  cases h with
  | none => exact ⟨rfl, rfl, .cons .closed .nil⟩
  | some hbottom =>
    obtain ⟨houtcome, horders, htransitions⟩ := r.decisions_buy hbottom sizer account
    exact ⟨houtcome, horders, .cons .closed htransitions⟩

/-- Decisions about the same market are the same under new names. -/
theorem decisions_ofBar {bottom bottom' : Option Bottom} (h : Option.Rel r.Bottoms bottom bottom')
    (sizer : Sizer) (account : Account) (readings : Array Reading) (close : Float)
    (phase : Phase) :
    r.Decisions (.ofBar sizer account readings close bottom phase)
      (.ofBar sizer (r.account account) readings close bottom' (r.phase phase)) := by
  cases phase with
  | pendingEntry order stake => exact r.decisions_idle (.awaitingOrder order)
  | pendingExit order stake => exact r.decisions_idle (.awaitingOrder order)
  | flat =>
    cases h with
    | none => exact r.decisions_idle .hold
    | some hbottom => exact r.decisions_buy hbottom sizer account
  | long stake =>
    unfold phase Decision.ofBar
    have hposition : (r.account account).position = account.position := rfl
    by_cases hgone : account.position = 0
    · simp only [hposition, if_pos hgone]
      exact r.decisions_reconcile h sizer account
    · simp only [hposition, if_neg hgone]
      cases Decision.sellReason? readings close stake.stop with
      | none => exact r.decisions_idle .hold
      | some reason => exact ⟨rfl, rfl, .cons (.sellSent _) .nil⟩

theorem transitions_self_endOfBuy (readings : Array Reading) (report : OrderReport)
    (stake : Stake) :
    r.Transitions (Decision.endOfBuy readings report stake)
      (Decision.endOfBuy readings (r.report report) stake) := by
  change r.Transitions _ (Decision.endOfBuy readings report stake)
  unfold Decision.endOfBuy
  by_cases hsize : Decision.boughtSize report stake.size = 0
  · simp only [if_pos hsize]
    exact .buyFailed
  · simp only [if_neg hsize]
    exact .bought _

theorem transitions_self_endOfSell (report : OrderReport) (stake : Stake) :
    r.Transitions (Decision.endOfSell report stake)
      (Decision.endOfSell (r.report report) stake) := by
  change r.Transitions _ (Decision.endOfSell report stake)
  unfold Decision.endOfSell
  by_cases hleft : Decision.leftSize report stake.size = 0
  · simp only [if_pos hleft]
    exact .closed
  · simp only [if_neg hleft]
    exact .sellFailed _

/-- A report is about the order in flight exactly if it is under new names: no two have the same. -/
theorem transitions_ofReport (readings : Array Reading) (report : OrderReport) (phase : Phase) :
    List.Forall₂ r.Transitions (Decision.ofReport readings report phase)
      (Decision.ofReport readings (r.report report) (r.phase phase)) := by
  have hname : ∀ order, (r.report report).order = r.order order ↔ report.order = order :=
    fun order => r.order_injective.eq_iff
  have hstatus : (r.report report).status = report.status := rfl
  cases phase with
  | flat => exact .nil
  | long stake => exact .nil
  | pendingEntry order stake =>
    unfold phase Decision.ofReport
    by_cases hends : report.order = order ∧ (!report.status.isOpen) = true
    · simp only [hname, hstatus, if_pos hends]
      exact .cons (r.transitions_self_endOfBuy readings report stake) .nil
    · simp only [hname, hstatus, if_neg hends]
      exact .nil
  | pendingExit order stake =>
    unfold phase Decision.ofReport
    by_cases hends : report.order = order ∧ (!report.status.isOpen) = true
    · simp only [hname, hstatus, if_pos hends]
      exact .cons (r.transitions_self_endOfSell report stake) .nil
    · simp only [hname, hstatus, if_neg hends]
      exact .nil

namespace Strategies

variable {r} {s s' : Strategy} {bar bar' : Bar}

theorem start (settings : SoundSettings) (sizer : Sizer) :
    r.Strategies (.start settings sizer) (.start settings sizer) :=
  ⟨rfl, rfl, rfl, ⟨rfl, .none⟩, .nil⟩

theorem readingsWith_eq (h : r.Strategies s s') (hbars : r.Bars bar bar')
    (priced : bar.isVoid = false) : s'.readingsWith bar' = s.readingsWith bar := by
  rw [Strategy.readingsWith, Strategy.readingsWith, h.settings_eq, h.readings_eq,
    r.push_eq hbars priced]

theorem rule_eq (h : r.Strategies s s') : s'.rule = s.rule := by
  rw [Strategy.rule, Strategy.rule, h.settings_eq]

theorem answersOn_eq (h : r.Strategies s s') (hbars : r.Bars bar bar')
    (priced : bar.isVoid = false) : s'.answersOn bar' = s.answersOn bar := by
  rw [Strategy.answersOn, Strategy.answersOn, h.readingsWith_eq hbars priced, h.rule_eq,
    hbars.low_eq priced, r.isSpaced_eq hbars.index_moves h.states.lastEntry_moves]

theorem bottoms (h : r.Strategies s s') (hbars : r.Bars bar bar') (priced : bar.isVoid = false)
    (henough : s.rule.requiredBars ≤ s.readings.size + 1) :
    Option.Rel r.Bottoms (s.bottomOn? bar) (s'.bottomOn? bar') := by
  have hanswers := h.answersOn_eq hbars priced
  have hreadings := h.readingsWith_eq hbars priced
  have hbottom := BottomRule.bottom?_push s.rule s.settings.channel bar bar s.readings
    s.state.lastEntry henough
  have henough' : s'.rule.requiredBars ≤ s'.readings.size + 1 := by
    rwa [h.rule_eq, h.readings_eq]
  have hbottom' := BottomRule.bottom?_push s'.rule s'.settings.channel bar' bar' s'.readings
    s'.state.lastEntry henough'
  change s.bottomOn? bar = if (s.answersOn bar).isBottom then
    (Channel.last? (s.readingsWith bar) (·.lowerEnvelope)).map _ else none at hbottom
  change s'.bottomOn? bar' = if (s'.answersOn bar').isBottom then
    (Channel.last? (s'.readingsWith bar') (·.lowerEnvelope)).map _ else none at hbottom'
  rw [hbottom, hbottom', hanswers, hreadings]
  by_cases hyes : (s.answersOn bar).isBottom = true
  · rw [if_pos hyes, if_pos hyes]
    cases Channel.last? (s.readingsWith bar) (·.lowerEnvelope) with
    | none => exact .none
    | some envelope => exact .some ⟨hbars.index_moves, hbars.close_eq priced, rfl⟩
  · rw [if_neg hyes, if_neg hyes]
    exact .none

theorem decisions (h : r.Strategies s s') (hbars : r.Bars bar bar') (account : Account) :
    r.Decisions (s.decisionOn bar account) (s'.decisionOn bar' (r.account account)) := by
  rw [Strategy.decisionOn, Strategy.decisionOn, hbars.isVoid_eq, h.rule_eq, h.readings_eq]
  by_cases hv : bar.isVoid = true
  · rw [if_pos hv, if_pos hv]
    exact r.decisions_idle .void
  by_cases hlt : s.readings.size + 1 < s.rule.requiredBars
  · rw [if_neg hv, if_neg hv, if_pos hlt, if_pos hlt]
    exact r.decisions_idle .warmup
  · have priced : bar.isVoid = false := Bool.eq_false_iff.2 hv
    rw [if_neg hv, if_neg hv, if_neg hlt, if_neg hlt, h.readingsWith_eq hbars priced, h.sizer_eq,
      hbars.close_eq priced, h.states.phase_eq]
    exact r.decisions_ofBar (h.bottoms hbars priced (Nat.not_lt.1 hlt)) _ _ _ _ _

theorem entries (h : r.Strategies s s') (hbars : r.Bars bar bar') (priced : bar.isVoid = false)
    (account : Account) :
    r.Entries (s.entryOn bar account) (s'.entryOn bar' (r.account account)) := by
  have hstates := r.states_afterAll h.states (h.decisions hbars account).transitions
  have hphase := hstates.phase_eq
  rw [Strategy.entryOn, Strategy.entryOn, h.answersOn_eq hbars priced]
  refine ⟨hbars.index_moves, ?_, ?_, ?_, hstates.lastEntry_moves, rfl⟩
  · change Phase.stage _ = Phase.stage _
    rw [hphase]
    cases (s.state.afterAll (s.decisionOn bar account).transitions).phase <;> rfl
  · change (Phase.stake? _).map _ = (Phase.stake? _).map _
    rw [hphase]
    cases (s.state.afterAll (s.decisionOn bar account).transitions).phase <;> rfl
  · change (Phase.stake? _).map _ = (Phase.stake? _).map _
    rw [hphase]
    cases (s.state.afterAll (s.decisionOn bar account).transitions).phase <;> rfl

theorem readBar (h : r.Strategies s s') (hbars : r.Bars bar bar') (account : Account) :
    r.Strategies (s.readBar bar account).strategy
      (s'.readBar bar' (r.account account)).strategy := by
  have hstates := r.states_afterAll h.states (h.decisions hbars account).transitions
  by_cases hv : bar.isVoid = true
  · rw [s.readBar_of_isVoid bar account hv, s'.readBar_of_isVoid bar' _ (hbars.isVoid_eq.trans hv)]
    exact h
  have hv' : ¬ bar'.isVoid = true := by rwa [hbars.isVoid_eq]
  have priced : bar.isVoid = false := Bool.eq_false_iff.2 hv
  have hreadings := h.readingsWith_eq hbars priced
  by_cases hlt : s.readings.size + 1 < s.rule.requiredBars
  · have hlt' : s'.readings.size + 1 < s'.rule.requiredBars := by
      rwa [h.rule_eq, h.readings_eq]
    rw [s.readBar_of_lt bar account hv hlt, s'.readBar_of_lt bar' _ hv' hlt']
    exact ⟨h.settings_eq, h.sizer_eq, hreadings, h.states, h.journals⟩
  · have hle' : s'.rule.requiredBars ≤ s'.readings.size + 1 := by
      rw [h.rule_eq, h.readings_eq]
      exact Nat.not_lt.1 hlt
    rw [s.readBar_of_le bar account hv (Nat.not_lt.1 hlt), s'.readBar_of_le bar' _ hv' hle']
    refine ⟨h.settings_eq, h.sizer_eq, hreadings, hstates, ?_⟩
    rw [Array.toList_push, Array.toList_push]
    exact List.rel_append h.journals (.cons (h.entries hbars priced account) .nil)

theorem readReport (h : r.Strategies s s') (report : OrderReport) :
    r.Strategies (s.readReport report) (s'.readReport (r.report report)) := by
  refine ⟨h.settings_eq, h.sizer_eq, h.readings_eq, ?_, h.journals⟩
  change r.States (s.state.afterAll _) (s'.state.afterAll _)
  rw [h.readings_eq, h.states.phase_eq]
  exact r.states_afterAll h.states (r.transitions_ofReport _ _ _)

theorem read (h : r.Strategies s s') {e e' : Event} (he : r.Events e e') :
    r.Strategies (s.read e) (s'.read e') := by
  cases he with
  | bar bars account => exact h.readBar bars account
  | report report => exact h.readReport report

theorem readAll (h : r.Strategies s s') {events events' : List Event}
    (hevents : List.Forall₂ r.Events events events') :
    r.Strategies (s.readAll events) (s'.readAll events') := by
  induction hevents generalizing s s' with
  | nil => exact h
  | cons he _ ih => exact ih (h.read he)

theorem outcomes_eq (h : r.Strategies s s') {events events' : List Event}
    (hevents : List.Forall₂ r.Events events events') :
    (s'.outcomes events').map (·.2) = (s.outcomes events).map fun seen => r.outcome seen.2 := by
  induction hevents generalizing s s' with
  | nil => rfl
  | cons he _ ih =>
    have hrest := ih (h.read he)
    cases he with
    | report report => exact hrest
    | @bar bar bar' bars account =>
      have houtcome := (h.decisions bars account).outcome_eq
      rw [← (s.readBar_eq_decisionOn bar account).1,
        ← (s'.readBar_eq_decisionOn bar' (r.account account)).1] at houtcome
      rw [Strategy.outcomes, Strategy.outcomes, List.map_cons, List.map_cons, hrest, houtcome]

theorem submissions_eq (h : r.Strategies s s') {events events' : List Event}
    (hevents : List.Forall₂ r.Events events events') :
    s'.submissions events' =
      (s.submissions events).map fun sent => (r.order sent.1, sent.2) := by
  induction hevents generalizing s s' with
  | nil => rfl
  | cons he _ ih =>
    have hrest := ih (h.read he)
    cases he with
    | report report => exact hrest
    | @bar bar bar' bars account =>
      have horders := (h.decisions bars account).orders_eq
      rw [← (s.readBar_eq_decisionOn bar account).2.1,
        ← (s'.readBar_eq_decisionOn bar' (r.account account)).2.1] at horders
      rw [Strategy.submissions, Strategy.submissions, hrest, horders, List.map_append, List.map_map]
      rfl

end Strategies

/-- Orders and bars that are counted on from later numbers. -/
def later (orders : UInt64) (bars : Int) : Relabelling where
  order id := ⟨id.number + orders⟩
  order_injective _ _ h :=
    congrArg OrderId.mk ((UInt64.add_left_inj orders).1 (OrderId.mk.inj h))
  shift := bars

end Relabelling

namespace Strategy

/-- A run under new names: every bar has the same outcome under them, the broker is sent the same
orders, the readings are the same, and so are the last state and the journal, but for the names of
orders, the numbers of bars and the dates, which are those of the new bars. -/
theorem relabelled_run (r : Relabelling) (settings : SoundSettings) (sizer : Sizer)
    (events events' : List Event) (relabelled : List.Forall₂ r.Events events events') :
    let s := start settings sizer
    let now := s.readAll events
    let now' := s.readAll events'
    (s.outcomes events').map (·.2) = (s.outcomes events).map (fun seen => r.outcome seen.2) ∧
      s.submissions events' = (s.submissions events).map (fun sent => (r.order sent.1, sent.2)) ∧
      now'.readings = now.readings ∧ r.States now.state now'.state ∧
      List.Forall₂ r.Entries now.journal.toList now'.journal.toList ∧
      now'.journal.toList.map JournalEntry.stamp =
        ((pricedFeed events').drop (settings.requiredBars - 1)).map Bar.stamp := by
  intro s now now'
  have hstart : r.Strategies s s := .start settings sizer
  have hnow : r.Strategies now now' := hstart.readAll relabelled
  exact ⟨hstart.outcomes_eq relabelled, hstart.submissions_eq relabelled, hnow.readings_eq,
    hnow.states, hnow.journals,
    congrArg MarketView.journalled (view_readAll_start settings sizer events')⟩

/-- A buy and a void bar, five bars later, on other days, and at a broker that counts its orders from
101 on. -/
theorem relabelled_run_later_buy :
    let r : Relabelling := .later 100 5
    let late (index : UInt64) (low close : Float) : Bar :=
      { Bar.quote index low close with
        date := ⟨2031, 12, 31, by decide⟩, opening := 7.0, high := Binary64.infinity false }
    let events : List Event := [.bar (.quote 0 90.0 100.0) (.ofOrder 1),
      .bar (.quote 1 90.0 100.0) (.ofOrder 1), .bar (.quote 2 90.0 Binary64.undefined) (.ofOrder 1),
      .bar (.quote 2 90.0 101.0) (.ofOrder 1), .report (.cancelled ⟨9⟩)]
    let events' : List Event := [.bar (late 5 90.0 100.0) (.ofOrder 101),
      .bar (late 6 90.0 100.0) (.ofOrder 101), .bar (late 7 95.0 Binary64.undefined) (.ofOrder 101),
      .bar (late 7 90.0 101.0) (.ofOrder 101), .report (.cancelled ⟨109⟩)]
    let s := start .brief SoundSettings.brief.riskBudget.sizer
    List.Forall₂ r.Events events events' ∧
      s.submissions events = [(⟨1⟩, ⟨.buy, 79⟩)] ∧ s.submissions events' = [(⟨101⟩, ⟨.buy, 79⟩)] ∧
      (s.readAll events).state.lastEntry = some 2 ∧
      r.States (s.readAll events).state (s.readAll events').state := by
  intro r late events events' s
  have hprice : ∀ (i j : UInt64), r.Moves i j → ∀ close : Float, close.isNaN = false →
      r.Bars (.quote i 90.0 close) (late j 90.0 close) := by
    intro i j moves close hclose
    have hnumbers : (90.0 : Float).isNaN = false ∧ (7.0 : Float).isNaN = false ∧
        (Binary64.infinity false).isNaN = false := by decide +kernel
    refine ⟨moves, ?_, fun _ => rfl, fun _ => rfl⟩
    simp only [Bar.isVoid, late, Bar.quote, hclose, hnumbers, Bool.or_false]
  have hvoid : r.Bars (.quote 2 90.0 Binary64.undefined) (late 7 95.0 Binary64.undefined) := by
    have hlacks : (Bar.quote 2 90.0 Binary64.undefined).isVoid = true := by decide +kernel
    refine ⟨by decide, by decide +kernel, fun h => ?_, fun _ => rfl⟩
    rw [hlacks] at h
    cases h
  have relabelled : List.Forall₂ r.Events events events' :=
    .cons (.bar (hprice 0 5 (by decide) 100.0 (by decide +kernel)) (.ofOrder 1)) <|
      .cons (.bar (hprice 1 6 (by decide) 100.0 (by decide +kernel)) (.ofOrder 1)) <|
      .cons (.bar hvoid (.ofOrder 1)) <|
      .cons (.bar (hprice 2 7 (by decide) 101.0 (by decide +kernel)) (.ofOrder 1)) <|
      .cons (.report (.cancelled ⟨9⟩)) .nil
  have hsent : s.submissions events = [(⟨1⟩, ⟨.buy, 79⟩)] := by decide +kernel
  have hlast : (s.readAll events).state.lastEntry = some 2 := by decide +kernel
  obtain ⟨-, hsubmissions, -, hstates, -, -⟩ :=
    relabelled_run r .brief SoundSettings.brief.riskBudget.sizer events events' relabelled
  rw [hsent] at hsubmissions
  exact ⟨relabelled, hsent, hsubmissions, hlast, hstates⟩

end Strategy
end TroughTrader
