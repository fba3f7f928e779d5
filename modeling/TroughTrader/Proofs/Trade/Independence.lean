import Mathlib.Data.List.Forall2
import TroughTrader.Proofs.Trade.Audit

/-!
# The market does not depend on the trade

`Strategy.encounters` lists the bars of a run, each with the strategy that reads it. What a bar
shows of the market (`SameMarket`) follows from the market view before it (`sameMarket_of_view_eq`):
the trade has a say only in the gap to its last entry. Since the views of a run are those of its
feed (`Strategy.map_view_encounters`), two runs over the same bars see the same market at every bar,
whatever their sizers buy and whatever their brokers answer and report.
-/

namespace TroughTrader

open Market

/-- A bar with the broker's answers, and the strategy that reads it. -/
structure Encounter where
  before : Strategy
  bar : Bar
  account : Account

namespace Encounter

def after (m : Encounter) : Strategy := (m.before.readBar m.bar m.account).strategy

def outcome (m : Encounter) : Outcome := (m.before.readBar m.bar m.account).outcome

def answers? (m : Encounter) : Option BottomAnswers :=
  if m.bar.isVoid then none
  else m.before.rule.answers? m.bar (m.before.readingsWith m.bar) m.before.state.lastEntry

def added? (m : Encounter) : Option JournalEntry := m.after.journal[m.before.journal.size]?

end Encounter

structure SameMarket (m₁ m₂ : Encounter) : Prop where
  bar_eq : m₁.bar = m₂.bar
  readings_eq : m₁.after.readings = m₂.after.readings
  void_iff : m₁.outcome = .void ↔ m₂.outcome = .void
  warmup_iff : m₁.outcome = .warmup ↔ m₂.outcome = .warmup
  stamps_eq : m₁.after.journal.toList.map JournalEntry.stamp =
    m₂.after.journal.toList.map JournalEntry.stamp
  dips_eq : m₁.answers?.map (·.dips) = m₂.answers?.map (·.dips)
  crossed_eq : m₁.answers?.map (·.crossed) = m₂.answers?.map (·.crossed)
  wasBottom_eq : m₁.before.state.lastEntry = m₂.before.state.lastEntry →
    m₁.added?.map (·.wasBottom) = m₂.added?.map (·.wasBottom)

namespace Encounter

theorem view_after (m : Encounter) : m.after.view = m.before.view.push m.bar :=
  m.before.view_readBar m.bar m.account

theorem added?_eq (m : Encounter) : m.added? = m.before.added? (.bar m.bar m.account) := by
  have hjournal : m.after.journal.toList = m.before.journal.toList ++
      (m.before.added? (.bar m.bar m.account)).toList :=
    m.before.journal_read (.bar m.bar m.account)
  rw [added?, ← Array.getElem?_toList, hjournal, List.getElem?_append_right (by simp)]
  cases m.before.added? (.bar m.bar m.account) <;> simp

theorem answers?_eq (m : Encounter) :
    m.answers? = if m.bar.isVoid = true ∨
        m.before.readings.size + 1 < m.before.settings.requiredBars then none
      else some (m.before.answersOn m.bar) := by
  unfold answers?
  by_cases hv : m.bar.isVoid = true
  · rw [if_pos hv, if_pos (Or.inl hv)]
  · rw [if_neg hv]
    by_cases hlt : m.before.readings.size + 1 < m.before.settings.requiredBars
    · rw [if_pos (Or.inr hlt)]
      exact BottomRule.answers?_push_of_lt _ _ _ _ _ _ hlt
    · rw [if_neg (not_or.2 ⟨hv, hlt⟩)]
      exact BottomRule.answers?_push _ _ _ _ _ _ (Nat.not_lt.1 hlt)

theorem map_wasBottom_added? (m : Encounter) :
    m.added?.map (·.wasBottom) = m.answers?.map (·.isBottom) := by
  rw [added?_eq, answers?_eq, Strategy.added?]
  rcases m.before.outcome_cases m.bar m.account with ⟨hv, ho⟩ | ⟨hv, hlt, ho⟩ | ⟨hv, hle, ho⟩
  · rw [if_pos (Or.inl hv), ho]
    rfl
  · rw [if_pos (Or.inr hlt), ho]
    rfl
  · rw [if_neg (not_or.2 ⟨hv, Nat.not_lt.2 hle⟩), if_pos ho]
    rfl

end Encounter

/-- Equal views give equal answers, except to the question about the gap. -/
theorem Strategy.answersOn_of_view_eq {s₁ s₂ : Strategy} (hview : s₁.view = s₂.view) (bar : Bar) :
    (s₁.answersOn bar).dips = (s₂.answersOn bar).dips ∧
      (s₁.answersOn bar).crossed = (s₂.answersOn bar).crossed ∧
      (s₁.state.lastEntry = s₂.state.lastEntry → s₁.answersOn bar = s₂.answersOn bar) := by
  have hsettings : s₁.settings = s₂.settings := congrArg MarketView.settings hview
  have hreadings : s₁.readings = s₂.readings := congrArg MarketView.readings hview
  have hwith : s₁.readingsWith bar = s₂.readingsWith bar := by
    rw [Strategy.readingsWith, Strategy.readingsWith, hsettings, hreadings]
  refine ⟨?_, ?_, fun hlast => ?_⟩
  · rw [Strategy.answersOn, Strategy.answersOn, hwith]
  · rw [Strategy.answersOn, Strategy.answersOn, hwith, Strategy.rule, Strategy.rule, hsettings]
  · rw [Strategy.answersOn, Strategy.answersOn, hwith, hlast, Strategy.rule, Strategy.rule,
      hsettings]

theorem map_answers?_of_view_eq {m₁ m₂ : Encounter} (hview : m₁.before.view = m₂.before.view)
    (hbar : m₁.bar = m₂.bar) {f : BottomAnswers → Bool}
    (h : f (m₁.before.answersOn m₁.bar) = f (m₂.before.answersOn m₂.bar)) :
    m₁.answers?.map f = m₂.answers?.map f := by
  have hsettings : m₁.before.settings = m₂.before.settings := congrArg MarketView.settings hview
  have hreadings : m₁.before.readings = m₂.before.readings := congrArg MarketView.readings hview
  rw [Encounter.answers?_eq, Encounter.answers?_eq, hsettings, hreadings, hbar]
  split
  · rfl
  · rw [Option.map_some, Option.map_some, ← h, hbar]

theorem sameMarket_of_view_eq {m₁ m₂ : Encounter} (hview : m₁.before.view = m₂.before.view)
    (hbar : m₁.bar = m₂.bar) : SameMarket m₁ m₂ := by
  have hafter : m₁.after.view = m₂.after.view := by
    rw [Encounter.view_after, Encounter.view_after, hview, hbar]
  obtain ⟨hdips, hcrossed, hanswers⟩ := Strategy.answersOn_of_view_eq hview m₁.bar
  constructor
  case bar_eq => exact hbar
  case readings_eq => exact congrArg MarketView.readings hafter
  case void_iff =>
    rw [Encounter.outcome, Encounter.outcome, Strategy.outcome_eq_void_iff,
      Strategy.outcome_eq_void_iff, hbar]
  case warmup_iff =>
    have hsettings : m₁.before.settings = m₂.before.settings := congrArg MarketView.settings hview
    have hreadings : m₁.before.readings = m₂.before.readings := congrArg MarketView.readings hview
    rw [Encounter.outcome, Encounter.outcome, Strategy.outcome_eq_warmup_iff,
      Strategy.outcome_eq_warmup_iff, hsettings, hreadings, hbar]
  case stamps_eq => exact congrArg MarketView.journalled hafter
  case dips_eq =>
    apply map_answers?_of_view_eq hview hbar
    rw [hdips, hbar]
  case crossed_eq =>
    apply map_answers?_of_view_eq hview hbar
    rw [hcrossed, hbar]
  case wasBottom_eq =>
    intro hlast
    rw [Encounter.map_wasBottom_added?, Encounter.map_wasBottom_added?]
    apply map_answers?_of_view_eq hview hbar
    rw [hanswers hlast, hbar]

def MarketView.walk (v : MarketView) : List Bar → List (MarketView × Bar)
  | [] => []
  | bar :: bars => (v, bar) :: (v.push bar).walk bars

namespace Strategy

def encounters (s : Strategy) : List Event → List Encounter
  | [] => []
  | .bar bar account :: events => ⟨s, bar, account⟩ :: (s.read (.bar bar account)).encounters events
  | .report report :: events => (s.readReport report).encounters events

theorem map_view_encounters (s : Strategy) (events : List Event) :
    (s.encounters events).map (fun m => (m.before.view, m.bar)) = s.view.walk (feed events) := by
  induction events generalizing s with
  | nil => rfl
  | cons e events ih =>
    have hrest := ih (s.read e)
    cases e with
    | report report => exact hrest
    | bar bar account =>
      have hview : (s.read (.bar bar account)).view = s.view.push bar := s.view_readBar bar account
      rw [hview] at hrest
      rw [encounters, List.map_cons, hrest]
      rfl

/-- Two runs over the same bars, whatever their sizers, their brokers' answers and the reports in
between, see the same market at every bar, and after the last one. -/
theorem sameMarket_of_feed_eq (settings : SoundSettings) (sizer₁ sizer₂ : Sizer)
    (events₁ events₂ : List Event) (sameBars : feed events₁ = feed events₂) :
    let s₁ := start settings sizer₁
    let s₂ := start settings sizer₂
    List.Forall₂ SameMarket (s₁.encounters events₁) (s₂.encounters events₂) ∧
      (s₁.readAll events₁).readings = (s₂.readAll events₂).readings ∧
      (s₁.readAll events₁).journal.toList.map JournalEntry.stamp =
        (s₂.readAll events₂).journal.toList.map JournalEntry.stamp := by
  intro s₁ s₂
  have hviews : (s₁.encounters events₁).map (fun m => (m.before.view, m.bar)) =
      (s₂.encounters events₂).map (fun m => (m.before.view, m.bar)) := by
    rw [map_view_encounters, map_view_encounters, sameBars]
    rfl
  have hlast : (s₁.readAll events₁).view = (s₂.readAll events₂).view := by
    rw [view_readAll, view_readAll, sameBars]
    rfl
  refine ⟨?_, congrArg MarketView.readings hlast, congrArg MarketView.journalled hlast⟩
  rw [← List.forall₂_eq_eq_eq, List.forall₂_map_left_iff, List.forall₂_map_right_iff] at hviews
  apply hviews.imp
  intro m₁ m₂ hm
  exact sameMarket_of_view_eq (congrArg Prod.fst hm) (congrArg Prod.snd hm)

/-- One run buys and is long. The other one has no use for the bottom and stays flat, and its broker
reports on an order that it never sent. They see the same market. -/
theorem sameMarket_of_feed_eq_refused_buy :
    let s₁ := start .brief SoundSettings.brief.riskBudget.sizer
    let s₂ := start .brief ⟨"none", fun _ _ _ => 0⟩
    let events₁ : List Event := [.bar (.quote 0 90 100) (.ofOrder 1),
      .bar (.quote 1 90 100) (.ofOrder 1), .bar (.quote 2 90 101) (.ofOrder 1),
      .report (.completed ⟨1⟩ 101 79), .bar (.quote 3 90 102) ⟨10000.0, 79, ⟨2⟩⟩]
    let events₂ : List Event := [.bar (.quote 0 90 100) (.ofOrder 8), .report (.cancelled ⟨5⟩),
      .bar (.quote 1 90 100) (.ofOrder 8), .bar (.quote 2 90 101) (.ofOrder 9),
      .bar (.quote 3 90 102) (.ofOrder 9)]
    feed events₁ = feed events₂ ∧ (s₁.readAll events₁).state.phase.stage = .long ∧
      (s₂.readAll events₂).state.phase.stage = .flat ∧
      (s₁.readAll events₁).state.lastEntry ≠ (s₂.readAll events₂).state.lastEntry ∧
      List.Forall₂ SameMarket (s₁.encounters events₁) (s₂.encounters events₂) ∧
      (s₁.readAll events₁).readings = (s₂.readAll events₂).readings := by
  intro s₁ s₂ events₁ events₂
  have sameBars : feed events₁ = feed events₂ := rfl
  have hlong : (s₁.readAll events₁).state.phase.stage = .long := by decide +kernel
  have hflat : (s₂.readAll events₂).state.phase.stage = .flat := by decide +kernel
  have hlast : (s₁.readAll events₁).state.lastEntry ≠ (s₂.readAll events₂).state.lastEntry := by
    decide +kernel
  obtain ⟨hmarket, hreadings, -⟩ :=
    sameMarket_of_feed_eq .brief s₁.sizer s₂.sizer events₁ events₂ sameBars
  exact ⟨sameBars, hlong, hflat, hlast, hmarket, hreadings⟩

end Strategy
end TroughTrader
