import Mathlib.Data.List.Induction
import TroughTrader.Proofs.Market.Series
import TroughTrader.Proofs.Trade.Step

/-!
# The feed of a run

`feed` lists the bars of a run and leaves out what the broker answers and reports; `pricedFeed`
keeps those that lack no price. A `MarketView` is what a strategy knows of the market: its readings,
and the bars that its journal is about. A bar changes the view as `MarketView.push` says, whatever
phase the trade is in, and a report leaves it alone (`view_readBar` and `view_readReport`). So the
view after a run is one of the feed (`view_readAll`): the readings are the channel of the priced
bars, and the journal is about those of them that come late enough (`foldl_push_start`).
-/

namespace TroughTrader

open Market

def Event.bar? : Event → Option Bar
  | .bar b _ => some b
  | .report _ => none

def feed (events : List Event) : List Bar := events.filterMap Event.bar?

/-- The bars of a run that lack no price. -/
def pricedFeed (events : List Event) : List Bar := (feed events).filter fun bar => !bar.isVoid

/-- What a bar is known by. -/
def Bar.stamp (bar : Bar) : UInt64 × Date := (bar.index, bar.date)

def JournalEntry.stamp (entry : JournalEntry) : UInt64 × Date := (entry.barIndex, entry.date)

/-- What is known of the market, and of which bars the journal is. -/
structure MarketView where
  settings : SoundSettings
  readings : Array Reading
  journalled : List (UInt64 × Date)

namespace MarketView

def start (settings : SoundSettings) : MarketView := ⟨settings, #[], []⟩

def push (v : MarketView) (bar : Bar) : MarketView :=
  if bar.isVoid then v
  else
    { v with
      readings := v.settings.channel.push v.readings bar
      journalled :=
        if v.readings.size + 1 < v.settings.requiredBars then v.journalled
        else v.journalled ++ [bar.stamp] }

theorem foldl_push_start (settings : SoundSettings) (bars : List Bar) :
    bars.foldl push (start settings) =
      ⟨settings, settings.channel.readAll (bars.filter fun bar => !bar.isVoid),
        ((bars.filter fun bar => !bar.isVoid).drop (settings.requiredBars - 1)).map Bar.stamp⟩ := by
  induction bars using List.reverseRecOn with
  | nil => simp [start, Channel.readAll, Channel.updateAll]
  | append_singleton bars bar ih =>
    rw [List.foldl_append, ih, List.foldl_cons, List.foldl_nil, push, List.filter_append]
    by_cases hv : bar.isVoid = true
    · rw [if_pos hv, List.filter_cons_of_neg (by simpa using hv), List.filter_nil, List.append_nil]
    · rw [if_neg hv, List.filter_cons_of_pos (by simpa using hv), List.filter_nil,
        Channel.readAll_concat, Channel.size_readAll]
      -- The bars before the first one that is decided upon are one fewer than those required.
      by_cases hlt : (bars.filter fun bar => !bar.isVoid).length + 1 < settings.requiredBars
      · have hbefore : (bars.filter fun bar => !bar.isVoid).drop (settings.requiredBars - 1) = [] :=
          List.drop_eq_nil_of_le (by omega)
        have hafter : ((bars.filter fun bar => !bar.isVoid) ++ [bar]).drop
            (settings.requiredBars - 1) = [] := by
          apply List.drop_eq_nil_of_le
          rw [List.length_append, List.length_singleton]
          omega
        rw [if_pos hlt, hbefore, hafter]
      · rw [if_neg hlt, List.drop_append_of_le_length (by omega), List.map_append,
          List.map_singleton]

end MarketView

def Outcome.isDecided : Outcome → Bool
  | .void | .warmup => false
  | _ => true

theorem Decision.buy_cases (sizer : Sizer) (account : Account) (bottom : Bottom) :
    buy sizer account bottom = idle .entryRefused ∨
      ∃ order size, (buy sizer account bottom).outcome = .entrySubmitted order size := by
  by_cases hz : sizer.size bottom.close bottom.lowerEnvelope account.cash = 0
  · left
    simp only [buy, if_pos hz]
  · right
    simp only [buy, if_neg hz]
    exact ⟨_, _, rfl⟩

theorem Decision.isDecided_buy (sizer : Sizer) (account : Account) (bottom : Bottom) :
    (buy sizer account bottom).outcome.isDecided = true := by
  rcases buy_cases sizer account bottom with hrefused | ⟨order, size, hsent⟩
  · rw [hrefused]
    rfl
  · rw [hsent]
    rfl

theorem Decision.isDecided_ofBar (sizer : Sizer) (account : Account) (readings : Array Reading)
    (close : Float) (bottom : Option Bottom) (phase : Phase) :
    (ofBar sizer account readings close bottom phase).outcome.isDecided = true := by
  unfold ofBar
  cases phase with
  | pendingEntry order stake => rfl
  | pendingExit order stake => rfl
  | flat =>
    cases bottom with
    | none => rfl
    | some bottom => exact isDecided_buy sizer account bottom
  | long stake =>
    by_cases hgone : account.position = 0
    · simp only [if_pos hgone]
      cases bottom with
      | none => rfl
      | some bottom => exact isDecided_buy sizer account bottom
    · simp only [if_neg hgone]
      cases sellReason? readings close stake.stop <;> rfl

namespace Strategy

/-- The bar is void, or there are too few bars, or it is decided upon. -/
theorem outcome_cases (s : Strategy) (bar : Bar) (account : Account) :
    bar.isVoid = true ∧ (s.readBar bar account).outcome = .void ∨
      ¬ bar.isVoid = true ∧ s.readings.size + 1 < s.settings.requiredBars ∧
        (s.readBar bar account).outcome = .warmup ∨
      ¬ bar.isVoid = true ∧ s.settings.requiredBars ≤ s.readings.size + 1 ∧
        (s.readBar bar account).outcome.isDecided = true := by
  rw [(s.readBar_eq_decisionOn bar account).1, decisionOn]
  by_cases hv : bar.isVoid = true
  · rw [if_pos hv]
    exact Or.inl ⟨hv, rfl⟩
  rw [if_neg hv]
  by_cases hlt : s.readings.size + 1 < s.rule.requiredBars
  · rw [if_pos hlt]
    exact Or.inr (Or.inl ⟨hv, hlt, rfl⟩)
  · rw [if_neg hlt]
    exact Or.inr (Or.inr ⟨hv, Nat.not_lt.1 hlt, Decision.isDecided_ofBar _ _ _ _ _ _⟩)

theorem outcome_eq_void_iff (s : Strategy) (bar : Bar) (account : Account) :
    (s.readBar bar account).outcome = .void ↔ bar.isVoid = true := by
  rcases s.outcome_cases bar account with ⟨hv, ho⟩ | ⟨hv, -, ho⟩ | ⟨hv, -, ho⟩
  · simp [hv, ho]
  · simp [hv, ho]
  · refine ⟨fun h => ?_, fun h => absurd h hv⟩
    rw [h] at ho
    cases ho

theorem outcome_eq_warmup_iff (s : Strategy) (bar : Bar) (account : Account) :
    (s.readBar bar account).outcome = .warmup ↔
      ¬ bar.isVoid = true ∧ s.readings.size + 1 < s.settings.requiredBars := by
  rcases s.outcome_cases bar account with ⟨hv, ho⟩ | ⟨hv, hlt, ho⟩ | ⟨hv, hle, ho⟩
  · simp [hv, ho]
  · simp [hv, hlt, ho]
  · refine ⟨fun h => ?_, fun h => absurd h.2 (Nat.not_lt.2 hle)⟩
    rw [h] at ho
    cases ho

def view (s : Strategy) : MarketView :=
  ⟨s.settings, s.readings, s.journal.toList.map JournalEntry.stamp⟩

theorem view_start (settings : SoundSettings) (sizer : Sizer) :
    (start settings sizer).view = .start settings := rfl

theorem view_readReport (s : Strategy) (report : OrderReport) :
    (s.readReport report).view = s.view := rfl

theorem view_readBar (s : Strategy) (bar : Bar) (account : Account) :
    (s.readBar bar account).strategy.view = s.view.push bar := by
  unfold MarketView.push
  by_cases hv : bar.isVoid = true
  · rw [s.readBar_of_isVoid bar account hv, if_pos hv]
  · rw [if_neg hv]
    by_cases hlt : s.readings.size + 1 < s.settings.requiredBars
    · have hlt' : s.view.readings.size + 1 < s.view.settings.requiredBars := hlt
      rw [s.readBar_of_lt bar account hv hlt, if_pos hlt']
      rfl
    · have hlt' : ¬ s.view.readings.size + 1 < s.view.settings.requiredBars := hlt
      rw [s.readBar_of_le bar account hv (Nat.not_lt.1 hlt), if_neg hlt', view, Array.toList_push,
        List.map_append]
      rfl

theorem view_readAll (s : Strategy) (events : List Event) :
    (s.readAll events).view = (feed events).foldl MarketView.push s.view := by
  induction events generalizing s with
  | nil => rfl
  | cons e events ih =>
    have hrest := ih (s.read e)
    cases e with
    | bar bar account =>
      rw [read, view_readBar] at hrest
      exact hrest
    | report report =>
      rw [read, view_readReport] at hrest
      exact hrest

theorem view_readAll_start (settings : SoundSettings) (sizer : Sizer) (events : List Event) :
    ((start settings sizer).readAll events).view =
      ⟨settings, settings.channel.readAll (pricedFeed events),
        ((pricedFeed events).drop (settings.requiredBars - 1)).map Bar.stamp⟩ := by
  rw [view_readAll, view_start, MarketView.foldl_push_start]
  rfl

/-- There are enough bars as long as the trade is not flat: it leaves that phase only on a bar that
is decided upon. -/
theorem requiredBars_le_read (s : Strategy) (e : Event)
    (h : s.state.phase ≠ .flat → s.settings.requiredBars ≤ s.readings.size)
    (hafter : (s.read e).state.phase ≠ .flat) :
    s.settings.requiredBars ≤ (s.read e).readings.size := by
  cases e with
  | report report =>
    apply h
    intro hflat
    apply hafter
    rw [read, readReport, hflat]
    exact hflat
  | bar bar account =>
    rw [read] at hafter ⊢
    by_cases hv : bar.isVoid = true
    · rw [s.readBar_of_isVoid bar account hv] at hafter ⊢
      exact h hafter
    by_cases hlt : s.readings.size + 1 < s.rule.requiredBars
    · rw [s.readBar_of_lt bar account hv hlt] at hafter ⊢
      have hbefore := h hafter
      change s.settings.requiredBars ≤ (s.settings.channel.push s.readings bar).size
      rw [Channel.size_push]
      omega
    · rw [s.readBar_of_le bar account hv (Nat.not_lt.1 hlt)]
      change s.settings.requiredBars ≤ (s.settings.channel.push s.readings bar).size
      rw [Channel.size_push]
      exact Nat.not_lt.1 hlt

theorem requiredBars_le_readAll (settings : SoundSettings) (sizer : Sizer) (events : List Event)
    (h : ((start settings sizer).readAll events).state.phase ≠ .flat) :
    settings.requiredBars ≤ ((start settings sizer).readAll events).readings.size := by
  induction events using List.reverseRecOn with
  | nil => exact absurd rfl h
  | append_singleton events e ih =>
    have hread := requiredBars_le_read ((start settings sizer).readAll events) e
    rw [settings_readAll] at hread
    rw [readAll_append] at h ⊢
    exact hread ih h

theorem readings_readAll_start (settings : SoundSettings) (sizer : Sizer) (events : List Event) :
    ((start settings sizer).readAll events).readings =
      settings.channel.readAll (pricedFeed events) :=
  congrArg MarketView.readings (view_readAll_start settings sizer events)

end Strategy
end TroughTrader
