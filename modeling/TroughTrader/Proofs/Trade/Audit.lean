import TroughTrader.Proofs.Trade.Feed
import TroughTrader.Proofs.Trade.Idle
import TroughTrader.Proofs.Trade.Spacing

/-!
# The journal of a run

Every bar that is decided upon adds one entry to the journal, and nothing else does
(`Strategy.journal_read`). `JournalEntry.Audits` is what an entry says of the outcome of its bar,
next to the last entry before it; `Audited` says this of a whole journal, entry by entry. Because a
buy keeps the gap to the one before it, a change of the last entry shows a buy, and so the buys of a
run can be read off its journal (`Strategy.changes_entries`).
-/

namespace TroughTrader

open Market

/-- What a journal entry says of its bar and of the bar's outcome, where `last` is the last entry
before the bar. -/
structure JournalEntry.Audits (entry : JournalEntry) (last : Option UInt64) (bar : Bar)
    (outcome : Outcome) : Prop where
  stamp_eq : entry.stamp = bar.stamp
  entryPrice_iff : entry.entryPrice = none ↔ entry.stage = .flat
  stopPrice_iff : entry.stopPrice = none ↔ entry.stage = .flat
  changed_iff : entry.lastEntry ≠ last ↔ ∃ order size, outcome = .entrySubmitted order size
  of_entrySubmitted : ∀ order size, outcome = .entrySubmitted order size →
    entry.stage = .pendingEntry ∧ entry.wasBottom = true ∧ entry.lastEntry = some entry.barIndex
  of_entryRefused : outcome = .entryRefused → entry.wasBottom = true ∧ entry.stage = .flat
  of_reconciled : outcome = .reconciled → entry.wasBottom = false ∧ entry.stage = .flat

/-- A journal that says the truth of bars and their outcomes, from a first last entry on. -/
inductive Audited : Option UInt64 → List (Bar × Outcome) → List JournalEntry → Prop
  | done (last : Option UInt64) : Audited last [] []
  | next {last : Option UInt64} {bar : Bar} {outcome : Outcome} {entry : JournalEntry}
      {decided : List (Bar × Outcome)} {entries : List JournalEntry}
      (audits : entry.Audits last bar outcome) (later : Audited entry.lastEntry decided entries) :
      Audited last ((bar, outcome) :: decided) (entry :: entries)

/-- The last entries of a journal where they differ from those before them. -/
def changes : Option UInt64 → List JournalEntry → List (Option UInt64)
  | _, [] => []
  | last, entry :: entries =>
    if entry.lastEntry = last then changes last entries
    else entry.lastEntry :: changes entry.lastEntry entries

theorem Phase.map_stake?_eq_none_iff {α : Type} (phase : Phase) (f : Stake → α) :
    phase.stake?.map f = none ↔ phase.stage = .flat := by
  cases phase <;> simp [stake?, stage]

theorem BottomRule.isSome_bottom? {rule : BottomRule} {bar : Bar} {readings : Array Reading}
    {lastEntry : Option UInt64} {answers : BottomAnswers}
    (h : rule.answers? bar readings lastEntry = some answers) :
    (rule.bottom? bar readings lastEntry).isSome = answers.isBottom := by
  have hdips : answers.dips = dips bar.low readings := by
    unfold answers? at h
    split at h
    · cases h
    · cases h
      rfl
  rw [bottom?, h, Option.bind_eq_bind, Option.bind_some]
  by_cases hb : answers.isBottom = true
  · have hyes : dips bar.low readings = true := by
      unfold BottomAnswers.isBottom at hb
      rw [← hdips]
      grind
    unfold dips at hyes
    rw [if_pos hb, hb]
    cases hl : Channel.last? readings (·.lowerEnvelope) with
    | none => rw [hl] at hyes; cases hyes
    | some envelope => rfl
  · rw [if_neg hb, Bool.eq_false_iff.2 hb]
    rfl

theorem Decision.of_entryRefused {sizer : Sizer} {account : Account} {readings : Array Reading}
    {close : Float} {bottom : Option Bottom} {s : State}
    (h : (ofBar sizer account readings close bottom s.phase).outcome = .entryRefused) :
    bottom.isSome = true ∧
      (s.afterAll (ofBar sizer account readings close bottom s.phase).transitions).phase =
        .flat := by
  obtain ⟨phase, last⟩ := s
  cases phase with
  | pendingEntry order stake => cases h
  | pendingExit order stake => cases h
  | flat =>
    cases bottom with
    | none => cases h
    | some bottom =>
      simp only [ofBar] at h ⊢
      rcases buy_cases sizer account bottom with hrefused | ⟨order, size, hsent⟩
      · rw [hrefused]
        exact ⟨rfl, rfl⟩
      · rw [hsent] at h
        cases h
  | long stake =>
    by_cases hgone : account.position = 0
    · simp only [ofBar, if_pos hgone] at h ⊢
      cases bottom with
      | none => cases h
      | some bottom =>
        simp only [reconcile] at h ⊢
        rcases buy_cases sizer account bottom with hrefused | ⟨order, size, hsent⟩
        · rw [hrefused]
          exact ⟨rfl, rfl⟩
        · rw [hsent] at h
          cases h
    · simp only [ofBar, if_neg hgone] at h
      split at h <;> cases h

theorem Decision.of_reconciled {sizer : Sizer} {account : Account} {readings : Array Reading}
    {close : Float} {bottom : Option Bottom} {s : State}
    (h : (ofBar sizer account readings close bottom s.phase).outcome = .reconciled) :
    bottom = none ∧
      (s.afterAll (ofBar sizer account readings close bottom s.phase).transitions).phase =
        .flat := by
  have hbuy : ∀ bottom, (buy sizer account bottom).outcome ≠ .reconciled := by
    intro bottom
    rcases buy_cases sizer account bottom with hrefused | ⟨order, size, hsent⟩
    · rw [hrefused]
      simp [idle]
    · simp [hsent]
  obtain ⟨phase, last⟩ := s
  cases phase with
  | pendingEntry order stake => cases h
  | pendingExit order stake => cases h
  | flat =>
    cases bottom with
    | none => cases h
    | some bottom => exact absurd h (hbuy bottom)
  | long stake =>
    by_cases hgone : account.position = 0
    · simp only [ofBar, if_pos hgone] at h ⊢
      cases bottom with
      | none => exact ⟨rfl, rfl⟩
      | some bottom => exact absurd h (hbuy bottom)
    · simp only [ofBar, if_neg hgone] at h
      split at h <;> cases h

theorem BarMove.buys_cases {s : Strategy} {bar : Bar} {account : Account} {decision : Decision}
    {after : State} (move : BarMove s bar account decision after) :
    (∃ order size, decision.outcome = .entrySubmitted order size ∧
        after.phase.stage = .pendingEntry ∧ (s.bottomOn? bar).isSome = true ∧
        decision.orders = [⟨.buy, size⟩]) ∨
      (∀ order size, decision.outcome ≠ .entrySubmitted order size) ∧
        decision.orders.filter (·.side = .buy) = [] := by
  cases move with
  | idle idle =>
    refine Or.inr ⟨?_, rfl⟩
    rintro order size rfl
    cases idle
  | enter _ bottomOn _ => exact Or.inl ⟨_, _, rfl, rfl, by rw [bottomOn]; rfl, rfl⟩
  | exit _ _ => exact Or.inr ⟨fun _ _ h => (by cases h), rfl⟩
  | lost _ _ outcome_eq =>
    refine Or.inr ⟨?_, rfl⟩
    rintro order size h
    rcases outcome_eq with rfl | rfl <;> cases h
  | reenter _ _ bottomOn _ => exact Or.inl ⟨_, _, rfl, rfl, by rw [bottomOn]; rfl, rfl⟩

namespace Strategy

def added? (s : Strategy) : Event → Option JournalEntry
  | .bar bar account =>
    if (s.readBar bar account).outcome.isDecided then some (s.entryOn bar account) else none
  | .report _ => none

def entries (s : Strategy) : List Event → List JournalEntry
  | [] => []
  | e :: events => (s.added? e).toList ++ (s.read e).entries events

def decided (s : Strategy) (events : List Event) : List (Bar × Outcome) :=
  (s.outcomes events).filter fun seen => seen.2.isDecided

def buys (s : Strategy) : List Event → List (UInt64 × OrderRequest)
  | [] => []
  | .bar bar account :: events =>
    ((s.readBar bar account).orders.filter (·.side = .buy)).map (bar.index, ·) ++
      (s.read (.bar bar account)).buys events
  | .report report :: events => (s.readReport report).buys events

theorem journal_read (s : Strategy) (e : Event) :
    (s.read e).journal.toList = s.journal.toList ++ (s.added? e).toList := by
  cases e with
  | report report => simp [read, readReport, added?]
  | bar bar account =>
    rw [read, added?]
    rcases s.outcome_cases bar account with ⟨hv, ho⟩ | ⟨hv, hlt, ho⟩ | ⟨hv, hle, ho⟩
    · rw [ho, s.readBar_of_isVoid bar account hv]
      simp [Outcome.isDecided]
    · rw [ho, s.readBar_of_lt bar account hv hlt]
      simp [Outcome.isDecided]
    · rw [if_pos ho, s.readBar_of_le bar account hv hle, Array.toList_push]
      rfl

theorem journal_readAll (s : Strategy) (events : List Event) :
    (s.readAll events).journal.toList = s.journal.toList ++ s.entries events := by
  induction events generalizing s with
  | nil => exact (List.append_nil _).symm
  | cons e events ih =>
    have hrest := ih (s.read e)
    rw [journal_read, List.append_assoc] at hrest
    exact hrest

theorem isBottom_answersOn (s : Strategy) (bar : Bar)
    (h : s.settings.requiredBars ≤ s.readings.size + 1) :
    (s.answersOn bar).isBottom = (s.bottomOn? bar).isSome := by
  have hanswers := BottomRule.answers?_push s.rule s.settings.channel bar bar s.readings
    s.state.lastEntry h
  exact (BottomRule.isSome_bottom? hanswers).symm

/-- The last entry changes on a bar exactly if a buy is sent, since it would come too early if it
had the index of the last one. -/
theorem lastEntry_ne_iff (s : Strategy) (bar : Bar) (account : Account) :
    ((s.readBar bar account).strategy.state.lastEntry ≠ s.state.lastEntry ↔
        ∃ order size, (s.readBar bar account).outcome = .entrySubmitted order size) ∧
      ∀ order size, (s.readBar bar account).outcome = .entrySubmitted order size →
        (s.readBar bar account).strategy.state.lastEntry = some bar.index := by
  obtain ⟨hread, hgap⟩ := s.lastEntry_read (.bar bar account)
  rw [read] at hread
  by_cases hsent : ∃ order size, (s.readBar bar account).outcome = .entrySubmitted order size
  · have hindex : s.entryIndex? (.bar bar account) = some bar.index := by
      obtain ⟨order, size, ho⟩ := hsent
      rw [entryIndex?, ho]
    rw [hindex] at hread hgap
    refine ⟨iff_of_true ?_ hsent, fun _ _ _ => hread⟩
    intro hsame
    have hafter : IsAfter s.settings.minGap bar.index bar.index :=
      hgap _ rfl _ (hsame.symm.trans hread)
    unfold IsAfter at hafter
    omega
  · have hindex : s.entryIndex? (.bar bar account) = none := by
      rw [entryIndex?]
      split
      · exact absurd ⟨_, _, ‹_›⟩ hsent
      · rfl
    rw [hindex] at hread
    refine ⟨iff_of_false (fun hne => hne hread) hsent, ?_⟩
    intro order size ho
    exact absurd ⟨order, size, ho⟩ hsent

theorem lastEntry_entryOn (s : Strategy) (bar : Bar) (account : Account) :
    (s.entryOn bar account).lastEntry = (s.read (.bar bar account)).state.lastEntry := by
  rw [read, (s.readBar_eq_decisionOn bar account).2.2]
  rfl

theorem audits_entryOn (s : Strategy) {bar : Bar} {account : Account} (hv : ¬ bar.isVoid = true)
    (hle : s.settings.requiredBars ≤ s.readings.size + 1) :
    (s.entryOn bar account).Audits s.state.lastEntry bar (s.readBar bar account).outcome := by
  obtain ⟨houtcome, -, hstate⟩ := s.readBar_eq_decisionOn bar account
  have hbottom := s.isBottom_answersOn bar hle
  have hentry : s.entryOn bar account = .ofState bar.index bar.date
      (s.readBar bar account).strategy.state (s.bottomOn? bar).isSome := by
    rw [entryOn, hstate, hbottom]
  have hdecision : s.decisionOn bar account = .ofBar s.sizer account (s.readingsWith bar) bar.close
      (s.bottomOn? bar) s.state.phase := by
    rw [decisionOn, if_neg hv]
    exact if_neg (Nat.not_lt.2 hle)
  obtain ⟨hchanged, hindex⟩ := s.lastEntry_ne_iff bar account
  rw [hentry]
  refine ⟨rfl, Phase.map_stake?_eq_none_iff _ _, Phase.map_stake?_eq_none_iff _ _, hchanged, ?_, ?_,
    ?_⟩
  · intro order size ho
    rcases (s.barMove bar account).buys_cases with ⟨_, _, _, hstage, hsome, _⟩ | ⟨hnot, _⟩
    · exact ⟨hstage, hsome, hindex order size ho⟩
    · rw [houtcome] at ho
      exact absurd ho (hnot order size)
  · intro ho
    rw [houtcome, hdecision] at ho
    obtain ⟨hsome, hphase⟩ := Decision.of_entryRefused ho
    rw [← hdecision, ← hstate] at hphase
    exact ⟨hsome, congrArg Phase.stage hphase⟩
  · intro ho
    rw [houtcome, hdecision] at ho
    obtain ⟨hnone, hphase⟩ := Decision.of_reconciled ho
    rw [← hdecision, ← hstate] at hphase
    exact ⟨by rw [hnone]; rfl, congrArg Phase.stage hphase⟩

theorem audited_entries (s : Strategy) (events : List Event) :
    Audited s.state.lastEntry (s.decided events) (s.entries events) := by
  induction events generalizing s with
  | nil => exact .done _
  | cons e events ih =>
    have hrest := ih (s.read e)
    cases e with
    | report report =>
      have hlast := (s.reportMove report).lastEntry_after
      rw [read, hlast] at hrest
      exact hrest
    | bar bar account =>
      rw [entries, added?, decided, outcomes, List.filter_cons]
      rcases s.outcome_cases bar account with ⟨hv, ho⟩ | ⟨hv, hlt, ho⟩ | ⟨hv, hle, ho⟩
      · have hread : (s.read (.bar bar account)).state = s.state := by
          rw [s.read_of_isVoid account hv]
        rw [hread] at hrest
        rw [ho]
        exact hrest
      · have hread : (s.read (.bar bar account)).state = s.state := by
          rw [read, s.readBar_of_lt bar account hv hlt]
        rw [hread] at hrest
        rw [ho]
        exact hrest
      · rw [← lastEntry_entryOn] at hrest
        rw [if_pos ho, if_pos ho]
        exact .next (s.audits_entryOn hv hle) hrest

theorem buys_cons (s : Strategy) (e : Event) (events : List Event) :
    s.buys (e :: events) = s.buys [e] ++ (s.read e).buys events := by
  cases e with
  | report report => rfl
  | bar bar account => rw [buys, buys, buys, List.append_nil]

theorem map_buys (s : Strategy) (events : List Event) :
    (s.buys events).map (·.2) = (s.orders events).filter (·.side = .buy) := by
  induction events generalizing s with
  | nil => rfl
  | cons e events ih =>
    rw [buys_cons, orders_cons, List.map_append, List.filter_append, ih]
    cases e with
    | report report => rfl
    | bar bar account =>
      rw [buys, buys, List.append_nil, List.map_map, orders_singleton_bar,
        (s.readBar_eq_decisionOn bar account).2.1]
      congr 1
      exact List.map_id _

theorem changes_added (s : Strategy) (e : Event) (later : List JournalEntry) :
    changes s.state.lastEntry ((s.added? e).toList ++ later) =
      (s.buys [e]).map (fun buy => some buy.1) ++ changes (s.read e).state.lastEntry later := by
  cases e with
  | report report =>
    have hlast : (s.read (.report report)).state.lastEntry = s.state.lastEntry :=
      (s.reportMove report).lastEntry_after
    rw [hlast]
    rfl
  | bar bar account =>
    obtain ⟨houtcome, horders, -⟩ := s.readBar_eq_decisionOn bar account
    obtain ⟨hchanged, hindex⟩ := s.lastEntry_ne_iff bar account
    have hbuys : s.buys [.bar bar account] =
        ((s.decisionOn bar account).orders.filter (·.side = .buy)).map (bar.index, ·) := by
      rw [buys, buys, List.append_nil, horders]
    rw [added?, hbuys]
    -- A buy is decided upon and moves the last entry. Without one the entry, if any, repeats it.
    rcases (s.barMove bar account).buys_cases with ⟨order, size, ho, _, _, hbuy⟩ | ⟨hnot, hbuy⟩
    · rw [← houtcome] at ho
      have hdecided : (s.readBar bar account).outcome.isDecided = true := by rw [ho]; rfl
      have hne : (s.entryOn bar account).lastEntry ≠ s.state.lastEntry := by
        rw [lastEntry_entryOn]
        exact hchanged.2 ⟨order, size, ho⟩
      have hafter := hindex order size ho
      rw [if_pos hdecided, Option.toList_some, List.singleton_append, changes, if_neg hne, hbuy,
        lastEntry_entryOn, read, hafter]
      rfl
    · have hsame : (s.read (.bar bar account)).state.lastEntry = s.state.lastEntry := by
        by_contra hne
        obtain ⟨order, size, ho⟩ := hchanged.1 hne
        rw [houtcome] at ho
        exact hnot order size ho
      rw [hbuy, hsame]
      by_cases hdecided : (s.readBar bar account).outcome.isDecided = true
      · rw [if_pos hdecided, Option.toList_some, List.singleton_append, changes,
          if_pos ((s.lastEntry_entryOn bar account).trans hsame)]
        rfl
      · rw [if_neg hdecided]
        rfl

theorem changes_entries (s : Strategy) (events : List Event) :
    changes s.state.lastEntry (s.entries events) = (s.buys events).map fun buy => some buy.1 := by
  induction events generalizing s with
  | nil => rfl
  | cons e events ih =>
    rw [entries, changes_added, ih, s.buys_cons e events, List.map_append]

theorem journal_readAll_start (settings : SoundSettings) (sizer : Sizer) (events : List Event) :
    ((start settings sizer).readAll events).journal.toList =
      (start settings sizer).entries events :=
  journal_readAll _ _

/-- The journal has one entry for every priced bar that comes late enough, in order, and each says
the truth of its bar and outcome, next to the last entry of the one before it. Reports and void bars
leave it alone. The buys of the run are the changes of the last entry in it. -/
theorem journal_of_run (settings : SoundSettings) (sizer : Sizer) (events : List Event) :
    let s := start settings sizer
    let now := s.readAll events
    let journal := now.journal.toList
    let bars := pricedFeed events
    let before := settings.requiredBars - 1
    journal.length = bars.length - before ∧
      (∀ k, journal[k]?.map JournalEntry.stamp = bars[before + k]?.map Bar.stamp) ∧
      (∀ e, (∀ bar ∈ e.bar?, bar.isVoid = true) → (now.read e).journal = now.journal) ∧
      Audited none (s.decided events) journal ∧
      (s.buys events).map (·.2) = (s.orders events).filter (·.side = .buy) ∧
      changes none journal = (s.buys events).map fun buy => some buy.1 := by
  intro s now journal bars before
  have hjournal : journal = s.entries events := journal_readAll_start settings sizer events
  have hstamps : journal.map JournalEntry.stamp = (bars.drop before).map Bar.stamp :=
    congrArg MarketView.journalled (view_readAll_start settings sizer events)
  refine ⟨?_, ?_, ?_, ?_, s.map_buys events, ?_⟩
  · have hlength := congrArg List.length hstamps
    rwa [List.length_map, List.length_map, List.length_drop] at hlength
  · intro k
    have hk := congrArg (·[k]?) hstamps
    rwa [List.getElem?_map, List.getElem?_map, List.getElem?_drop] at hk
  · intro e hidle
    cases e with
    | report report => rfl
    | bar bar account => rw [now.read_of_isVoid account (hidle bar rfl)]
  · rw [hjournal]
    exact s.audited_entries events
  · rw [hjournal]
    exact s.changes_entries events

/-- A rejected buy and a second one, with void bars among the others: the journal shows both buys,
and one more void bar leaves it as it is. -/
theorem journal_of_run_two_buys :
    let events : List Event := [.bar (.quote 0 90 100) (.ofOrder 1),
      .bar (.quote 1 Binary64.undefined 100) (.ofOrder 1), .bar (.quote 1 90 100) (.ofOrder 1),
      .bar (.quote 2 90 101) (.ofOrder 1), .report (.rejected ⟨1⟩),
      .bar (.quote 3 90 100) (.ofOrder 2), .bar (.quote 4 90 102) (.ofOrder 2)]
    let now := (start .brief SoundSettings.brief.riskBudget.sizer).readAll events
    let e : Event := .bar (.quote 5 90 Binary64.undefined) (.ofOrder 3)
    (∀ bar ∈ e.bar?, bar.isVoid = true) ∧ (now.read e).journal = now.journal ∧
      now.journal.toList.length = 4 ∧ changes none now.journal.toList = [some 2, some 4] := by
  intro events now e
  obtain ⟨hlength, -, hidle, -, -, hchanges⟩ :=
    journal_of_run .brief SoundSettings.brief.riskBudget.sizer events
  have hvoid : ∀ bar ∈ e.bar?, bar.isVoid = true := by
    intro bar hbar
    obtain rfl : Bar.quote 5 90 Binary64.undefined = bar := Option.some.inj hbar
    decide +kernel
  have hcount : (pricedFeed events).length - (SoundSettings.brief.requiredBars - 1) = 4 := by
    decide +kernel
  have hbuys : ((start .brief SoundSettings.brief.riskBudget.sizer).buys events).map
      (fun buy => some buy.1) = [some 2, some 4] := by
    decide +kernel
  rw [hcount] at hlength
  rw [hbuys] at hchanges
  exact ⟨hvoid, hidle e hvoid, hlength, hchanges⟩

end Strategy
end TroughTrader
