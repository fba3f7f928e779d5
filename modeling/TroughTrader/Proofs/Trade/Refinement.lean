import TroughTrader.Proofs.Trade.Readings
import TroughTrader.Proofs.Trade.Step

/-!
# The strategy refines the trade that starts over

A strategy refines a `Batch` whose bars it has read (`Refines`). Both then see the same bottoms
(`bottomOn?_eq`) and set the same stops (`boughtStop_eq`), so that a result of the batch shows the
decision of the strategy (`decide_shows`). One step of the strategy is one step of the batch
(`read?_eq`), and so is a run (`observeAll?_eq`).
-/

namespace TroughTrader

open Market

/-- The strategy has read the bars of the batch, and both are in the same state. -/
structure Refines (s : Strategy) (m : Batch) : Prop where
  readings_eq : s.readings = s.settings.channel.readAll m.bars
  not_isVoid : ∀ bar ∈ m.bars, bar.isVoid = false
  state_eq : s.state = m.state

namespace Refines

variable {s : Strategy} {m : Batch}

theorem start (settings : SoundSettings) (sizer : Sizer) :
    Refines (Strategy.start settings sizer) Batch.start := by
  refine ⟨rfl, ?_, rfl⟩
  intro bar hbar
  cases hbar

theorem phase_eq (h : Refines s m) : s.state.phase = m.phase := by rw [h.state_eq]; rfl

theorem lastEntry_eq (h : Refines s m) : s.state.lastEntry = m.lastEntry := by
  rw [h.state_eq]
  rfl

theorem readingsWith_eq (h : Refines s m) (bar : Bar) :
    s.readingsWith bar = s.settings.channel.readAll (m.bars ++ [bar]) := by
  rw [Channel.readAll_concat, ← h.readings_eq]
  rfl

theorem size_eq (h : Refines s m) : s.readings.size = m.bars.length := by
  rw [h.readings_eq, Channel.size_readAll]

theorem series_eq (h : Refines s m) (bar : Bar) :
    s.settings.lowerEnvelope.series? (m.bars ++ [bar]) =
      .ok (.ofReadings (s.readingsWith bar)) := by
  rw [s.settings.series?_eq_readAll, h.readingsWith_eq]

theorem bottomOn?_eq (h : Refines s m) (bar : Bar)
    (henough : s.rule.requiredBars ≤ s.readings.size + 1) (phase : Phase) :
    s.bottomOn? bar =
      if Batch.fires s.settings ⟨m.bars ++ [bar], phase, m.lastEntry⟩
          (Series.ofReadings (s.readingsWith bar)) bar then
        some ⟨bar.index, bar.date, bar.close, bar.low,
          (Series.ofReadings (s.readingsWith bar)).lastEnvelope⟩
      else none := by
  have hspaced : BottomRule.isSpaced s.rule.minGap bar.index s.state.lastEntry =
      m.lastEntry.all fun last => last.toNat + s.settings.minGap.toNat < bar.index.toNat := by
    rw [h.lastEntry_eq]
    cases m.lastEntry <;> rfl
  have hfires : Batch.fires s.settings ⟨m.bars ++ [bar], phase, m.lastEntry⟩
      (Series.ofReadings (s.readingsWith bar)) bar =
        (BottomRule.dips bar.low (s.readingsWith bar) &&
          BottomRule.crossedAbove s.rule.confirmBars (s.readingsWith bar) &&
          BottomRule.isSpaced s.rule.minGap bar.index s.state.lastEntry) := by
    have hsize : (s.readingsWith bar).size = (m.bars ++ [bar]).length := by
      rw [h.readingsWith_eq, Channel.size_readAll]
    rw [hspaced, BottomRule.crossedAbove_eq, hsize, Strategy.readingsWith, BottomRule.dips_push]
    rfl
  have hbottom := BottomRule.bottom?_push s.rule s.settings.channel bar bar s.readings
    s.state.lastEntry henough
  rw [hfires, Strategy.bottomOn?, Strategy.readingsWith, hbottom]
  by_cases hb : (BottomRule.dips bar.low (s.settings.channel.push s.readings bar) &&
      BottomRule.crossedAbove s.rule.confirmBars (s.settings.channel.push s.readings bar) &&
      BottomRule.isSpaced s.rule.minGap bar.index s.state.lastEntry) = true
  · rw [if_pos hb, if_pos hb, Channel.last?_push, Series.lastEnvelope_push]
    have hdips : BottomRule.dips bar.low (s.settings.channel.push s.readings bar) = true := by
      grind
    -- An undefined envelope fails the dip, so a bottom always has one to be bought with.
    have hdefined : ¬ (s.settings.channel.reading s.readings bar).lowerEnvelope.isNaN = true := by
      intro hnan
      rw [BottomRule.dips, Channel.last?_push, Binary64.defined?, if_pos hnan] at hdips
      cases hdips
    rw [Binary64.defined?, if_neg hdefined]
    rfl
  · rw [if_neg hb, if_neg hb]

theorem boughtStop_eq (h : Refines s m) (provisional : Float) :
    m.boughtStop (Series.ofReadings s.readings) provisional =
      (Decision.lastStop? s.readings).getD provisional := by
  rcases List.eq_nil_or_concat m.bars with hnil | ⟨bars, bar, hconcat⟩
  · rw [Batch.boughtStop, h.readings_eq, hnil]
    rfl
  · rw [List.concat_eq_append] at hconcat
    have hlow : Binary64.defined? bar.low = some bar.low :=
      Bar.defined?_low (h.not_isVoid bar (by simp [hconcat]))
    have hlast : m.bars.getLast? = some bar := by simp [hconcat]
    rw [h.readings_eq, hconcat, Channel.readAll_concat, Batch.boughtStop, hlast,
      Series.lastEnvelope_push, Decision.lastStop?, Channel.last?_push, Channel.last?_push,
      Channel.low_reading, hlow, Binary64.defined?]
    by_cases hnan : (s.settings.channel.reading (s.settings.channel.readAll bars)
        bar).lowerEnvelope.isNaN = true
    · simp only [if_pos hnan]
      rfl
    · simp only [if_neg hnan]
      rfl

end Refines

theorem Decision.leftSize_eq (report : OrderReport) (held : UInt64) :
    leftSize report held = if report.status = .completed then 0
      else UInt64.ofNat (held.toNat - report.filledSize.toNat) := by
  unfold leftSize
  by_cases hc : report.status = .completed
  · rw [if_pos (Or.inl hc), if_pos hc]
  · rw [if_neg hc]
    by_cases hle : held ≤ report.filledSize
    · have hsub := Nat.sub_eq_zero_of_le (UInt64.le_iff_toNat_le.1 hle)
      rw [if_pos (Or.inr hle), hsub]
      rfl
    · have hsub := UInt64.toNat_sub_of_le _ _ (UInt64.le_of_lt (UInt64.not_le.1 hle))
      rw [if_neg (not_or.2 ⟨hc, hle⟩), ← hsub, UInt64.ofNat_toNat]

theorem Decision.ofReport_of_ignored (readings : Array Reading) (report : OrderReport)
    (phase : Phase)
    (h : ¬ (phase.order? = some report.order ∧ (!report.status.isOpen) = true)) :
    Decision.ofReport readings report phase = [] := by
  cases phase with
  | flat => rfl
  | long stake => rfl
  | pendingEntry order stake =>
    have hother : ¬ (report.order = order ∧ (!report.status.isOpen) = true) := by
      rintro ⟨rfl, hclosed⟩
      exact h ⟨rfl, hclosed⟩
    rw [Decision.ofReport, if_neg hother]
  | pendingExit order stake =>
    have hother : ¬ (report.order = order ∧ (!report.status.isOpen) = true) := by
      rintro ⟨rfl, hclosed⟩
      exact h ⟨rfl, hclosed⟩
    rw [Decision.ofReport, if_neg hother]

/-- A result over some bars that shows a decision which is made in some state. -/
structure Batch.Result.Shows (result : Batch.Result) (bars : List Bar) (state : State)
    (decision : Decision) : Prop where
  bars_eq : result.after.bars = bars
  state_eq : result.after.state = state.afterAll decision.transitions
  observed_eq : result.observed = ⟨decision.outcome, decision.orders, result.after.state⟩

def Decision.buyOr (sizer : Sizer) (account : Account) (otherwise : Outcome) :
    Option Bottom → Decision
  | none => .idle otherwise
  | some bottom => .buy sizer account bottom

theorem Decision.reconcile_eq (sizer : Sizer) (account : Account) (bottom : Option Bottom) :
    Decision.reconcile sizer account bottom =
      { Decision.buyOr sizer account .reconciled bottom with
        transitions := .closed :: (Decision.buyOr sizer account .reconciled bottom).transitions } := by
  cases bottom <;> rfl

namespace Refines

variable {s : Strategy} {m : Batch}

theorem enter_shows (h : Refines s m) (bar : Bar) (account : Account)
    (henough : s.rule.requiredBars ≤ s.readings.size + 1) (otherwise : Outcome) :
    (Batch.enter s.settings s.sizer ⟨m.bars ++ [bar], .flat, m.lastEntry⟩
        (Series.ofReadings (s.readingsWith bar)) bar account otherwise).Shows (m.bars ++ [bar])
      ⟨.flat, m.lastEntry⟩ (.buyOr s.sizer account otherwise (s.bottomOn? bar)) := by
  rw [h.bottomOn?_eq bar henough .flat]
  unfold Batch.enter
  by_cases hfires : Batch.fires s.settings ⟨m.bars ++ [bar], .flat, m.lastEntry⟩
      (Series.ofReadings (s.readingsWith bar)) bar = true
  · rw [if_pos hfires, if_pos hfires, Decision.buyOr, Decision.buy]
    by_cases hsize : s.sizer.size bar.close
        (Series.ofReadings (s.readingsWith bar)).lastEnvelope account.cash = 0
    · simp only [hsize]
      exact ⟨rfl, rfl, rfl⟩
    · have hpos : 0 < s.sizer.size bar.close
          (Series.ofReadings (s.readingsWith bar)).lastEnvelope account.cash :=
        UInt64.pos_iff_ne_zero.2 hsize
      simp only [if_neg hsize, if_pos hpos]
      exact ⟨rfl, rfl, rfl⟩
  · rw [if_neg hfires, if_neg hfires]
    exact ⟨rfl, rfl, rfl⟩

theorem decide_shows (h : Refines s m) (bar : Bar) (account : Account)
    (henough : s.rule.requiredBars ≤ s.readings.size + 1) :
    (Batch.decide s.settings s.sizer ⟨m.bars ++ [bar], m.phase, m.lastEntry⟩
        (Series.ofReadings (s.readingsWith bar)) bar account).Shows (m.bars ++ [bar])
      m.state (.ofBar s.sizer account (s.readingsWith bar) bar.close (s.bottomOn? bar) m.phase) := by
  obtain ⟨bars, phase, lastEntry⟩ := m
  cases phase with
  | pendingEntry order stake => exact ⟨rfl, rfl, rfl⟩
  | pendingExit order stake => exact ⟨rfl, rfl, rfl⟩
  | flat =>
    have hofBar : Decision.ofBar s.sizer account (s.readingsWith bar) bar.close (s.bottomOn? bar)
        .flat = .buyOr s.sizer account .hold (s.bottomOn? bar) := by
      cases s.bottomOn? bar <;> rfl
    rw [hofBar]
    exact h.enter_shows bar account henough .hold
  | long stake =>
    unfold Batch.decide Decision.ofBar
    by_cases hgone : account.position = 0
    · have henter := h.enter_shows bar account henough .reconciled
      simp only [if_pos hgone]
      rw [Decision.reconcile_eq]
      exact ⟨henter.bars_eq, henter.state_eq, henter.observed_eq⟩
    · simp only [if_neg hgone]
      rw [Strategy.readingsWith, Decision.sellReason?_push]
      by_cases hdown : 0.0 < (Series.ofReadings
          (s.settings.channel.push s.readings bar)).lastDown
      · rw [if_pos hdown, if_pos hdown]
        exact ⟨rfl, rfl, rfl⟩
      · rw [if_neg hdown, if_neg hdown]
        by_cases hstop : bar.close ≤ stake.stop
        · rw [if_pos hstop, if_pos hstop]
          exact ⟨rfl, rfl, rfl⟩
        · rw [if_neg hstop, if_neg hstop]
          exact ⟨rfl, rfl, rfl⟩

theorem readBar?_of_not_isVoid (h : Refines s m) (bar : Bar) (account : Account)
    (hv : ¬ bar.isVoid = true) :
    m.readBar? s.settings s.sizer bar account = .ok
      (if s.readings.size + 1 < s.rule.requiredBars then
        Batch.become ⟨m.bars ++ [bar], m.phase, m.lastEntry⟩ .warmup []
      else Batch.decide s.settings s.sizer ⟨m.bars ++ [bar], m.phase, m.lastEntry⟩
        (Series.ofReadings (s.readingsWith bar)) bar account) := by
  unfold Batch.readBar?
  simp only [if_neg hv, h.series_eq, h.size_eq, List.length_append, List.length_singleton]
  rfl

theorem not_isVoid_concat (h : Refines s m) {bar : Bar} (hv : ¬ bar.isVoid = true) :
    ∀ b ∈ m.bars ++ [bar], b.isVoid = false := by
  intro b hb
  rcases List.mem_append.1 hb with hb | hb
  · exact h.not_isVoid b hb
  · rw [List.mem_singleton.1 hb]
    exact Bool.eq_false_iff.2 hv

/-- A result that shows the decision on a bar is the step of the strategy. -/
theorem of_shows (h : Refines s m) {bar : Bar} {account : Account} {result : Batch.Result}
    (hv : ¬ bar.isVoid = true) (henough : s.rule.requiredBars ≤ s.readings.size + 1)
    (hshows : result.Shows (m.bars ++ [bar]) s.state (s.decisionOn bar account)) :
    result.observed = s.observe (.bar bar account) ∧
      Refines (s.read (.bar bar account)) result.after := by
  have hread := s.readBar_of_le bar account hv henough
  rw [Strategy.observe, Strategy.read, hread]
  refine ⟨?_, ?_, ?_, ?_⟩
  · rw [← hshows.state_eq]
    exact hshows.observed_eq
  · rw [hshows.bars_eq]
    exact h.readingsWith_eq bar
  · rw [hshows.bars_eq]
    exact h.not_isVoid_concat hv
  · exact hshows.state_eq.symm

theorem readBar?_eq (h : Refines s m) (bar : Bar) (account : Account) :
    ∃ after, m.readBar? s.settings s.sizer bar account =
        .ok ⟨after, s.observe (.bar bar account)⟩ ∧
      Refines (s.read (.bar bar account)) after := by
  by_cases hv : bar.isVoid = true
  · have hread := s.readBar_of_isVoid bar account hv
    refine ⟨m, ?_, ?_⟩
    · rw [Batch.readBar?, if_pos hv, Strategy.observe, hread, h.state_eq]
      rfl
    · rw [Strategy.read, hread]
      exact h
  · rw [h.readBar?_of_not_isVoid bar account hv]
    by_cases hlt : s.readings.size + 1 < s.rule.requiredBars
    · have hread := s.readBar_of_lt bar account hv hlt
      refine ⟨{ m with bars := m.bars ++ [bar] }, ?_, ?_⟩
      · rw [if_pos hlt, Strategy.observe, hread, h.state_eq]
        rfl
      · rw [Strategy.read, hread]
        exact ⟨h.readingsWith_eq bar, h.not_isVoid_concat hv, h.state_eq⟩
    · have henough := Nat.not_lt.1 hlt
      have hdecision : s.decisionOn bar account = .ofBar s.sizer account (s.readingsWith bar)
          bar.close (s.bottomOn? bar) m.phase := by
        rw [Strategy.decisionOn, if_neg hv, if_neg hlt, h.phase_eq]
      have hshows := h.decide_shows bar account henough
      rw [← hdecision, ← h.state_eq] at hshows
      obtain ⟨hobserved, hafter⟩ := h.of_shows hv henough hshows
      rw [if_neg hlt, ← hobserved]
      exact ⟨_, rfl, hafter⟩

theorem phaseAfter_eq (h : Refines s m) (report : OrderReport)
    (horder : m.phase.order? = some report.order) (hclosed : (!report.status.isOpen) = true) :
    s.state.afterAll (Decision.ofReport s.readings report s.state.phase) =
      ⟨m.phaseAfter (Series.ofReadings s.readings) report, m.lastEntry⟩ := by
  rw [h.state_eq]
  unfold Batch.phaseAfter
  cases hp : m.phase with
  | flat => rw [hp] at horder; cases horder
  | long stake => rw [hp] at horder; cases horder
  | pendingEntry order stake =>
    rw [hp] at horder
    cases horder
    have hbought : (if report.status = .completed ∧ report.filledSize = 0 then stake.size
        else report.filledSize) = Decision.boughtSize report stake.size := rfl
    simp only [Batch.state, hp, Decision.ofReport, true_and, if_pos hclosed, Decision.endOfBuy,
      h.boughtStop_eq, hbought]
    by_cases hsize : Decision.boughtSize report stake.size = 0
    · simp only [if_pos hsize]
      rfl
    · simp only [if_neg hsize]
      rfl
  | pendingExit order stake =>
    rw [hp] at horder
    cases horder
    simp only [Batch.state, hp, Decision.ofReport, true_and, if_pos hclosed, Decision.endOfSell,
      ← Decision.leftSize_eq]
    by_cases hleft : Decision.leftSize report stake.size = 0
    · simp only [if_pos hleft]
      rfl
    · simp only [if_neg hleft]
      rfl

theorem readReport?_eq (h : Refines s m) (report : OrderReport) :
    ∃ after, m.readReport? s.settings report = .ok ⟨after, s.observe (.report report)⟩ ∧
      Refines (s.read (.report report)) after := by
  have hseries : s.settings.lowerEnvelope.series? m.bars = .ok (.ofReadings s.readings) := by
    rw [s.settings.series?_eq_readAll, h.readings_eq]
  unfold Batch.readReport?
  rw [hseries]
  by_cases hends : m.phase.order? = some report.order ∧ (!report.status.isOpen) = true
  · have hphase := h.phaseAfter_eq report hends.1 hends.2
    refine ⟨{ m with phase := m.phaseAfter (Series.ofReadings s.readings) report }, ?_, ?_⟩
    · rw [Strategy.observe, Strategy.readReport, hphase]
      simp only [if_pos hends]
      rfl
    · exact ⟨h.readings_eq, h.not_isVoid, hphase⟩
  · have hnone : Decision.ofReport s.readings report s.state.phase = [] :=
      Decision.ofReport_of_ignored _ _ _ (by rwa [h.phase_eq])
    have hstate : (s.readReport report).state = m.state := by
      rw [Strategy.readReport, hnone]
      exact h.state_eq
    refine ⟨m, ?_, ?_⟩
    · rw [Strategy.observe, hstate]
      simp only [if_neg hends]
      rfl
    · exact ⟨h.readings_eq, h.not_isVoid, hstate⟩

theorem read?_eq (h : Refines s m) (e : Event) :
    ∃ after, m.read? s.settings s.sizer e = .ok ⟨after, s.observe e⟩ ∧ Refines (s.read e) after := by
  cases e with
  | bar bar account => exact h.readBar?_eq bar account
  | report report => exact h.readReport?_eq report

/-- A run of the strategy is a run of the batch. -/
theorem observeAll?_eq (h : Refines s m) (events : List Event) :
    m.observeAll? s.settings s.sizer events = .ok (s.observeAll events) := by
  induction events generalizing s m with
  | nil => rfl
  | cons e events ih =>
    obtain ⟨after, hread, hafter⟩ := h.read?_eq e
    have hrest := ih hafter
    rw [s.settings_read, s.sizer_read] at hrest
    rw [Batch.observeAll?, hread]
    change (after.observeAll? s.settings s.sizer events >>= fun rest =>
      pure (s.observe e :: rest)) = _
    rw [hrest]
    rfl

end Refines

/-- The strategy does on every run what the trade does that starts over on every bar. -/
theorem Strategy.observeAll_eq_batch (settings : SoundSettings) (sizer : Sizer)
    (events : List Event) :
    Batch.start.observeAll? settings sizer events =
      .ok ((Strategy.start settings sizer).observeAll events) :=
  (Refines.start settings sizer).observeAll?_eq events

end TroughTrader
