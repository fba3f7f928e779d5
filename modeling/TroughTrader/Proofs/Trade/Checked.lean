import TroughTrader.Proofs.Market.Agreement
import TroughTrader.Proofs.Market.Checked
import TroughTrader.Proofs.Settings.Ranges
import TroughTrader.Proofs.Trade.Batch
import TroughTrader.Proofs.Trade.Feed

/-!
# A strategy on checked counts

`CheckedStrategy.make?` builds a strategy step by step and stops at the first step that refuses: a
setting out of range, an assertion of one of the makers, or a sum of counts that is too large. Once
the settings have passed, none of the makers refuses (`make?_eq`). Its runs keep the series of the
channel as columns and can fail at every count and at every position, but they do not: after each
event they are at the columns of the strategy's readings (`readBar?_ofStrategy`), as long as the
bars are fewer than a count can say.
-/

namespace TroughTrader

open Market

inductive Refusal where
  | invalid (fault : SettingsFault)
  | assertion (precondition : Precondition)
  | mishap (mishap : Mishap)

namespace Settings

def validate? (s : Settings) : Except Refusal Unit :=
  match SettingsFault.all.find? s.refuses with
  | some fault => .error (.invalid fault)
  | none => .ok ()

theorem validate?_eq (s : Settings) :
    s.validate? = match s.fault? with
      | some fault => .error (.invalid fault)
      | none => .ok () := by
  rw [validate?, fault?, funext s.refuses_eq]

end Settings

structure Settings.PassesMakers (s : Settings) : Prop where
  channel : ∃ c, Channel.make? s.cycleLength s.envelopePct = .ok c
  movingAverage : ∃ a, MovingAverage.make? s.cycleLength = .ok a
  lowerEnvelope : ∃ e, LowerEnvelope.make? s.cycleLength s.envelopePct = .ok e
  riskBudget : ∃ b, RiskBudget.make? s.riskPct s.maxRiskPct s.smallSize = .ok b

namespace SoundSettings

theorem make?_eq_riskBudget (s : SoundSettings) :
    RiskBudget.make? s.riskPct s.maxRiskPct s.smallSize = .ok s.riskBudget := by
  have hrisk : Settings.isRiskPct s.riskPct = true := s.isInRange .riskPct
  have hmax : Settings.isRiskPct s.maxRiskPct = true := s.isInRange .maxRiskPct
  rw [RiskBudget.make?, dif_pos hrisk, dif_pos hmax]
  rfl

theorem passesMakers (s : SoundSettings) : s.toSettings.PassesMakers := by
  have hpct : isEnvelopePct s.envelopePct = true := s.isInRange .envelopePct
  have haverage : MovingAverage.make? s.cycleLength = .ok s.movingAverage := by
    rw [MovingAverage.make?, dif_pos s.one_le_cycleLength]
    rfl
  refine ⟨⟨_, s.make?_eq_channel⟩, ⟨_, haverage⟩, ⟨s.lowerEnvelope, ?_⟩, ⟨_, s.make?_eq_riskBudget⟩⟩
  rw [LowerEnvelope.make?, dif_pos hpct, haverage]
  rfl

end SoundSettings

structure CheckedStrategy where
  period : UInt64
  factor : Float
  rule : CheckedRule
  sizer : Sizer
  columns : Columns
  state : State
  journal : Array JournalEntry

namespace CheckedStrategy

/-- A strategy with the risk budget of its settings. The settings are looked at before the budget is
made, and again before the rest is. -/
def make? (s : Settings) : Except Refusal CheckedStrategy := do
  s.validate?
  let budget ← (RiskBudget.make? s.riskPct s.maxRiskPct s.smallSize).mapError .assertion
  s.validate?
  let channel ← (Channel.make? s.cycleLength s.envelopePct).mapError .assertion
  let rule ← (CheckedRule.make? s).mapError .mishap
  return {
    period := s.cycleLength
    factor := channel.factor
    rule
    sizer := budget.sizer
    columns := .ofReadings #[]
    state := .initial
    journal := #[] }

structure Result where
  after : CheckedStrategy
  observed : Observed

def readBar? (m : CheckedStrategy) (bar : Bar) (account : Account) : Except Mishap Result := do
  if bar.isVoid then return ⟨m, ⟨some .void, [], m.state⟩⟩
  else
    let columns ← m.columns.push? m.period m.factor bar
    match ← m.rule.answers? bar columns m.state.lastEntry with
    | none => return ⟨{ m with columns }, ⟨some .warmup, [], m.state⟩⟩
    | some answers =>
      let bottom ← m.rule.bottom? bar columns m.state.lastEntry
      let rows ← columns.rows?
      let decision := Decision.ofBar m.sizer account rows bar.close bottom m.state.phase
      let state := m.state.afterAll decision.transitions
      let entry := JournalEntry.ofState bar.index bar.date state answers.isBottom
      return ⟨{ m with columns, state, journal := m.journal.push entry },
        ⟨some decision.outcome, decision.orders, state⟩⟩

def readReport? (m : CheckedStrategy) (report : OrderReport) : Except Mishap Result := do
  let rows ← m.columns.rows?
  let state := m.state.afterAll (Decision.ofReport rows report m.state.phase)
  return ⟨{ m with state }, ⟨none, [], state⟩⟩

def read? (m : CheckedStrategy) : Event → Except Mishap Result
  | .bar bar account => m.readBar? bar account
  | .report report => m.readReport? report

def run? (m : CheckedStrategy) : List Event → Except Mishap (CheckedStrategy × List Observed)
  | [] => .ok (m, [])
  | e :: events => do
    let result ← m.read? e
    let (last, observed) ← result.after.run? events
    return (last, result.observed :: observed)

def ofStrategy (s : Strategy) : CheckedStrategy where
  period := s.settings.cycleLength
  factor := s.settings.envelopeFactor
  rule := .ofSettings s.settings.toSettings
  sizer := s.sizer
  columns := .ofReadings s.readings
  state := s.state
  journal := s.journal

theorem make?_sound (sound : SoundSettings) (h : sound.confirmBars.toNat + 1 < UInt64.size) :
    make? sound.toSettings =
      .ok (ofStrategy (Strategy.start sound sound.riskBudget.sizer)) := by
  have hvalid : sound.toSettings.validate? = .ok () := by
    rw [Settings.validate?_eq, (sound.fault?_eq_none_iff).2 sound.isInRange]
  rw [make?, hvalid, sound.make?_eq_riskBudget, sound.make?_eq_channel, CheckedRule.make?_eq h]
  rfl

theorem make?_eq {s : Settings} (h : s.confirmBars.toNat + 1 < UInt64.size) :
    make? s = ((Strategy.ofSettings s).mapError .invalid).map ofStrategy := by
  rw [Strategy.ofSettings]
  cases hsound : SoundSettings.ofSettings s with
  | error fault =>
    have hinvalid : s.validate? = .error (.invalid fault) := by
      rw [Settings.validate?_eq, SoundSettings.fault?_of_error hsound]
    rw [make?, hinvalid]
    rfl
  | ok sound =>
    obtain rfl := SoundSettings.toSettings_of_ok hsound
    exact make?_sound sound h

section Run

variable (s : Strategy) (h : s.settings.confirmBars.toNat + 1 < UInt64.size)
include h

theorem readBar?_ofStrategy (hsize : s.readings.size + 1 < UInt64.size) (bar : Bar)
    (account : Account) :
    (ofStrategy s).readBar? bar account =
      .ok ⟨ofStrategy (s.read (.bar bar account)), s.observe (.bar bar account)⟩ := by
  rw [readBar?, Strategy.read, Strategy.observe]
  by_cases hv : bar.isVoid = true
  · rw [if_pos hv, s.readBar_of_isVoid bar account hv]
    rfl
  · have hpush : (ofStrategy s).columns.push? (ofStrategy s).period (ofStrategy s).factor bar =
        .ok (.ofReadings (s.readingsWith bar)) :=
      Columns.push?_ofReadings s.settings.channel rfl hsize (Bool.eq_false_iff.2 hv)
    have hlt : (s.readingsWith bar).size < UInt64.size := by
      rw [Strategy.readingsWith, Channel.size_push]
      exact hsize
    have hanswers : (CheckedRule.ofSettings s.settings.toSettings).answers? bar
        (.ofReadings (s.readingsWith bar)) s.state.lastEntry =
          .ok (s.rule.answers? bar (s.readingsWith bar) s.state.lastEntry) :=
      CheckedRule.answers?_ofReadings h hlt bar s.state.lastEntry
    rw [if_neg hv, hpush]
    change ((CheckedRule.ofSettings s.settings.toSettings).answers? bar
      (.ofReadings (s.readingsWith bar)) s.state.lastEntry >>= fun answers? => _) = _
    rw [hanswers]
    by_cases hfew : s.readings.size + 1 < s.rule.requiredBars
    · have hnone : s.rule.answers? bar (s.readingsWith bar) s.state.lastEntry = none :=
        BottomRule.answers?_push_of_lt _ _ _ _ _ _ hfew
      rw [s.readBar_of_lt bar account hv hfew, hnone]
      rfl
    · have henough := Nat.not_lt.1 hfew
      have hsome : s.rule.answers? bar (s.readingsWith bar) s.state.lastEntry =
          some (s.answersOn bar) := BottomRule.answers?_push _ _ _ _ _ _ henough
      have hbottom : (CheckedRule.ofSettings s.settings.toSettings).bottom? bar
          (.ofReadings (s.readingsWith bar)) s.state.lastEntry = .ok (s.bottomOn? bar) :=
        CheckedRule.bottom?_ofReadings h hlt bar s.state.lastEntry
      rw [s.readBar_of_le bar account hv henough, hsome]
      change ((CheckedRule.ofSettings s.settings.toSettings).bottom? bar
        (.ofReadings (s.readingsWith bar)) s.state.lastEntry >>= fun bottom =>
          (Columns.ofReadings (s.readingsWith bar)).rows? >>= fun rows => _) = _
      rw [hbottom, Columns.rows?_ofReadings hlt, Strategy.entryOn, Strategy.decisionOn, if_neg hv,
        if_neg hfew]
      rfl

omit h in
theorem readReport?_ofStrategy (hsize : s.readings.size < UInt64.size) (report : OrderReport) :
    (ofStrategy s).readReport? report =
      .ok ⟨ofStrategy (s.read (.report report)), s.observe (.report report)⟩ := by
  have hrows : (ofStrategy s).columns.rows? = .ok s.readings := Columns.rows?_ofReadings hsize
  rw [readReport?, hrows]
  rfl

omit h in
theorem size_readings_read_bar (bar : Bar) (account : Account) :
    (s.read (.bar bar account)).readings.size ≤ s.readings.size + 1 := by
  have hpush : (s.readingsWith bar).size = s.readings.size + 1 := Channel.size_push _ _ _
  rw [Strategy.read]
  by_cases hv : bar.isVoid = true
  · rw [s.readBar_of_isVoid bar account hv]
    exact Nat.le_add_right _ _
  · by_cases hfew : s.readings.size + 1 < s.rule.requiredBars
    · rw [s.readBar_of_lt bar account hv hfew]
      exact Nat.le_of_eq hpush
    · rw [s.readBar_of_le bar account hv (Nat.not_lt.1 hfew)]
      exact Nat.le_of_eq hpush

/-- A run of bars that a count can number has no mishap, and does what the strategy does. -/
theorem run?_ofStrategy (events : List Event)
    (hsize : s.readings.size + (feed events).length < UInt64.size) :
    (ofStrategy s).run? events = .ok (ofStrategy (s.readAll events), s.observeAll events) := by
  induction events generalizing s with
  | nil => rfl
  | cons e events ih =>
    rw [feed, List.filterMap_cons] at hsize
    have hread : (ofStrategy s).read? e = .ok ⟨ofStrategy (s.read e), s.observe e⟩ ∧
        (s.read e).readings.size + (feed events).length < UInt64.size := by
      cases e with
      | bar bar account =>
        have hfewer := size_readings_read_bar s bar account
        simp only [Event.bar?, List.length_cons] at hsize
        refine ⟨readBar?_ofStrategy s h (by omega) bar account, ?_⟩
        rw [feed]
        omega
      | report report =>
        simp only [Event.bar?] at hsize
        refine ⟨readReport?_ofStrategy s (by omega) report, hsize⟩
    rw [run?, hread.1]
    change ((ofStrategy (s.read e)).run? events >>= fun result => _) = _
    rw [ih (s.read e) (by rw [s.settings_read]; exact h) hread.2]
    rfl

end Run

/-- A strategy is made exactly of settings that are all in range, and otherwise the first one that is
not is named; once it is made, every maker has accepted its numbers, and no run of bars that can be
numbered meets a sum, a difference or an access that fails. -/
theorem made_and_run_iff (s : Settings) (h : s.confirmBars.toNat < 2 ^ 64 - 1) :
    make? s = ((Strategy.ofSettings s).mapError .invalid).map ofStrategy ∧
      ((∃ m, make? s = .ok m) ↔ ∀ f, s.IsWithin f) ∧
      (∀ refusal, make? s = .error refusal ↔ ∃ f, refusal = .invalid f ∧ s.IsFirstFault f) ∧
      ∀ m, make? s = .ok m → s.PassesMakers ∧
        ∃ strategy, Strategy.ofSettings s = .ok strategy ∧ ∀ events,
          (feed events).length < 2 ^ 64 - 1 →
            m.run? events = .ok (ofStrategy (strategy.readAll events), strategy.observeAll events) := by
  have hcount : s.confirmBars.toNat + 1 < UInt64.size := by
    rw [UInt64.size]
    omega
  have hmake := make?_eq hcount
  refine ⟨hmake, ?_⟩
  rw [hmake, Strategy.ofSettings]
  cases hsound : SoundSettings.ofSettings s with
  | error fault =>
    have hfirst := (s.fault?_eq_some_iff fault).1 (SoundSettings.fault?_of_error hsound)
    refine ⟨⟨nofun, fun hall => absurd (hall fault) hfirst.1⟩, fun refusal => ⟨?_, ?_⟩, nofun⟩
    · intro hrefusal
      cases hrefusal
      exact ⟨fault, rfl, hfirst⟩
    · rintro ⟨other, rfl, hother⟩
      have hsame := (s.fault?_eq_some_iff other).2 hother
      rw [(s.fault?_eq_some_iff fault).2 hfirst] at hsame
      cases hsame
      rfl
  | ok sound =>
    obtain rfl := SoundSettings.toSettings_of_ok hsound
    have hwithin (f : SettingsFault) : sound.toSettings.IsWithin f :=
      (sound.isInRange_iff f).1 (sound.isInRange f)
    refine ⟨⟨fun _ => hwithin, fun _ => ⟨_, rfl⟩⟩, fun refusal => ⟨nofun, ?_⟩, ?_⟩
    · rintro ⟨f, -, hfirst⟩
      exact absurd (hwithin f) hfirst.1
    · rintro m hm
      cases hm
      refine ⟨sound.passesMakers, _, rfl, fun events hfeed => ?_⟩
      apply run?_ofStrategy _ hcount
      rw [UInt64.size]
      change 0 + _ < _
      omega

/-- The latest confirmation that can still be counted is accepted, and a bar is read; without a number
for the risk, it is the risk that is named, not the infinite cap after it. -/
theorem made_and_run_iff_latest_confirmation :
    let s : Settings := ⟨1, 0.0, 18446744073709551614, 0.0, 1.0, 1.0, .skip⟩
    let risky : Settings := ⟨1, 0.0, 18446744073709551614, 0.0, 0.0 / 0.0, 1.0 / 0.0, .skip⟩
    s.confirmBars.toNat < 2 ^ 64 - 1 ∧
      (∃ m result, make? s = .ok m ∧
        m.run? [.bar ⟨7, ⟨2024, 2, 29, by decide⟩, 1.0, 1.0, 1.0, 1.0⟩ ⟨0.0, 0, ⟨1⟩⟩] = .ok result) ∧
      make? risky = .error (.invalid .riskPct) := by
  intro s risky
  have hbound : s.confirmBars.toNat < 2 ^ 64 - 1 := by decide
  obtain ⟨-, hmade, -, hrun⟩ := made_and_run_iff s hbound
  obtain ⟨-, -, hrefused, -⟩ := made_and_run_iff risky hbound
  have hwithin : ∀ f, s.IsWithin f := by
    intro f
    rw [← Settings.isInRange_iff]
    cases f <;> decide +kernel
  obtain ⟨m, hm⟩ := hmade.2 hwithin
  obtain ⟨-, strategy, -, hevents⟩ := hrun m hm
  refine ⟨hbound, ⟨m, _, hm, hevents _ (by decide)⟩, (hrefused _).2 ⟨_, rfl, ?_⟩⟩
  rw [← Settings.fault?_eq_some_iff]
  decide +kernel

end CheckedStrategy
end TroughTrader
