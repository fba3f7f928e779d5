import TroughTrader.Proofs.Binary64.Undefined
import TroughTrader.Proofs.Market.Series
import TroughTrader.Proofs.Trade.Batch
import TroughTrader.Trade.Decision

/-!
# What the readings answer

The readings of a channel hold the series over the bars that were read (`series?_eq_readAll`). Every
question about the readings is one about the last values of these series: an undefined value fails a
test just as a missing one does, so nothing is lost where the readings leave it out (`dips_push`,
`crossedAbove_eq` and `sellReason?_push`).
-/

namespace TroughTrader

open Market

/-- The series over all bars are those that the channel keeps. -/
theorem SoundSettings.series?_eq_readAll (settings : SoundSettings) (bars : List Bar) :
    settings.lowerEnvelope.series? bars = .ok (.ofReadings (settings.channel.readAll bars)) :=
  settings.lowerEnvelope.series?_eq settings.channel rfl rfl bars

section

variable (c : Channel) (readings : Array Reading) (bar : Bar)

theorem Market.Series.lastEnvelope_push :
    (ofReadings (c.push readings bar)).lastEnvelope = (c.reading readings bar).lowerEnvelope := by
  simp [lastEnvelope, ofReadings, Channel.push_eq]

theorem Market.Series.lastDown_push :
    (ofReadings (c.push readings bar)).lastDown = (c.reading readings bar).crossDown := by
  simp [lastDown, ofReadings, Channel.push_eq]

theorem BottomRule.dips_push (low : Float) :
    dips low (c.push readings bar) =
      decide (low ≤ (Series.ofReadings (c.push readings bar)).lastEnvelope * 1.005) := by
  rw [dips, Channel.last?_push, Series.lastEnvelope_push]
  apply Binary64.any_defined?
  intro x hx
  exact decide_eq_false (Binary64.not_le_of_isNaN low (Binary64.isNaN_mul dipTolerance hx))

theorem BottomRule.crossedAbove_eq (ago : Nat) :
    crossedAbove ago readings = (decide (ago < readings.size) &&
      (Series.ofReadings readings).crossUp[readings.size - 1 - ago]?.any
        fun sign => 0.0 < sign) := by
  unfold crossedAbove
  by_cases h : ago < readings.size
  · rw [if_pos h, decide_eq_true h, Bool.true_and, Channel.value?, Series.ofReadings,
      List.getElem?_map, Array.getElem?_toList]
    cases readings[readings.size - 1 - ago]? with
    | none => rfl
    | some r =>
      apply Binary64.any_defined?
      intro x hx
      exact decide_eq_false (Binary64.not_lt_of_isNaN 0.0 hx)
  · rw [if_neg h, decide_eq_false h, Bool.false_and]

theorem Decision.sellReason?_push (close stop : Float) :
    sellReason? (c.push readings bar) close stop =
      if 0.0 < (Series.ofReadings (c.push readings bar)).lastDown then some .crossDown
      else if close ≤ stop then some .stopLoss
      else none := by
  have hany : ((Channel.last? (c.push readings bar) (·.crossDown)).any fun sign => 0.0 < sign) =
      decide (0.0 < (Series.ofReadings (c.push readings bar)).lastDown) := by
    rw [Channel.last?_push, Series.lastDown_push]
    apply Binary64.any_defined?
    intro x hx
    exact decide_eq_false (Binary64.not_lt_of_isNaN 0.0 hx)
  rw [sellReason?, hany]
  simp only [decide_eq_true_eq]

end

theorem Bar.defined?_low {bar : Bar} (h : bar.isVoid = false) :
    Binary64.defined? bar.low = some bar.low := by
  unfold isVoid at h
  have hlow : ¬ bar.low.isNaN = true := by grind
  rw [Binary64.defined?, if_neg hlow]

end TroughTrader
