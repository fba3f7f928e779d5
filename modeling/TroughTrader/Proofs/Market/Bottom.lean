import TroughTrader.Market.Bottom

/-!
# When a bar is a bottom

`BottomRule.answers?` answers once there are enough readings, and `BottomRule.bottom?` gives a
bottom exactly where all three answers are yes. The bottom then carries the bar's own prices and the
envelope of the last reading (`eq_of_bottom?`), and its index keeps the gap to the last entry
(`isSpaced_of_bottom?`).
-/

namespace TroughTrader.BottomRule

open Market

variable {rule : BottomRule} {bar : Bar} {readings : Array Reading} {lastEntry : Option UInt64}

theorem answers?_push (rule : BottomRule) (c : Channel) (read bar : Bar)
    (readings : Array Reading) (lastEntry : Option UInt64)
    (h : rule.requiredBars ≤ readings.size + 1) :
    rule.answers? bar (c.push readings read) lastEntry =
      some { dips := dips bar.low (c.push readings read)
             crossed := crossedAbove rule.confirmBars (c.push readings read)
             spaced := isSpaced rule.minGap bar.index lastEntry } := by
  have enough : ¬ ((c.push readings read).size < rule.requiredBars ∨
      (c.push readings read).isEmpty = true) := by
    simp only [Array.isEmpty_iff_size_eq_zero, Channel.size_push]
    omega
  rw [answers?, if_neg enough]

theorem answers?_push_of_lt (rule : BottomRule) (c : Channel) (read bar : Bar)
    (readings : Array Reading) (lastEntry : Option UInt64)
    (h : readings.size + 1 < rule.requiredBars) :
    rule.answers? bar (c.push readings read) lastEntry = none := by
  rw [answers?, if_pos (Or.inl (by rwa [Channel.size_push]))]

theorem bottom?_push (rule : BottomRule) (c : Channel) (read bar : Bar)
    (readings : Array Reading) (lastEntry : Option UInt64)
    (h : rule.requiredBars ≤ readings.size + 1) :
    rule.bottom? bar (c.push readings read) lastEntry =
      if dips bar.low (c.push readings read) && crossedAbove rule.confirmBars (c.push readings read)
          && isSpaced rule.minGap bar.index lastEntry then
        (Channel.last? (c.push readings read) (·.lowerEnvelope)).map fun envelope =>
          ⟨bar.index, bar.date, bar.close, bar.low, envelope⟩
      else none := by
  rw [bottom?, answers?_push rule c read bar readings lastEntry h]
  by_cases hb : (dips bar.low (c.push readings read)
      && crossedAbove rule.confirmBars (c.push readings read)
      && isSpaced rule.minGap bar.index lastEntry) = true
  · rw [if_pos hb, Option.bind_eq_bind, Option.bind_some, BottomAnswers.isBottom, if_pos hb]
    cases Channel.last? (c.push readings read) (·.lowerEnvelope) <;> rfl
  · rw [if_neg hb, Option.bind_eq_bind, Option.bind_some, BottomAnswers.isBottom, if_neg hb]

theorem eq_of_bottom? {bottom : Bottom} (h : rule.bottom? bar readings lastEntry = some bottom) :
    ∃ answers, rule.answers? bar readings lastEntry = some answers ∧ answers.isBottom = true ∧
      Channel.last? readings (·.lowerEnvelope) = some bottom.lowerEnvelope ∧
      bottom = ⟨bar.index, bar.date, bar.close, bar.low, bottom.lowerEnvelope⟩ := by
  obtain ⟨answers, ha, hb⟩ := Option.bind_eq_some_iff.1 h
  split at hb
  · obtain ⟨envelope, he, hp⟩ := Option.bind_eq_some_iff.1 hb
    cases hp
    exact ⟨answers, ha, ‹_›, he, rfl⟩
  · cases hb

theorem barIndex_of_bottom? {bottom : Bottom}
    (h : rule.bottom? bar readings lastEntry = some bottom) : bottom.barIndex = bar.index := by
  obtain ⟨_, _, _, _, hb⟩ := eq_of_bottom? h
  rw [hb]

/-- A bottom keeps the gap to the last entry. -/
theorem isSpaced_of_bottom? {bottom : Bottom}
    (h : rule.bottom? bar readings lastEntry = some bottom) :
    isSpaced rule.minGap bar.index lastEntry = true := by
  obtain ⟨answers, ha, hb, _⟩ := eq_of_bottom? h
  rw [answers?] at ha
  split at ha
  · cases ha
  · cases ha
    simp only [BottomAnswers.isBottom, Bool.and_eq_true] at hb
    exact hb.2

end TroughTrader.BottomRule
