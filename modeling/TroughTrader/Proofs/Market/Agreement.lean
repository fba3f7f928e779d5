import TroughTrader.Proofs.Market.Series
import TroughTrader.Trade.Strategy

/-!
# Bar by bar or all at once

`readAll_eq_values` compares the readings of a channel, taken one bar at a time, with the moving
average, the lower envelope and the crossings of the whole list of closes: they are the same values
at every position, whatever the period and however short the list, and each update gives its bar the
position that it has in the list. The channel of sound settings is the one that is made of their
numbers (`make?_eq_channel`).
-/

namespace TroughTrader

open Market

theorem SoundSettings.make?_eq_channel (s : SoundSettings) :
    Channel.make? s.cycleLength s.envelopePct = .ok s.channel := by
  rw [Channel.make?, dif_pos s.one_le_cycleLength]
  rfl

namespace Market.Channel

theorem lastPosition?_readAll_concat (c : Channel) (bars : List Bar) (bar : Bar) :
    lastPosition? (c.readAll (bars ++ [bar])) = some bars.length := by
  rw [readAll_concat, lastPosition?_push, size_readAll]

/-- A channel of any period and any percentage, and the channel of sound settings with these
numbers, gives bar by bar the averages, the envelopes and the crossings that the whole list of
closes has, one a bar. What an update returns for a bar is the number of the bars before it, which is
the last position after it. -/
theorem readAll_eq_values (period : UInt64) (pct : Float) (hperiod : 1 ≤ period.toNat)
    (hpct : isEnvelopePct pct = true) (bars : List Bar) :
    ∃ c a e, Channel.make? period pct = .ok c ∧ MovingAverage.make? period = .ok a ∧
      LowerEnvelope.make? period pct = .ok e ∧
      (∀ s : SoundSettings, s.cycleLength = period → s.envelopePct = pct → s.channel = c) ∧
      let closes := bars.map (·.close)
      let readings := (c.readAll bars).toList
      readings.map (·.average) = a.values closes ∧
        readings.map (·.lowerEnvelope) = e.values closes ∧
        crossSigns closes (a.values closes) = .ok (readings.map (·.crossUp)) ∧
        crossSigns (a.values closes) closes = .ok (readings.map (·.crossDown)) ∧
        (∀ field : Reading → Float, (readings.map field).length = bars.length) ∧
        (c.updateAll #[] bars).1 = List.range bars.length ∧
        ∀ before bar, (c.update (c.readAll before) bar).1 = before.length ∧
          lastPosition? (c.readAll (before ++ [bar])) = some before.length := by
  let c : Channel := ⟨period.toNat, hperiod, loweringFactor pct⟩
  let a : MovingAverage := ⟨period, hperiod⟩
  let e : LowerEnvelope := ⟨a, pct, hpct⟩
  have hc : Channel.make? period pct = .ok c := dif_pos hperiod
  have ha : MovingAverage.make? period = .ok a := dif_pos hperiod
  have he : LowerEnvelope.make? period pct = .ok e := by
    rw [LowerEnvelope.make?, dif_pos hpct, ha]
    rfl
  refine ⟨c, a, e, hc, ha, he, ?_, ?_⟩
  · rintro s rfl rfl
    exact Except.ok.inj (s.make?_eq_channel.symm.trans hc)
  · obtain ⟨hup, hdown⟩ := c.crossSigns_readAll a rfl bars
    refine ⟨c.map_average_readAll a rfl bars, c.map_lowerEnvelope_readAll_eq e rfl rfl bars, hup,
      hdown, ?_, ?_, ?_⟩
    · intro field
      rw [List.length_map, Array.length_toList, size_readAll]
    · rw [positions_updateAll, Array.size_empty, List.range_eq_range']
    · exact fun before bar => ⟨c.size_readAll before, c.lastPosition?_readAll_concat before bar⟩

/-- The last of three closes crosses above the average of two. All three bars have the same index in
the feed, and positions of their own. -/
theorem readAll_eq_values_crossing :
    let bars : List Bar := [100.0, 98.0, 101.0].map fun close =>
      ⟨0, ⟨2024, 1, 2, by decide⟩, close, close, close, close⟩
    (1 ≤ (2 : UInt64).toNat ∧ isEnvelopePct 2.0 = true) ∧
      ∃ c, Channel.make? 2 2.0 = .ok c ∧ (c.updateAll #[] bars).1 = [0, 1, 2] ∧
        ((c.readAll bars).toList.map (·.crossUp)).map (fun sign => decide (0.0 < sign)) =
          [false, false, true] := by
  intro bars
  have hperiod : 1 ≤ (2 : UInt64).toNat := by decide
  have hpct : isEnvelopePct 2.0 = true := by decide +kernel
  obtain ⟨c, a, e, hc, ha, -, -, -, -, hup, -, -, hpositions, -⟩ :=
    readAll_eq_values 2 2.0 hperiod hpct bars
  refine ⟨⟨hperiod, hpct⟩, c, hc, hpositions, ?_⟩
  have hmake : MovingAverage.make? 2 = .ok ⟨2, by decide⟩ := dif_pos hperiod
  obtain rfl : (⟨2, by decide⟩ : MovingAverage) = a := Except.ok.inj (hmake.symm.trans ha)
  have hsigns : (crossSigns (bars.map (·.close))
      (MovingAverage.values ⟨2, by decide⟩ (bars.map (·.close)))).map
        (·.map fun sign => decide (0.0 < sign)) = .ok [false, false, true] := by
    decide +kernel
  rw [hup] at hsigns
  exact Except.ok.inj hsigns

end Market.Channel
end TroughTrader
