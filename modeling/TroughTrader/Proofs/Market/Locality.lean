import TroughTrader.Proofs.Market.Detection

/-!
# A value knows its own window

`IsLocal` says that a value in the `Series` over a list of bars is fixed by the closes of its
window: two lists of bars that agree on a window, wherever it lies in them, have the same average
and the same envelope there, and with one close more before it the same crossings. Later bars change
nothing, and a bar that has left the window has no weight in the average any more. The readings of a
channel are local (`isLocal_series`), and so are the series that are computed from all closes at
once.
-/

namespace TroughTrader.Market

theorem getElem?_windowUpTo {width n : Nat} (h : n < width) (closes : List Float) (k : Nat) :
    (windowUpTo width closes k)[n]? = closes[k + 1 - width + n]? := by
  rw [windowUpTo, List.getElem?_take_of_lt h, List.getElem?_drop]

theorem drop_windowUpTo (width : Nat) (closes : List Float) {k : Nat} (h : width ≤ k) :
    (windowUpTo (width + 1) closes k).drop 1 = windowUpTo width closes k := by
  have hstart : k + 1 - (width + 1) + 1 = k + 1 - width := by omega
  rw [windowUpTo, windowUpTo, List.drop_take, List.drop_drop, hstart, Nat.add_sub_cancel]

theorem take_windowUpTo (width : Nat) (closes : List Float) {k : Nat} (h : 1 ≤ k) :
    (windowUpTo (width + 1) closes k).take width = windowUpTo width closes (k - 1) := by
  have hstart : k + 1 - (width + 1) = k - 1 + 1 - width := by omega
  rw [windowUpTo, windowUpTo, List.take_take, Nat.min_eq_left (Nat.le_succ width), hstart]

theorem windowUpTo_set {width k p : Nat} (h : p + width ≤ k) (closes : List Float) (x : Float) :
    windowUpTo width (closes.set p x) k = windowUpTo width closes k := by
  rw [windowUpTo, windowUpTo, List.drop_set_of_lt (by omega)]

theorem meanUpTo_congr {width : Nat} {closes closes' : List Float} {k k' : Nat}
    (h : windowUpTo width closes k = windowUpTo width closes' k') :
    meanUpTo width closes k = meanUpTo width closes' k' := by
  rw [meanUpTo, meanUpTo, h]

theorem MovingAverage.getElem?_values_of_le (a : MovingAverage) {closes : List Float} {k : Nat}
    (hk : k < closes.length) (hfull : a.period.toNat ≤ k + 1) :
    (a.values closes)[k]? = some (meanUpTo a.period.toNat closes k) := by
  rw [a.getElem?_values closes hk, averageUpTo, if_pos hfull]

theorem getElem?_signs_succ {ps : List (Float × Float)} {k : Nat} {p q : Float × Float}
    (hp : ps[k]? = some p) (hq : ps[k + 1]? = some q) :
    (signs ps)[k + 1]? = some (crossSign p.1 p.2 q.1 q.2) := by
  cases ps with
  | nil => cases hp
  | cons x rest => exact getElem?_pairSigns (x :: rest) hp hq

def Channel.series (c : Channel) (bars : List Bar) : Series := .ofReadings (c.readAll bars)

/-- A value at a position comes from the closes of the window that ends there, and a crossing from
one close more. -/
structure IsLocal (width : Nat) (series : List Bar → Series) : Prop where
  length (s : List Bar) :
    (series s).average.length = s.length ∧ (series s).lowerEnvelope.length = s.length ∧
      (series s).crossUp.length = s.length ∧ (series s).crossDown.length = s.length
  levels {s t : List Bar} {i j : Nat} (hi : i < s.length) (hj : j < t.length)
    (hfull : width ≤ i + 1) (hfull' : width ≤ j + 1)
    (hwindow : windowUpTo width (s.map (·.close)) i = windowUpTo width (t.map (·.close)) j) :
    (series s).average[i]? = (series t).average[j]? ∧
      (series s).lowerEnvelope[i]? = (series t).lowerEnvelope[j]?
  crossing {s t : List Bar} {i j : Nat} (hi : i < s.length) (hj : j < t.length)
    (hfull : width ≤ i) (hfull' : width ≤ j)
    (hwindow : windowUpTo (width + 1) (s.map (·.close)) i =
      windowUpTo (width + 1) (t.map (·.close)) j) :
    (series s).crossUp[i]? = (series t).crossUp[j]? ∧
      (series s).crossDown[i]? = (series t).crossDown[j]?
  append (s later : List Bar) :
    (series s).average <+: (series (s ++ later)).average ∧
      (series s).lowerEnvelope <+: (series (s ++ later)).lowerEnvelope ∧
      (series s).crossUp <+: (series (s ++ later)).crossUp ∧
      (series s).crossDown <+: (series (s ++ later)).crossDown
  outlier (s : List Bar) {p i : Nat} (bar : Bar) (hleft : p + width ≤ i) :
    (series (s.set p bar)).average[i]? = (series s).average[i]? ∧
      (series (s.set p bar)).lowerEnvelope[i]? = (series s).lowerEnvelope[i]?

namespace Channel

variable (c : Channel) (a : MovingAverage)

theorem readAll_append_prefix (bars later : List Bar) :
    (c.readAll bars).toList <+: (c.readAll (bars ++ later)).toList := by
  induction later using List.reverseRecOn with
  | nil => simp
  | append_singleton later bar ih =>
    rw [← List.append_assoc, toList_readAll_concat]
    exact ih.trans (List.prefix_append _ _)

theorem length_map_readAll (bars : List Bar) (field : Reading → Float) :
    ((c.readAll bars).toList.map field).length = bars.length := by
  rw [List.length_map, Array.length_toList, c.size_readAll]

variable (hperiod : c.period = a.period.toNat)
include hperiod

theorem getElem?_average_series {bars : List Bar} {k : Nat} (hk : k < bars.length)
    (hfull : c.period ≤ k + 1) :
    (c.series bars).average[k]? = some (meanUpTo c.period (bars.map (·.close)) k) := by
  rw [series, Series.ofReadings, c.map_average_readAll a hperiod, hperiod]
  exact a.getElem?_values_of_le (by rwa [List.length_map]) (hperiod ▸ hfull)

theorem getElem?_lowerEnvelope_series {bars : List Bar} {k : Nat} (hk : k < bars.length)
    (hfull : c.period ≤ k + 1) :
    (c.series bars).lowerEnvelope[k]? =
      some (meanUpTo c.period (bars.map (·.close)) k * c.factor) := by
  have haverage := c.getElem?_average_series a hperiod hk hfull
  rw [series, Series.ofReadings, List.getElem?_map] at haverage
  rw [series, Series.ofReadings, c.map_lowerEnvelope_readAll, List.getElem?_map]
  obtain ⟨r, hr, hmean⟩ := Option.map_eq_some_iff.1 haverage
  rw [hr, Option.map_some, hmean]

theorem getElem?_crossings_series {bars : List Bar} {k : Nat} (hk : k < bars.length)
    (hfull : c.period ≤ k) :
    let closes := bars.map (·.close)
    ∃ before now, closes[k - 1]? = some before ∧ closes[k]? = some now ∧
      (c.series bars).crossUp[k]? = some (crossSign before (meanUpTo c.period closes (k - 1))
        now (meanUpTo c.period closes k)) ∧
      (c.series bars).crossDown[k]? = some (crossSign (meanUpTo c.period closes (k - 1)) before
        (meanUpTo c.period closes k) now) := by
  intro closes
  have hone := c.one_le_period
  have hlength : closes.length = bars.length := List.length_map _
  obtain ⟨k, rfl⟩ : ∃ n, k = n + 1 := ⟨k - 1, by omega⟩
  obtain ⟨hup, hdown⟩ := c.crossSigns_readAll a hperiod bars
  rw [crossSigns_eq_signs (a.length_values _).symm] at hup
  rw [crossSigns_eq_signs (a.length_values _)] at hdown
  have haverage {i : Nat} (hi : i < bars.length) (hfull : c.period ≤ i + 1) :
      (a.values closes)[i]? = some (meanUpTo c.period closes i) := by
    rw [hperiod]
    exact a.getElem?_values_of_le (hlength ▸ hi) (hperiod ▸ hfull)
  have hclose {i : Nat} (hi : i < bars.length) : ∃ x, closes[i]? = some x :=
    ⟨closes[i], List.getElem?_eq_getElem _⟩
  obtain ⟨before, hbefore⟩ := hclose (Nat.lt_of_succ_lt hk)
  obtain ⟨now, hnow⟩ := hclose hk
  have hbefore' := haverage (Nat.lt_of_succ_lt hk) hfull
  have hnow' := haverage hk (Nat.le_succ_of_le hfull)
  refine ⟨before, now, hbefore, hnow, ?_, ?_⟩
  · have hpair : (closes.zip (a.values closes))[k]? = some (before, meanUpTo c.period closes k) :=
      List.getElem?_zip_eq_some.2 ⟨hbefore, hbefore'⟩
    have hpair' : (closes.zip (a.values closes))[k + 1]? =
        some (now, meanUpTo c.period closes (k + 1)) :=
      List.getElem?_zip_eq_some.2 ⟨hnow, hnow'⟩
    rw [series, Series.ofReadings, ← Except.ok.inj hup, getElem?_signs_succ hpair hpair',
      Nat.add_sub_cancel]
  · have hpair : ((a.values closes).zip closes)[k]? = some (meanUpTo c.period closes k, before) :=
      List.getElem?_zip_eq_some.2 ⟨hbefore', hbefore⟩
    have hpair' : ((a.values closes).zip closes)[k + 1]? =
        some (meanUpTo c.period closes (k + 1), now) :=
      List.getElem?_zip_eq_some.2 ⟨hnow', hnow⟩
    rw [series, Series.ofReadings, ← Except.ok.inj hdown, getElem?_signs_succ hpair hpair',
      Nat.add_sub_cancel]

/-- The closes of a crossing and the windows of its means are all in one window that is a close
wider. -/
theorem crossings_series_eq {s t : List Bar} {i j : Nat} (hi : i < s.length) (hj : j < t.length)
    (hfull : c.period ≤ i) (hfull' : c.period ≤ j)
    (hwindow : windowUpTo (c.period + 1) (s.map (·.close)) i =
      windowUpTo (c.period + 1) (t.map (·.close)) j) :
    (c.series s).crossUp[i]? = (c.series t).crossUp[j]? ∧
      (c.series s).crossDown[i]? = (c.series t).crossDown[j]? := by
  have hone : 1 ≤ c.period := c.one_le_period
  obtain ⟨x, y, hx, hy, hup, hdown⟩ := c.getElem?_crossings_series a hperiod hi hfull
  obtain ⟨x', y', hx', hy', hup', hdown'⟩ := c.getElem?_crossings_series a hperiod hj hfull'
  have hclose {n : Nat} (hn : n < c.period + 1) : (s.map (·.close))[i - c.period + n]? =
      (t.map (·.close))[j - c.period + n]? := by
    have h := congrArg (·[n]?) hwindow
    simp only [getElem?_windowUpTo hn, Nat.add_sub_add_right] at h
    exact h
  obtain rfl : x = x' := by
    have h := hclose (Nat.sub_lt_succ c.period 1)
    rw [show i - c.period + (c.period - 1) = i - 1 by omega,
      show j - c.period + (c.period - 1) = j - 1 by omega, hx, hx'] at h
    exact Option.some.inj h
  obtain rfl : y = y' := by
    have h := hclose (Nat.lt_succ_self c.period)
    rw [Nat.sub_add_cancel hfull, Nat.sub_add_cancel hfull', hy, hy'] at h
    exact Option.some.inj h
  have hnow : meanUpTo c.period (s.map (·.close)) i = meanUpTo c.period (t.map (·.close)) j := by
    apply meanUpTo_congr
    rw [← drop_windowUpTo _ _ hfull, ← drop_windowUpTo _ _ hfull', hwindow]
  have hbefore : meanUpTo c.period (s.map (·.close)) (i - 1) =
      meanUpTo c.period (t.map (·.close)) (j - 1) := by
    apply meanUpTo_congr
    rw [← take_windowUpTo _ _ (Nat.le_trans hone hfull),
      ← take_windowUpTo _ _ (Nat.le_trans hone hfull'), hwindow]
  rw [hup, hup', hdown, hdown', hnow, hbefore]
  exact ⟨rfl, rfl⟩

theorem isLocal_series : IsLocal c.period c.series where
  length s :=
    ⟨c.length_map_readAll s _, c.length_map_readAll s _, c.length_map_readAll s _,
      c.length_map_readAll s _⟩
  levels hi hj hfull hfull' hwindow := by
    rw [c.getElem?_average_series a hperiod hi hfull, c.getElem?_average_series a hperiod hj hfull',
      c.getElem?_lowerEnvelope_series a hperiod hi hfull,
      c.getElem?_lowerEnvelope_series a hperiod hj hfull', meanUpTo_congr hwindow]
    exact ⟨rfl, rfl⟩
  crossing := c.crossings_series_eq a hperiod
  append s later :=
    have h := c.readAll_append_prefix s later
    ⟨h.map _, h.map _, h.map _, h.map _⟩
  outlier s p i bar hleft := by
    by_cases hi : i < s.length
    · have hi' : i < (s.set p bar).length := by rwa [List.length_set]
      have hfull : c.period ≤ i + 1 := by omega
      rw [c.getElem?_average_series a hperiod hi hfull,
        c.getElem?_average_series a hperiod hi' hfull,
        c.getElem?_lowerEnvelope_series a hperiod hi hfull,
        c.getElem?_lowerEnvelope_series a hperiod hi' hfull, List.map_set,
        meanUpTo_congr (windowUpTo_set hleft _ _)]
      exact ⟨rfl, rfl⟩
    · have hnone (field : Reading → Float) (bars : List Bar) (hlength : bars.length ≤ i) :
          ((c.readAll bars).toList.map field)[i]? = none := by
        rwa [List.getElem?_eq_none_iff, c.length_map_readAll]
      have hs : s.length ≤ i := by omega
      have hs' : (s.set p bar).length ≤ i := by rwa [List.length_set]
      exact ⟨(hnone _ _ hs').trans (hnone _ _ hs).symm, (hnone _ _ hs').trans (hnone _ _ hs).symm⟩

end Channel

/-- A channel of any period and any percentage is local, and so are the moving average, the
envelope and the crossings of the closes with the average that are computed at once, for each
percentage that an envelope may have. -/
theorem series_of_window (period : UInt64) (hperiod : 1 ≤ period.toNat) (pct : Float) :
    (∃ c, Channel.make? period pct = .ok c ∧ IsLocal period.toNat c.series) ∧
      (isEnvelopePct pct = true → ∃ a e, ∃ series : List Bar → Series,
        MovingAverage.make? period = .ok a ∧ LowerEnvelope.make? period pct = .ok e ∧ e.average = a ∧
        (∀ bars, e.series? bars = .ok (series bars)) ∧ IsLocal period.toNat series) := by
  let c : Channel := ⟨period.toNat, hperiod, loweringFactor pct⟩
  let a : MovingAverage := ⟨period, hperiod⟩
  have ha : MovingAverage.make? period = .ok a := dif_pos hperiod
  have hlocal : IsLocal period.toNat c.series := c.isLocal_series a rfl
  refine ⟨⟨c, dif_pos hperiod, hlocal⟩, ?_⟩
  intro hpct
  let e : LowerEnvelope := ⟨a, pct, hpct⟩
  have he : LowerEnvelope.make? period pct = .ok e := by
    rw [LowerEnvelope.make?, dif_pos hpct, ha]
    rfl
  exact ⟨a, e, c.series, ha, he, rfl, e.series?_eq c rfl rfl, hlocal⟩

/-- Two closes that end a longer list and a shorter one have one average, and so do they when the
close before them is another. -/
theorem series_of_window_two :
    let quote (close : Float) : Bar := ⟨0, ⟨2024, 1, 2, by decide⟩, close, close, close, close⟩
    let s := [quote 100.0, quote 98.0, quote 101.0]
    let t := [quote 98.0, quote 101.0]
    (1 ≤ (2 : UInt64).toNat ∧ isEnvelopePct 2.0 = true) ∧
      (∃ c, Channel.make? 2 2.0 = .ok c ∧
        (c.series s).average[2]? = (c.series t).average[1]?) ∧
      ∃ (e : LowerEnvelope) (series : List Bar → Series), LowerEnvelope.make? 2 2.0 = .ok e ∧
        (∀ bars, e.series? bars = .ok (series bars)) ∧
        (series (s.set 0 (quote 1000000.7))).average[2]? = (series s).average[2]? := by
  intro quote s t
  have hperiod : 1 ≤ (2 : UInt64).toNat := by decide
  have hpct : isEnvelopePct 2.0 = true := by decide +kernel
  obtain ⟨⟨c, hc, hlocal⟩, hbatch⟩ := series_of_window 2 hperiod 2.0
  obtain ⟨a, e, series, -, he, -, hseries, hlocal'⟩ := hbatch hpct
  have hwindow : windowUpTo 2 (s.map (·.close)) 2 = windowUpTo 2 (t.map (·.close)) 1 := rfl
  exact ⟨⟨hperiod, hpct⟩,
    ⟨c, hc, (hlocal.levels (by decide) (by decide) (by decide) (by decide) hwindow).1⟩,
    e, series, he, hseries, (hlocal'.outlier s (quote 1000000.7) (Nat.le_refl (0 + 2))).1⟩

end TroughTrader.Market
