import TroughTrader.Proofs.Binary64.Sums
import TroughTrader.Proofs.Market.Agreement
import TroughTrader.Proofs.Market.Detection
import TroughTrader.Proofs.Settings.Ranges
import TroughTrader.Proofs.Trade.Flight

/-!
# Where the series are defined

Not-a-number marks a value that is missing, so a value that is there must never come out as one.
With finite closes it does not: the sum of a window may overflow but stays defined, and so do its
share and the envelope below it (`isNaN_mean_of_isFinite`, `loweringFactor_spec`). What is missing
is then exactly what comes before the first full window (`isNaN_averageUpTo_iff`), and for a
crossing the first full window itself, which has no average before it (`isNaN_crossSign`).
-/

namespace TroughTrader.Market

open Binary64

section Factor

/-- The largest percentage below one hundred. -/
def largestPct : Float := Float.ofBits 0x4058ffffffffffff

theorem div_hundred_lt_one {pct : Float} (h : isEnvelopePct pct = true) : pct / 100.0 < 1.0 := by
  rw [isEnvelopePct, Bool.and_eq_true, decide_eq_true_iff, decide_eq_true_iff] at h
  have hdefined := (isNaN_of_lt h.2).1
  have hlargest : pct ≤ largestPct := by
    have hlt := (lt_iff_rank_lt hdefined (by decide)).1 h.2
    rw [show rank 100.0 = rank largestPct + 1 by decide] at hlt
    rw [le_iff_rank_le hdefined (by decide)]
    omega
  have hquotient : pct / 100.0 ≤ largestPct / 100.0 :=
    div_le_div_of_pos isFinite_hundred (by rw [value_hundred]; norm_num) hlargest
  exact lt_of_le_of_lt hquotient (by decide +kernel)

/-- What an average is lowered by is positive, however near to one hundred the percentage is. -/
theorem loweringFactor_spec {pct : Float} (h : isEnvelopePct pct = true) :
    (loweringFactor pct).isFinite = true ∧ 0 < value (loweringFactor pct) := by
  obtain ⟨hfinite, hlow, -⟩ := (isEnvelopePct_iff pct).1 h
  have hlt := div_hundred_lt_one h
  have hne : value 100.0 ≠ 0 := by rw [value_hundred]; norm_num
  have hnearest := isNearest_div hfinite isFinite_hundred hne
  have hzero : 0.0 ≤ pct / 100.0 := by
    refine (isNearest_value isFinite_zero).le hnearest ?_
    rw [value_zero, value_hundred]
    positivity
  have hshare := isFinite_of_le_of_le isFinite_zero isFinite_one hzero (le_of_lt hlt)
  have hfactor : (loweringFactor pct).isFinite = true := by
    refine (isNearest_sub isFinite_one hshare).isFinite_of_abs_le isFinite_one ?_
    have hpos := (le_iff_value_le isFinite_zero hshare).1 hzero
    have hbelow := (lt_iff_value_lt hshare isFinite_one).1 hlt
    rw [value_zero] at hpos
    rw [value_one] at hbelow ⊢
    rw [abs_one, abs_le]
    constructor <;> linarith
  exact ⟨hfactor, (value_pos_iff hfactor).2 (rank_sub_pos hlt).2⟩

end Factor

section Mean

theorem isNaN_mean_of_mem {window : List Float} {x : Float} (hmem : x ∈ window)
    (hx : x.isNaN = true) : (mean window).isNaN = true :=
  isNaN_div (isNaN_foldl_add_of_mem hmem hx _) _

theorem isNaN_mean_of_isFinite {window : List Float} (hne : window ≠ [])
    (hlength : window.length < UInt64.size) (h : ∀ x ∈ window, x.isFinite = true) :
    (mean window).isNaN = false := by
  have hcount : 1 ≤ window.length.toUInt64.toNat := by
    rw [Nat.toUInt64, UInt64.toNat_ofNat_of_lt' hlength]
    exact List.length_pos_iff.2 hne
  obtain ⟨hfinite, hpos⟩ := ofCount_spec hcount
  rw [mean, isNaN_div_of_pos hfinite hpos]
  exact isNaN_foldl_add_of_isFinite h (by decide)

theorem isNaN_averageUpTo_iff {width : Nat} (hone : 1 ≤ width) (hwidth : width < UInt64.size)
    {closes : List Float} (h : ∀ x ∈ closes, x.isFinite = true) {k : Nat} (hk : k < closes.length) :
    (averageUpTo width closes k).isNaN = true ↔ k < width - 1 := by
  by_cases hfull : width ≤ k + 1
  · have hlength := length_windowUpTo hfull hk
    have hdefined : (meanUpTo width closes k).isNaN = false := by
      rw [← mean_windowUpTo hfull hk]
      apply isNaN_mean_of_isFinite
      · exact List.ne_nil_of_length_pos (by omega)
      · rwa [hlength]
      · exact fun x hx => h x (List.mem_of_mem_drop (List.mem_of_mem_take hx))
    rw [averageUpTo, if_pos hfull, hdefined]
    exact iff_of_false Bool.false_ne_true (by omega)
  · rw [averageUpTo, if_neg hfull]
    exact iff_of_true (by decide) (by omega)

end Mean

theorem isNaN_crossSign (previousA previousB a b : Float) :
    (crossSign previousA previousB a b).isNaN =
      (previousA.isNaN || previousB.isNaN || a.isNaN || b.isNaN) := by
  rw [crossSign]
  split
  · rename_i hnan
    rw [hnan]
    decide
  · rename_i hdefined
    rw [Bool.eq_false_iff.2 hdefined]
    split <;> decide

theorem map_isNaN_eq {values : List Float} {lookback : Nat}
    (h : ∀ k x, values[k]? = some x → (x.isNaN = true ↔ k < lookback)) :
    values.map Float.isNaN = List.replicate (min values.length lookback) true ++
      List.replicate (values.length - lookback) false := by
  apply List.ext_getElem
  · rw [List.length_map, List.length_append, List.length_replicate, List.length_replicate]
    omega
  · intro k hk hk'
    rw [List.length_map] at hk
    have hnan := h k values[k] (List.getElem?_eq_getElem hk)
    rw [List.getElem_map, List.getElem_append]
    split
    · rename_i hlt
      rw [List.length_replicate] at hlt
      rw [List.getElem_replicate, hnan]
      omega
    · rename_i hge
      rw [List.length_replicate] at hge
      rw [List.getElem_replicate, Bool.eq_false_iff, ne_eq, hnan]
      omega

section Values

variable {closes : List Float} (h : ∀ x ∈ closes, x.isFinite = true)
include h

theorem MovingAverage.isNaN_values_iff (a : MovingAverage) {k : Nat} {x : Float}
    (hx : (a.values closes)[k]? = some x) : x.isNaN = true ↔ k < a.lookback := by
  have hk : k < closes.length := by
    rw [← a.length_values closes]
    exact (List.getElem?_eq_some_iff.1 hx).1
  rw [a.getElem?_values closes hk, Option.some.injEq] at hx
  rw [← hx]
  exact isNaN_averageUpTo_iff a.one_le_period a.period.toNat_lt h hk

theorem LowerEnvelope.isNaN_values_iff (e : LowerEnvelope) {k : Nat} {x : Float}
    (hx : (e.values closes)[k]? = some x) : x.isNaN = true ↔ k < e.lookback := by
  rw [values, List.getElem?_map, Option.map_eq_some_iff] at hx
  obtain ⟨average, haverage, rfl⟩ := hx
  obtain ⟨hfinite, hpos⟩ := loweringFactor_spec e.isEnvelopePct
  rw [isNaN_mul_of_pos hfinite hpos]
  exact e.average.isNaN_values_iff h haverage

end Values

namespace Channel

theorem value?_eq_none_iff {readings : Array Reading} {k : Nat} {r : Reading}
    (hr : readings[k]? = some r) (field : Reading → Float) :
    value? readings field k = none ↔ (field r).isNaN = true := by
  rw [value?, hr, Option.bind_some, defined?]
  split <;> simp_all

theorem value?_of_size_le {readings : Array Reading} {k : Nat} (h : readings.size ≤ k)
    (field : Reading → Float) : value? readings field k = none := by
  rw [value?, Array.getElem?_eq_none h, Option.bind_none]

variable (c : Channel) (a : MovingAverage) {bars : List Bar}
  (hperiod : c.period = a.period.toNat) (h : ∀ b ∈ bars, b.close.isFinite = true)
include hperiod h

theorem isNaN_average_iff {k : Nat} {r : Reading} (hr : (c.readAll bars)[k]? = some r) :
    r.average.isNaN = true ↔ k < c.period - 1 := by
  obtain ⟨hclose, haverage, -⟩ := c.reading_of_readAll a bars hperiod hr
  rw [haverage]
  exact isNaN_averageUpTo_iff c.one_le_period (hperiod ▸ a.period.toNat_lt)
    (List.forall_mem_map.2 h) (List.getElem?_eq_some_iff.1 hclose).1

theorem isNaN_lowerEnvelope_iff (hfactor : c.factor.isFinite = true) (hpos : 0 < value c.factor)
    {k : Nat} {r : Reading} (hr : (c.readAll bars)[k]? = some r) :
    r.lowerEnvelope.isNaN = true ↔ k < c.period - 1 := by
  rw [(c.reading_of_readAll a bars hperiod hr).2.2, isNaN_mul_of_pos hfactor hpos]
  exact c.isNaN_average_iff a hperiod h hr

theorem isNaN_crossings_iff {k : Nat} {r : Reading} (hr : (c.readAll bars)[k]? = some r) :
    (r.crossUp.isNaN = true ↔ k < c.period) ∧ (r.crossDown.isNaN = true ↔ k < c.period) := by
  have hone := c.one_le_period
  cases k with
  | zero =>
    rw [c.sign_of_readAll_zero bars (c.map_crossUp_readAll bars) hr,
      c.sign_of_readAll_zero bars (c.map_crossDown_readAll bars) hr]
    exact ⟨iff_of_true (by decide) (by omega), iff_of_true (by decide) (by omega)⟩
  | succ k =>
    have hk : k + 1 < bars.length := by
      rw [← c.size_readAll bars]
      exact (Array.getElem?_eq_some_iff.1 hr).1
    obtain ⟨before, hbefore⟩ := c.exists_reading bars (Nat.lt_of_succ_lt hk)
    have hclose {i : Nat} {r : Reading} (hr : (c.readAll bars)[i]? = some r) :
        r.close.isNaN = false := by
      have hmem := List.mem_of_getElem? (c.reading_of_readAll a bars hperiod hr).1
      obtain ⟨b, hb, heq⟩ := List.mem_map.1 hmem
      rw [← heq]
      exact isNaN_of_isFinite (h b hb)
    have hup : r.crossUp = crossSign before.close before.average r.close r.average :=
      c.sign_of_readAll bars (c.map_crossUp_readAll bars) hbefore hr
    have hdown : r.crossDown = crossSign before.average before.close r.average r.close :=
      c.sign_of_readAll bars (c.map_crossDown_readAll bars) hbefore hr
    have haverage := c.isNaN_average_iff a hperiod h hr
    have haverage' := c.isNaN_average_iff a hperiod h hbefore
    rw [hup, hdown, isNaN_crossSign, isNaN_crossSign, hclose hr, hclose hbefore]
    simp only [Bool.or_false, Bool.false_or, Bool.or_eq_true, haverage, haverage']
    omega

end Channel

/-- What a channel of sound settings knows of finite closes, and what the series that are computed
from all of them hold: averages and envelopes are missing exactly before the first full window,
crossings also at its end, and nothing is known of positions that were not read. -/
theorem value?_readAll_eq_none_iff (s : SoundSettings) (bars : List Bar)
    (hfinite : ∀ b ∈ bars, b.close.isFinite = true) :
    ∃ c a e, Channel.make? s.cycleLength s.envelopePct = .ok c ∧
      MovingAverage.make? s.cycleLength = .ok a ∧
      LowerEnvelope.make? s.cycleLength s.envelopePct = .ok e ∧
      let readings := c.readAll bars
      let closes := bars.map (·.close)
      let width := s.cycleLength.toNat
      (∀ k < bars.length,
        (Channel.value? readings (·.average) k = none ↔ k < width - 1) ∧
        (Channel.value? readings (·.lowerEnvelope) k = none ↔ k < width - 1) ∧
        (Channel.value? readings (·.crossUp) k = none ↔ k < width) ∧
        (Channel.value? readings (·.crossDown) k = none ↔ k < width)) ∧
      (∀ (field : Reading → Float) (k : Nat), bars.length ≤ k →
        Channel.value? readings field k = none) ∧
      (a.lookback = width - 1 ∧ (a.values closes).map Float.isNaN =
        List.replicate (min bars.length a.lookback) true ++
          List.replicate (bars.length - a.lookback) false) ∧
      (e.lookback = width - 1 ∧ (e.values closes).map Float.isNaN =
        List.replicate (min bars.length e.lookback) true ++
          List.replicate (bars.length - e.lookback) false) := by
  have hpct : isEnvelopePct s.envelopePct = true := s.isInRange .envelopePct
  have hcloses : ∀ x ∈ bars.map (·.close), x.isFinite = true := List.forall_mem_map.2 hfinite
  let a : MovingAverage := ⟨s.cycleLength, s.one_le_cycleLength⟩
  let e : LowerEnvelope := ⟨a, s.envelopePct, hpct⟩
  have ha : MovingAverage.make? s.cycleLength = .ok a := dif_pos s.one_le_cycleLength
  have he : LowerEnvelope.make? s.cycleLength s.envelopePct = .ok e := by
    rw [LowerEnvelope.make?, dif_pos hpct, ha]
    rfl
  refine ⟨s.channel, a, e, s.make?_eq_channel, ha, he, ?_, ?_, ⟨rfl, ?_⟩, ⟨rfl, ?_⟩⟩
  · intro k hk
    obtain ⟨hfactor, hpos⟩ := loweringFactor_spec hpct
    obtain ⟨r, hr⟩ := s.channel.exists_reading bars hk
    obtain ⟨hup, hdown⟩ := s.channel.isNaN_crossings_iff a rfl hfinite hr
    rw [Channel.value?_eq_none_iff hr, Channel.value?_eq_none_iff hr,
      Channel.value?_eq_none_iff hr, Channel.value?_eq_none_iff hr]
    exact ⟨s.channel.isNaN_average_iff a rfl hfinite hr,
      s.channel.isNaN_lowerEnvelope_iff a rfl hfinite hfactor hpos hr, hup, hdown⟩
  · intro field k hk
    exact Channel.value?_of_size_le (by rwa [s.channel.size_readAll]) field
  · have hvalues := map_isNaN_eq fun k x hx => a.isNaN_values_iff hcloses hx
    rwa [a.length_values, List.length_map] at hvalues
  · have hvalues := map_isNaN_eq fun k x hx => e.isNaN_values_iff hcloses hx
    rwa [e.length_values, List.length_map] at hvalues

/-- The windows of two of the largest values overflow, and their averages are there all the same. -/
theorem value?_readAll_eq_none_iff_overflow :
    let largest : Float := Float.ofBits 0x7fefffffffffffff
    let bars : List Bar := [.quote 0 90 largest, .quote 1 90 largest, .quote 2 90 largest]
    ((∀ b ∈ bars, b.close.isFinite = true) ∧ (largest + largest).isFinite = false) ∧
      ∃ c, Channel.make? 2 2.0 = .ok c ∧
        Channel.value? (c.readAll bars) (·.average) 0 = none ∧
        Channel.value? (c.readAll bars) (·.average) 1 ≠ none ∧
        Channel.value? (c.readAll bars) (·.crossUp) 1 = none ∧
        Channel.value? (c.readAll bars) (·.crossUp) 2 ≠ none := by
  intro largest bars
  have hfinite : ∀ b ∈ bars, b.close.isFinite = true := by decide +kernel
  obtain ⟨c, a, e, hc, -, -, hdefined, -⟩ :=
    value?_readAll_eq_none_iff SoundSettings.brief bars hfinite
  obtain ⟨haverage₀, -, -, -⟩ := hdefined 0 (by decide)
  obtain ⟨haverage₁, -, hup₁, -⟩ := hdefined 1 (by decide)
  obtain ⟨-, -, hup₂, -⟩ := hdefined 2 (by decide)
  exact ⟨⟨hfinite, by decide +kernel⟩, c, hc, haverage₀.2 (by decide),
    fun hnone => absurd (haverage₁.1 hnone) (by decide), hup₁.2 (by decide),
    fun hnone => absurd (hup₂.1 hnone) (by decide)⟩

end TroughTrader.Market
