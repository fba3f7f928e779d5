import TroughTrader.Proofs.Binary64.Undefined
import TroughTrader.Proofs.Market.Bottom
import TroughTrader.Proofs.Market.Series

/-!
# Bottoms, from the closes alone

`meanUpTo` is the mean of the closes that end at a position: their sum from the left, over their
number. The average that a channel keeps at a position is this mean, once there are enough closes
(`reading_of_readAll`), and a crossing is kept where a close rises above its mean
(`zero_lt_crossUp_iff`). So the answers of `BottomRule.answers?`, which are given from readings, are
answers about the closes, with nothing undefined in them but not-a-number itself
(`answers?_readAll_iff`).
-/

namespace TroughTrader.Market

/-- The last `width` prices up to a position. -/
def windowUpTo (width : Nat) (closes : List Float) (k : Nat) : List Float :=
  (closes.drop (k + 1 - width)).take width

theorem length_windowUpTo {width k : Nat} {closes : List Float} (hfull : width ≤ k + 1)
    (hk : k < closes.length) : (windowUpTo width closes k).length = width := by
  rw [windowUpTo, List.length_take, List.length_drop]
  omega

def meanUpTo (width : Nat) (closes : List Float) (k : Nat) : Float :=
  (windowUpTo width closes k).foldl (· + ·) (-0.0) / Binary64.ofCount (UInt64.ofNat width)

theorem mean_windowUpTo {width k : Nat} {closes : List Float} (hfull : width ≤ k + 1)
    (hk : k < closes.length) : mean (windowUpTo width closes k) = meanUpTo width closes k := by
  rw [mean, length_windowUpTo hfull hk]
  rfl

/-- What a moving average has at a position: nothing before the first full window. -/
def averageUpTo (width : Nat) (closes : List Float) (k : Nat) : Float :=
  if width ≤ k + 1 then meanUpTo width closes k else Binary64.undefined

/-- The close at a position is above its mean, and the close before it is not above its own. There
is a whole window before the position. -/
def RisesAbove (width : Nat) (closes : List Float) (k : Nat) : Prop :=
  width ≤ k ∧ ∃ before now, closes[k - 1]? = some before ∧ closes[k]? = some now ∧
    before ≤ meanUpTo width closes (k - 1) ∧ meanUpTo width closes k < now

theorem MovingAverage.getElem?_values (a : MovingAverage) (closes : List Float) {k : Nat}
    (hk : k < closes.length) :
    (a.values closes)[k]? = some (averageUpTo a.period.toNat closes k) := by
  have hone := a.one_le_period
  unfold values averageUpTo lookback
  by_cases hfull : a.period.toNat ≤ k + 1
  · have hskip : min closes.length (a.period.toNat - 1) = a.period.toNat - 1 := by omega
    have hstart : k - (a.period.toNat - 1) = k + 1 - a.period.toNat := by omega
    have hwindow : k + 1 - a.period.toNat < closes.length + 1 - a.period.toNat := by omega
    rw [if_pos hfull, hskip,
      List.getElem?_append_right (by rw [List.length_replicate]; omega), List.length_replicate,
      hstart, List.getElem?_map, windows_eq_map_range hone, List.getElem?_map,
      List.getElem?_range hwindow, ← mean_windowUpTo hfull hk]
    rfl
  · rw [if_neg hfull, List.getElem?_append_left (by rw [List.length_replicate]; omega),
      List.getElem?_replicate, if_pos (by omega)]

theorem getElem?_pairSigns (ps : List (Float × Float)) {k : Nat} {p q : Float × Float}
    (hp : ps[k]? = some p) (hq : ps[k + 1]? = some q) :
    (pairSigns ps)[k]? = some (crossSign p.1 p.2 q.1 q.2) := by
  fun_induction pairSigns ps generalizing k with
  | case1 => cases hp
  | case2 x => cases hq
  | case3 x y rest ih =>
    cases k with
    | zero =>
      cases hp
      cases hq
      rfl
    | succ k => exact ih hp hq

theorem zero_lt_crossSign_iff (previousA previousB a b : Float) :
    0.0 < crossSign previousA previousB a b ↔ previousA ≤ previousB ∧ b < a := by
  have hnone : ¬ (0.0 : Float) < 0.0 := by decide +kernel
  have hone : (0.0 : Float) < 1.0 := by decide +kernel
  have hundefined : ¬ (0.0 : Float) < Binary64.undefined := by decide +kernel
  unfold crossSign
  split
  case isTrue hnan =>
    refine iff_of_false hundefined ?_
    rintro ⟨hle, hlt⟩
    simp only [Bool.or_eq_true] at hnan
    rcases hnan with ((hnan | hnan) | hnan) | hnan
    · exact Binary64.not_le_of_isNaN_left previousB hnan hle
    · exact Binary64.not_le_of_isNaN previousA hnan hle
    · exact Binary64.not_lt_of_isNaN b hnan hlt
    · exact Binary64.not_lt_of_isNaN_left a hnan hlt
  case isFalse =>
    split
    case isTrue hcross =>
      rw [Bool.and_eq_true, decide_eq_true_eq, decide_eq_true_eq] at hcross
      exact iff_of_true hone hcross
    case isFalse hcross =>
      rw [Bool.and_eq_true, decide_eq_true_eq, decide_eq_true_eq] at hcross
      exact iff_of_false hnone hcross

namespace Channel

variable (c : Channel) (a : MovingAverage) (bars : List Bar)

theorem getElem?_map_readAll {k : Nat} {r : Reading} (hr : (c.readAll bars)[k]? = some r)
    {field : Reading → Float} {values : List Float}
    (hvalues : (c.readAll bars).toList.map field = values) : values[k]? = some (field r) := by
  rw [← hvalues, List.getElem?_map, Array.getElem?_toList, hr]
  rfl

theorem exists_reading {k : Nat} (hk : k < bars.length) :
    ∃ r, (c.readAll bars)[k]? = some r := by
  rw [← c.size_readAll bars] at hk
  exact ⟨(c.readAll bars)[k], Array.getElem?_eq_getElem hk⟩

theorem reading_of_readAll (hperiod : c.period = a.period.toNat) {k : Nat} {r : Reading}
    (hr : (c.readAll bars)[k]? = some r) :
    (bars.map (·.close))[k]? = some r.close ∧
      r.average = averageUpTo c.period (bars.map (·.close)) k ∧
      r.lowerEnvelope = r.average * c.factor := by
  have hclose := c.getElem?_map_readAll bars hr (c.map_close_readAll bars)
  have haverage := c.getElem?_map_readAll bars hr (c.map_average_readAll a hperiod bars)
  have henvelope := c.getElem?_map_readAll bars hr (c.map_lowerEnvelope_readAll bars)
  have hk : k < (bars.map (·.close)).length := (List.getElem?_eq_some_iff.1 hclose).1
  rw [a.getElem?_values _ hk, ← hperiod, Option.some.injEq] at haverage
  rw [List.getElem?_map, Array.getElem?_toList, hr] at henvelope
  exact ⟨hclose, haverage.symm, (Option.some.inj henvelope).symm⟩

section Sign

variable {sign : Reading → Float} {pair : Reading → Float × Float}
  (hsigns : (c.readAll bars).toList.map sign = signs ((c.readAll bars).toList.map pair))
include hsigns

theorem sign_of_readAll {k : Nat} {before r : Reading}
    (hbefore : (c.readAll bars)[k]? = some before) (hr : (c.readAll bars)[k + 1]? = some r) :
    sign r = crossSign (pair before).1 (pair before).2 (pair r).1 (pair r).2 := by
  have hpair : ∀ {i : Nat} {r : Reading}, (c.readAll bars)[i]? = some r →
      ((c.readAll bars).toList.map pair)[i]? = some (pair r) := by
    intro i r hr
    rw [List.getElem?_map, Array.getElem?_toList, hr]
    rfl
  have hsign := c.getElem?_map_readAll bars hr hsigns
  have hempty : ((c.readAll bars).toList.map pair).isEmpty = false := by
    cases hlist : (c.readAll bars).toList.map pair with
    | nil => rw [← Array.getElem?_toList] at hr; simp_all
    | cons _ _ => rfl
  rw [signs, hempty, if_neg Bool.false_ne_true, List.getElem?_cons_succ,
    getElem?_pairSigns _ (hpair hbefore) (hpair hr)] at hsign
  exact (Option.some.inj hsign).symm

theorem sign_of_readAll_zero {r : Reading} (hr : (c.readAll bars)[0]? = some r) :
    sign r = Binary64.undefined := by
  have hsign := c.getElem?_map_readAll bars hr hsigns
  unfold signs at hsign
  split at hsign
  · cases hsign
  · exact (Option.some.inj hsign).symm

end Sign

theorem zero_lt_crossUp_iff (hperiod : c.period = a.period.toNat) {k : Nat} {r : Reading}
    (hr : (c.readAll bars)[k]? = some r) :
    0.0 < r.crossUp ↔ RisesAbove c.period (bars.map (·.close)) k := by
  have hone := c.one_le_period
  cases k with
  | zero =>
    rw [c.sign_of_readAll_zero bars (c.map_crossUp_readAll bars) hr]
    refine iff_of_false (by decide +kernel) ?_
    rintro ⟨hwidth, -⟩
    omega
  | succ k =>
    have hk : k < bars.length := by
      have hsize := (Array.getElem?_eq_some_iff.1 hr).1
      rw [c.size_readAll] at hsize
      omega
    obtain ⟨before, hbefore⟩ := c.exists_reading bars hk
    obtain ⟨hclose, haverage, -⟩ := c.reading_of_readAll a bars hperiod hr
    obtain ⟨hclose', haverage', -⟩ := c.reading_of_readAll a bars hperiod hbefore
    have hsign : r.crossUp = crossSign before.close before.average r.close r.average :=
      c.sign_of_readAll bars (c.map_crossUp_readAll bars) hbefore hr
    rw [hsign, zero_lt_crossSign_iff, haverage, haverage']
    constructor
    · rintro ⟨hle, hlt⟩
      by_cases hfull : c.period ≤ k + 1
      · rw [averageUpTo, if_pos hfull] at hle
        rw [averageUpTo, if_pos (by omega)] at hlt
        exact ⟨hfull, _, _, hclose', hclose, hle, hlt⟩
      · rw [averageUpTo, if_neg hfull] at hle
        exact absurd hle (Binary64.not_le_of_isNaN _ (by decide +kernel))
    · rintro ⟨hwidth, x, y, hx, hy, hle, hlt⟩
      rw [Nat.add_sub_cancel] at hx hle
      obtain rfl : before.close = x := Option.some.inj (hclose'.symm.trans hx)
      obtain rfl : r.close = y := Option.some.inj (hclose.symm.trans hy)
      rw [averageUpTo, averageUpTo, if_pos hwidth, if_pos (by omega)]
      exact ⟨hle, hlt⟩

theorem last?_lowerEnvelope_readAll (hperiod : c.period = a.period.toNat)
    (hfull : c.period ≤ bars.length) :
    last? (c.readAll bars) (·.lowerEnvelope) = Binary64.defined?
      (meanUpTo c.period (bars.map (·.close)) (bars.length - 1) * c.factor) := by
  have hone := c.one_le_period
  have hk : bars.length - 1 < bars.length := by omega
  obtain ⟨r, hr⟩ := c.exists_reading bars hk
  obtain ⟨-, haverage, henvelope⟩ := c.reading_of_readAll a bars hperiod hr
  have hback : (c.readAll bars).back? = some r := by
    rw [Array.back?_eq_getElem?, c.size_readAll, hr]
  rw [last?, hback, Option.bind_some, henvelope, haverage, averageUpTo, if_pos (by omega)]

end Channel
end TroughTrader.Market

namespace TroughTrader.BottomRule

open Market

variable (c : Channel) (a : MovingAverage) (bars : List Bar)

theorem dips_readAll_iff (hperiod : c.period = a.period.toNat) (hfull : c.period ≤ bars.length)
    (low : Float) {envelope : Float}
    (henvelope : envelope = meanUpTo c.period (bars.map (·.close)) (bars.length - 1) * c.factor) :
    dips low (c.readAll bars) = true ↔
      envelope.isNaN = false ∧ low ≤ envelope * dipTolerance := by
  rw [dips, c.last?_lowerEnvelope_readAll a bars hperiod hfull, ← henvelope, Binary64.defined?]
  by_cases hnan : envelope.isNaN = true
  · rw [if_pos hnan, hnan]
    simp
  · rw [if_neg hnan, Bool.eq_false_iff.2 hnan]
    simp

theorem crossedAbove_readAll_iff (hperiod : c.period = a.period.toNat) {lag : Nat}
    (hlag : lag < bars.length) :
    crossedAbove lag (c.readAll bars) = true ↔
      RisesAbove c.period (bars.map (·.close)) (bars.length - 1 - lag) := by
  have hk : bars.length - 1 - lag < bars.length := by omega
  obtain ⟨r, hr⟩ := c.exists_reading bars hk
  rw [← c.zero_lt_crossUp_iff a bars hperiod hr, crossedAbove, c.size_readAll, if_pos hlag,
    Channel.value?, hr, Option.bind_some, Binary64.any_defined?, decide_eq_true_eq]
  intro x hx
  exact decide_eq_false (Binary64.not_lt_of_isNaN 0.0 hx)

theorem isSpaced_iff (minGap index : UInt64) (lastEntry : Option UInt64) :
    isSpaced minGap index lastEntry = true ↔
      ∀ last ∈ lastEntry, last.toNat + minGap.toNat < index.toNat := by
  cases lastEntry <;> simp [isSpaced]

theorem answers?_readAll (rule : BottomRule) (hone : 1 ≤ rule.requiredBars) (bar : Bar)
    (lastEntry : Option UInt64) :
    rule.answers? bar (c.readAll bars) lastEntry =
      if bars.length < rule.requiredBars then none
      else some
        { dips := dips bar.low (c.readAll bars)
          crossed := crossedAbove rule.confirmBars (c.readAll bars)
          spaced := isSpaced rule.minGap bar.index lastEntry } := by
  rw [answers?, c.size_readAll]
  by_cases hlt : bars.length < rule.requiredBars
  · rw [if_pos (Or.inl hlt), if_pos hlt]
  · have hempty : ¬ (c.readAll bars).isEmpty = true := by
      rw [Array.isEmpty_iff_size_eq_zero, c.size_readAll]
      omega
    rw [if_neg (not_or.2 ⟨hlt, hempty⟩), if_neg hlt]

/-- A bottom is what the three answers say it is, and nothing else is missing for one. -/
theorem bottom?_eq_some_iff {rule : BottomRule} {bar : Bar} {readings : Array Reading}
    {lastEntry : Option UInt64} {envelope : Float}
    (hlast : ∀ answers, rule.answers? bar readings lastEntry = some answers →
      Channel.last? readings (·.lowerEnvelope) = Binary64.defined? envelope ∧
        (answers.dips = true → envelope.isNaN = false)) (bottom : Bottom) :
    rule.bottom? bar readings lastEntry = some bottom ↔
      ∃ answers, rule.answers? bar readings lastEntry = some answers ∧ answers.dips = true ∧
        answers.crossed = true ∧ answers.spaced = true ∧
        bottom = ⟨bar.index, bar.date, bar.close, bar.low, envelope⟩ := by
  constructor
  · intro h
    obtain ⟨answers, ha, hb, he, heq⟩ := eq_of_bottom? h
    rw [(hlast answers ha).1] at he
    rw [(Binary64.defined?_eq_some he).1] at heq
    rw [BottomAnswers.isBottom, Bool.and_eq_true, Bool.and_eq_true] at hb
    exact ⟨answers, ha, hb.1.1, hb.1.2, hb.2, heq⟩
  · rintro ⟨answers, ha, hdips, hcrossed, hspaced, rfl⟩
    obtain ⟨he, hdefined⟩ := hlast answers ha
    have hnan : ¬ envelope.isNaN = true := by rw [hdefined hdips]; exact Bool.false_ne_true
    rw [bottom?, ha, Option.bind_eq_bind, Option.bind_some, BottomAnswers.isBottom, hdips, hcrossed,
      hspaced, if_pos (by decide), he, Binary64.defined?, if_neg hnan]
    rfl

/-- What the rule of some settings says of a bar, after a channel with their numbers has read a list
of bars, as a fact about the closes of the list. There is no answer exactly while the list is
shorter than the cycle or than the lag with the bar itself. A bottom has its three answers and the
lowered last mean, and it takes a whole cycle, a bar that rises, and the lag after it. -/
theorem answers?_readAll_iff (s : Settings) (hcycle : 1 ≤ s.cycleLength.toNat) (bars : List Bar)
    (bar : Bar) (lastEntry : Option UInt64) :
    ∃ c, Channel.make? s.cycleLength s.envelopePct = .ok c ∧
      let rule := BottomRule.ofSettings s
      let closes := bars.map (·.close)
      let width := s.cycleLength.toNat
      let lag := s.confirmBars.toNat
      let envelope := meanUpTo width closes (bars.length - 1) * (1.0 - s.envelopePct / 100.0)
      (rule.answers? bar (c.readAll bars) lastEntry = none ↔ bars.length < max width (lag + 1)) ∧
        (∀ answers, rule.answers? bar (c.readAll bars) lastEntry = some answers →
          (answers.dips = true ↔ envelope.isNaN = false ∧ bar.low ≤ envelope * 1.005) ∧
            (answers.crossed = true ↔ RisesAbove width closes (bars.length - 1 - lag)) ∧
            (answers.spaced = true ↔
              ∀ last ∈ lastEntry, last.toNat + s.minGap.toNat < bar.index.toNat)) ∧
        (∀ bottom, rule.bottom? bar (c.readAll bars) lastEntry = some bottom ↔
          ∃ answers, rule.answers? bar (c.readAll bars) lastEntry = some answers ∧
            answers.dips = true ∧ answers.crossed = true ∧ answers.spaced = true ∧
            bottom = ⟨bar.index, bar.date, bar.close, bar.low, envelope⟩) ∧
        ∀ bottom, rule.bottom? bar (c.readAll bars) lastEntry = some bottom →
          width + lag + 1 ≤ bars.length := by
  let c : Channel := ⟨s.cycleLength.toNat, hcycle, s.envelopeFactor⟩
  let a : MovingAverage := ⟨s.cycleLength, hcycle⟩
  refine ⟨c, dif_pos hcycle, ?_⟩
  intro rule closes width lag envelope
  have henough : rule.answers? bar (c.readAll bars) lastEntry =
      if bars.length < max width (lag + 1) then none
      else some ⟨dips bar.low (c.readAll bars), crossedAbove lag (c.readAll bars),
        isSpaced s.minGap bar.index lastEntry⟩ :=
    answers?_readAll c bars rule (Nat.le_trans hcycle (Nat.le_max_left _ _)) bar lastEntry
  have hanswers : ∀ answers, rule.answers? bar (c.readAll bars) lastEntry = some answers →
      max width (lag + 1) ≤ bars.length ∧
        (answers.dips = true ↔ envelope.isNaN = false ∧ bar.low ≤ envelope * 1.005) ∧
        (answers.crossed = true ↔ RisesAbove width closes (bars.length - 1 - lag)) ∧
        (answers.spaced = true ↔
          ∀ last ∈ lastEntry, last.toNat + s.minGap.toNat < bar.index.toNat) := by
    intro answers h
    rw [henough] at h
    split at h
    · cases h
    · cases h
      have hle : max width (lag + 1) ≤ bars.length := by omega
      exact ⟨hle, dips_readAll_iff c a bars rfl (Nat.le_trans (Nat.le_max_left _ _) hle) bar.low rfl,
        crossedAbove_readAll_iff c a bars rfl (Nat.le_trans (Nat.le_max_right _ _) hle),
        isSpaced_iff _ _ _⟩
  have hlast : ∀ answers, rule.answers? bar (c.readAll bars) lastEntry = some answers →
      Channel.last? (c.readAll bars) (·.lowerEnvelope) = Binary64.defined? envelope ∧
        (answers.dips = true → envelope.isNaN = false) := by
    intro answers h
    obtain ⟨hle, hdips, -⟩ := hanswers answers h
    exact ⟨c.last?_lowerEnvelope_readAll a bars rfl (Nat.le_trans (Nat.le_max_left _ _) hle),
      fun hd => (hdips.1 hd).1⟩
  have hbottom := bottom?_eq_some_iff hlast
  refine ⟨?_, fun answers h => (hanswers answers h).2, hbottom, ?_⟩
  · rw [henough]
    split <;> simp_all
  · intro bottom h
    obtain ⟨answers, ha, -, hcrossed, -⟩ := (hbottom bottom).1 h
    obtain ⟨hle, -, hrises, -⟩ := hanswers answers ha
    have hwidth := (hrises.1 hcrossed).1
    omega

/-- A bar that dips one bar after the close rose above the average of two: the fewest bars with
which such settings can see a bottom. -/
theorem answers?_readAll_iff_fewest :
    let s : Settings := { Settings.standard with cycleLength := 2 }
    let quote (low close : Float) : Bar := ⟨7, ⟨2024, 1, 2, by decide⟩, close, close, low, close⟩
    let bars := [quote 90.0 100.0, quote 90.0 100.0, quote 90.0 101.0, quote 90.0 100.0]
    1 ≤ s.cycleLength.toNat ∧ ∃ c, Channel.make? s.cycleLength s.envelopePct = .ok c ∧
      ((BottomRule.ofSettings s).bottom? (quote 90.0 100.0) (c.readAll bars) none).isSome = true ∧
      s.cycleLength.toNat + s.confirmBars.toNat + 1 ≤ bars.length := by
  intro s quote bars
  have hcycle : 1 ≤ s.cycleLength.toNat := by decide
  obtain ⟨c, hc, -, -, -, hfewest⟩ := answers?_readAll_iff s hcycle bars (quote 90.0 100.0) none
  obtain rfl : ⟨2, by decide, s.envelopeFactor⟩ = c := Except.ok.inj hc
  have hsome : ((BottomRule.ofSettings s).bottom? (quote 90.0 100.0)
      (Channel.readAll ⟨2, by decide, s.envelopeFactor⟩ bars) none).isSome = true := by
    decide +kernel
  obtain ⟨bottom, hbottom⟩ := Option.isSome_iff_exists.1 hsome
  exact ⟨hcycle, _, hc, hsome, hfewest bottom hbottom⟩

end TroughTrader.BottomRule
