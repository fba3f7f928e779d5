import Mathlib.Data.List.Induction
import TroughTrader.Market.Channel

/-!
# The channel against whole series

`Channel.updateAll` reads a list of bars one by one. It gives each of them its position
(`positions_updateAll`), and the readings after them (`readAll`) hold the `Series` that all closes
have at once (`series?_eq`): the closes are those of the bars, the averages are the moving average
of the closes (`map_average_readAll`), and the crossings are those of these two series
(`crossSigns_readAll`). Each is shown for one more bar at the end: a longer series has the same
windows and steps as the shorter one, and one more.
-/

namespace TroughTrader.Market

/-- The windows are the runs that start at each position with enough prices after it. -/
theorem windows_eq_map_range {width : Nat} (h : 1 ≤ width) (closes : List Float) :
    windows width closes =
      (List.range (closes.length + 1 - width)).map fun i => (closes.drop i).take width := by
  induction closes with
  | nil =>
    have hzero : ([] : List Float).length + 1 - width = 0 := by simp only [List.length_nil]; omega
    rw [windows, hzero]
    rfl
  | cons x rest ih =>
    by_cases hfull : width ≤ rest.length + 1
    · have hlen : ((x :: rest).take width).length = width :=
        List.length_take_of_le (by simpa only [List.length_cons] using hfull)
      have hsucc : (x :: rest).length + 1 - width = rest.length + 1 - width + 1 := by
        simp only [List.length_cons]
        omega
      rw [windows, if_pos hlen, ih, hsucc, List.range_succ_eq_map, List.map_cons, List.map_map]
      rfl
    · have hlen : ¬ ((x :: rest).take width).length = width := by
        simp only [List.length_take, List.length_cons]
        omega
      have hzero : (x :: rest).length + 1 - width = 0 := by
        simp only [List.length_cons]
        omega
      rw [windows, if_neg hlen, hzero]
      rfl

theorem windows_concat {width : Nat} (h : 1 ≤ width) (closes : List Float) (x : Float) :
    windows width (closes ++ [x]) = windows width closes ++
      if width ≤ closes.length + 1 then [closes.drop (closes.length + 1 - width) ++ [x]] else [] := by
  rw [windows_eq_map_range h, windows_eq_map_range h, List.length_append, List.length_singleton]
  by_cases hfull : width ≤ closes.length + 1
  · have hsucc : closes.length + 1 + 1 - width = closes.length + 1 - width + 1 := by omega
    rw [if_pos hfull, hsucc, List.range_succ, List.map_append]
    congr 1
    · apply List.map_congr_left
      intro i hi
      rw [List.mem_range] at hi
      rw [List.drop_append_of_le_length (by omega), List.take_append_of_le_length]
      rw [List.length_drop]
      omega
    · rw [List.map_singleton, List.drop_append_of_le_length (by omega), List.take_of_length_le]
      rw [List.length_append, List.length_drop, List.length_singleton]
      omega
  · have hzero : closes.length + 1 + 1 - width = 0 := by omega
    have hzero' : closes.length + 1 - width = 0 := by omega
    rw [if_neg hfull, hzero, hzero', List.append_nil, List.range_zero, List.map_nil, List.map_nil]

theorem MovingAverage.values_concat (a : MovingAverage) (closes : List Float) (x : Float) :
    a.values (closes ++ [x]) = a.values closes ++
      [if a.period.toNat ≤ closes.length + 1 then
          mean (closes.drop (closes.length + 1 - a.period.toNat) ++ [x])
        else Binary64.undefined] := by
  have hone := a.one_le_period
  rw [values, values, windows_concat hone, List.length_append, List.length_singleton]
  by_cases hfull : a.period.toNat ≤ closes.length + 1
  · have hmin : min (closes.length + 1) a.lookback = min closes.length a.lookback := by
      simp only [lookback]
      omega
    rw [if_pos hfull, if_pos hfull, hmin, List.map_append, List.append_assoc]
    rfl
  · have hempty : windows a.period.toNat closes = [] := by
      apply List.eq_nil_of_length_eq_zero
      rw [length_windows hone]
      omega
    have hmin : min (closes.length + 1) a.lookback = min closes.length a.lookback + 1 := by
      simp only [lookback]
      omega
    rw [if_neg hfull, if_neg hfull, hempty, hmin, List.replicate_succ', List.append_nil,
      List.map_nil, List.append_nil, List.append_nil]

theorem pairSigns_concat (ps : List (Float × Float)) (p q : Float × Float) :
    pairSigns (ps ++ [p] ++ [q]) = pairSigns (ps ++ [p]) ++ [crossSign p.1 p.2 q.1 q.2] := by
  induction ps with
  | nil => rfl
  | cons x rest ih =>
    cases rest with
    | nil => rfl
    | cons y rest =>
      simp only [List.cons_append] at ih ⊢
      rw [pairSigns, pairSigns, ih, List.cons_append]

/-- The signs of the steps of a series of pairs, undefined at the first position. -/
def signs (ps : List (Float × Float)) : List Float :=
  if ps.isEmpty then [] else Binary64.undefined :: pairSigns ps

theorem signs_concat (ps : List (Float × Float)) (q : Float × Float) :
    signs (ps ++ [q]) = signs ps ++
      [match ps.getLast? with
        | none => Binary64.undefined
        | some p => crossSign p.1 p.2 q.1 q.2] := by
  rcases List.eq_nil_or_concat ps with rfl | ⟨front, p, rfl⟩
  · rfl
  · simp [signs, pairSigns_concat, -List.append_assoc]

theorem crossSigns_eq_signs {a b : List Float} (h : a.length = b.length) :
    crossSigns a b = .ok (signs (a.zip b)) := by
  have hempty : (a.zip b).isEmpty = a.isEmpty := by
    cases a <;> cases b <;> simp_all
  rw [crossSigns, if_pos h, signs, hempty]

/-- The series over a list of bars, one value a bar in each. -/
structure Series where
  average : List Float
  lowerEnvelope : List Float
  crossUp : List Float
  crossDown : List Float

/-- The series of all closes at once: their moving average, the envelope below it, and their
crossings with the average. -/
def LowerEnvelope.series? (e : LowerEnvelope) (bars : List Bar) : Except Precondition Series := do
  let closes := bars.map (·.close)
  let averages := e.average.values closes
  let up ← crossSigns closes averages
  let down ← crossSigns averages closes
  return ⟨averages, e.values closes, up, down⟩

namespace Series

def lastEnvelope (series : Series) : Float := series.lowerEnvelope.getLastD Binary64.undefined

def lastDown (series : Series) : Float := series.crossDown.getLastD Binary64.undefined

def ofReadings (readings : Array Reading) : Series where
  average := readings.toList.map (·.average)
  lowerEnvelope := readings.toList.map (·.lowerEnvelope)
  crossUp := readings.toList.map (·.crossUp)
  crossDown := readings.toList.map (·.crossDown)

end Series

namespace Channel

variable (c : Channel)

/-- A list of bars is read: the positions that the updates return, and the readings after them. -/
def updateAll (readings : Array Reading) : List Bar → List Nat × Array Reading
  | [] => ([], readings)
  | bar :: bars =>
    let (position, readings) := c.update readings bar
    let (positions, readings) := updateAll readings bars
    (position :: positions, readings)

theorem positions_updateAll (readings : Array Reading) (bars : List Bar) :
    (c.updateAll readings bars).1 = List.range' readings.size bars.length := by
  induction bars generalizing readings with
  | nil => rfl
  | cons bar bars ih =>
    have hrest := ih (c.push readings bar)
    rw [size_push] at hrest
    rw [List.length_cons, List.range'_succ, ← hrest]
    rfl

theorem readings_updateAll (readings : Array Reading) (bars : List Bar) :
    (c.updateAll readings bars).2 = bars.foldl c.push readings := by
  induction bars generalizing readings with
  | nil => rfl
  | cons bar bars ih => exact ih (c.push readings bar)

def readAll (bars : List Bar) : Array Reading := (c.updateAll #[] bars).2

theorem readAll_concat (bars : List Bar) (bar : Bar) :
    c.readAll (bars ++ [bar]) = c.push (c.readAll bars) bar := by
  rw [readAll, readAll, readings_updateAll, readings_updateAll, List.foldl_append, List.foldl_cons,
    List.foldl_nil]

theorem toList_readAll_concat (bars : List Bar) (bar : Bar) :
    (c.readAll (bars ++ [bar])).toList =
      (c.readAll bars).toList ++ [c.reading (c.readAll bars) bar] := by
  rw [readAll_concat, push_eq, Array.toList_push]

theorem low_reading (readings : Array Reading) (bar : Bar) :
    (c.reading readings bar).low = bar.low := rfl

theorem map_close_readAll (bars : List Bar) :
    (c.readAll bars).toList.map (·.close) = bars.map (·.close) := by
  induction bars using List.reverseRecOn with
  | nil => rfl
  | append_singleton bars bar ih =>
    rw [toList_readAll_concat, List.map_append, List.map_append, ih]
    rfl

theorem size_readAll (bars : List Bar) : (c.readAll bars).size = bars.length := by
  have hlen := congrArg List.length (c.map_close_readAll bars)
  simpa using hlen

theorem lastCloses_readAll (count : Nat) (bars : List Bar) :
    lastCloses count (c.readAll bars) = (bars.map (·.close)).drop (bars.length - count) := by
  rw [lastCloses, Array.toList_extract, List.extract_eq_take_drop, List.map_take, List.map_drop,
    c.map_close_readAll, c.size_readAll]
  apply List.take_of_length_le
  simp

theorem map_average_readAll (a : MovingAverage) (h : c.period = a.period.toNat) (bars : List Bar) :
    (c.readAll bars).toList.map (·.average) = a.values (bars.map (·.close)) := by
  induction bars using List.reverseRecOn with
  | nil => simp [readAll, updateAll, MovingAverage.values, windows]
  | append_singleton bars bar ih =>
    have hlast : (c.reading (c.readAll bars) bar).average =
        if a.period.toNat ≤ bars.length + 1 then
          mean ((bars.map (·.close)).drop (bars.length + 1 - a.period.toNat) ++ [bar.close])
        else Binary64.undefined := by
      have hone := a.one_le_period
      have hstart : bars.length - (a.period.toNat - 1) = bars.length + 1 - a.period.toNat := by
        omega
      change c.averageWith (c.readAll bars) bar.close = _
      rw [averageWith, h, c.size_readAll, c.lastCloses_readAll, hstart]
    rw [toList_readAll_concat, List.map_append, List.map_append, ih, List.map_singleton,
      List.map_singleton, a.values_concat, List.length_map, hlast]

theorem map_lowerEnvelope_readAll (bars : List Bar) :
    (c.readAll bars).toList.map (·.lowerEnvelope) =
      (c.readAll bars).toList.map fun r => r.average * c.factor := by
  induction bars using List.reverseRecOn with
  | nil => rfl
  | append_singleton bars bar ih =>
    rw [toList_readAll_concat, List.map_append, List.map_append, ih]
    rfl

/-- A sign that compares each reading with the one before it. -/
theorem map_sign_readAll (sign : Reading → Float) (pair : Reading → Float × Float)
    (hsign : ∀ (readings : Array Reading) (bar : Bar), sign (c.reading readings bar) =
      match readings.back? with
      | none => Binary64.undefined
      | some last => crossSign (pair last).1 (pair last).2 (pair (c.reading readings bar)).1
          (pair (c.reading readings bar)).2) (bars : List Bar) :
    (c.readAll bars).toList.map sign = signs ((c.readAll bars).toList.map pair) := by
  induction bars using List.reverseRecOn with
  | nil => rfl
  | append_singleton bars bar ih =>
    rw [toList_readAll_concat, List.map_append, List.map_append, ih, List.map_singleton,
      List.map_singleton, signs_concat, List.getLast?_map, Array.getLast?_toList, hsign]
    cases (c.readAll bars).back? <;> rfl

theorem map_crossUp_readAll (bars : List Bar) :
    (c.readAll bars).toList.map (·.crossUp) =
      signs ((c.readAll bars).toList.map fun r => (r.close, r.average)) :=
  c.map_sign_readAll (·.crossUp) (fun r => (r.close, r.average))
    (fun readings bar => by simp only [reading]; cases readings.back? <;> rfl) bars

theorem map_crossDown_readAll (bars : List Bar) :
    (c.readAll bars).toList.map (·.crossDown) =
      signs ((c.readAll bars).toList.map fun r => (r.average, r.close)) :=
  c.map_sign_readAll (·.crossDown) (fun r => (r.average, r.close))
    (fun readings bar => by simp only [reading]; cases readings.back? <;> rfl) bars

theorem crossSigns_readAll (a : MovingAverage) (h : c.period = a.period.toNat) (bars : List Bar) :
    crossSigns (bars.map (·.close)) (a.values (bars.map (·.close))) =
        .ok ((c.readAll bars).toList.map (·.crossUp)) ∧
      crossSigns (a.values (bars.map (·.close))) (bars.map (·.close)) =
        .ok ((c.readAll bars).toList.map (·.crossDown)) := by
  rw [c.map_crossUp_readAll, c.map_crossDown_readAll,
    crossSigns_eq_signs (a.length_values _).symm, crossSigns_eq_signs (a.length_values _),
    ← c.map_average_readAll a h bars, ← c.map_close_readAll bars, List.zip_map', List.zip_map']
  exact ⟨rfl, rfl⟩

theorem map_lowerEnvelope_readAll_eq (e : LowerEnvelope)
    (hperiod : c.period = e.average.period.toNat) (hfactor : c.factor = loweringFactor e.pct)
    (bars : List Bar) :
    (c.readAll bars).toList.map (·.lowerEnvelope) = e.values (bars.map (·.close)) := by
  have haverage := c.map_average_readAll e.average hperiod bars
  rw [c.map_lowerEnvelope_readAll, LowerEnvelope.values, ← haverage, List.map_map, hfactor]
  rfl

end Channel

theorem LowerEnvelope.series?_eq (e : LowerEnvelope) (c : Channel)
    (hperiod : c.period = e.average.period.toNat) (hfactor : c.factor = loweringFactor e.pct)
    (bars : List Bar) : e.series? bars = .ok (.ofReadings (c.readAll bars)) := by
  obtain ⟨hup, hdown⟩ := c.crossSigns_readAll e.average hperiod bars
  simp only [series?, hup, hdown, Series.ofReadings, c.map_average_readAll e.average hperiod,
    c.map_lowerEnvelope_readAll_eq e hperiod hfactor]
  rfl

end TroughTrader.Market
