import TroughTrader.Market.Bottom

/-!
# The channel on checked counts

A channel can keep its six series side by side and find its way in them by 64-bit counts. Here every
sum, difference and access is one that can fail (`Mishap`), a void bar is refused, and so is a row
that one of the series lacks. `Columns.push?` never fails on the columns of a channel's readings that
are fewer than a count can say, and gives the columns of the readings with one more bar
(`push?_ofReadings`); the questions about a bottom do not fail either (`answers?_ofReadings`).
-/

namespace TroughTrader

/-- What goes wrong with a count, with a position or with the bar that is read. -/
inductive Mishap where
  | overflow
  | underflow
  | outside
  | voidBar
  deriving DecidableEq

namespace Checked

def add? (a b : UInt64) : Except Mishap UInt64 :=
  if a.toNat + b.toNat < UInt64.size then .ok (a + b) else .error .overflow

def sub? (a b : UInt64) : Except Mishap UInt64 :=
  if b ≤ a then .ok (a - b) else .error .underflow

def size? (series : Array Float) : Except Mishap UInt64 :=
  if series.size < UInt64.size then .ok (UInt64.ofNat series.size) else .error .overflow

def item? (series : Array Float) (position : UInt64) : Except Mishap Float :=
  match series[position.toNat]? with
  | some x => .ok x
  | none => .error .outside

/-- The values from the first position to the last one, both included. -/
def slice? (series : Array Float) (first last : UInt64) : Except Mishap (List Float) :=
  if first.toNat ≤ last.toNat + 1 ∧ last.toNat < series.size ∧ last.toNat + 1 < UInt64.size then
    .ok (series.extract first.toNat (last.toNat + 1)).toList
  else .error .outside

section

variable {a b : UInt64} {series : Array Float}

theorem add?_eq (h : a.toNat + b.toNat < UInt64.size) : add? a b = .ok (a + b) := if_pos h

theorem sub?_eq (h : b ≤ a) : sub? a b = .ok (a - b) := if_pos h

theorem size?_eq (h : series.size < UInt64.size) :
    size? series = .ok (UInt64.ofNat series.size) := if_pos h

theorem item?_eq {position : UInt64} {x : Float} (h : series[position.toNat]? = some x) :
    item? series position = .ok x := by
  rw [item?, h]

end

end Checked

namespace Market

open Checked

/-- The series of a channel side by side, with one value a bar. -/
structure Columns where
  close : Array Float
  low : Array Float
  average : Array Float
  lowerEnvelope : Array Float
  crossUp : Array Float
  crossDown : Array Float

namespace Columns

def ofReadings (readings : Array Reading) : Columns where
  close := readings.map (·.close)
  low := readings.map (·.low)
  average := readings.map (·.average)
  lowerEnvelope := readings.map (·.lowerEnvelope)
  crossUp := readings.map (·.crossUp)
  crossDown := readings.map (·.crossDown)

def averageAt? (period : UInt64) (close : Array Float) (position : UInt64) :
    Except Mishap Float := do
  let count ← add? position 1
  if period ≤ count then
    let first ← sub? count period
    return mean (← slice? close first position)
  else return Binary64.undefined

/-- The signs of the step from the position before to this one. -/
def signsAt? (close average : Array Float) (position : UInt64) (x m : Float) :
    Except Mishap (Float × Float) := do
  if position = 0 then return (Binary64.undefined, Binary64.undefined)
  else
    let before ← sub? position 1
    let previousClose ← item? close before
    let previousAverage ← item? average before
    return (crossSign previousClose previousAverage x m, crossSign previousAverage previousClose m x)

def push? (period : UInt64) (factor : Float) (columns : Columns) (bar : Bar) :
    Except Mishap Columns := do
  if bar.isVoid then throw .voidBar
  let position ← size? columns.close
  let close := columns.close.push bar.close
  let m ← averageAt? period close position
  let average := columns.average.push m
  let (up, down) ← signsAt? close average position bar.close m
  return {
    close
    low := columns.low.push bar.low
    average
    lowerEnvelope := columns.lowerEnvelope.push (m * factor)
    crossUp := columns.crossUp.push up
    crossDown := columns.crossDown.push down }

def row? (columns : Columns) (position : Nat) : Except Mishap Reading := do
  let position := UInt64.ofNat position
  let close ← item? columns.close position
  let low ← item? columns.low position
  let average ← item? columns.average position
  let lowerEnvelope ← item? columns.lowerEnvelope position
  let crossUp ← item? columns.crossUp position
  let crossDown ← item? columns.crossDown position
  return ⟨close, low, average, lowerEnvelope, crossUp, crossDown⟩

def rows? (columns : Columns) : Except Mishap (Array Reading) := do
  let rows ← (List.range columns.close.size).mapM columns.row?
  return rows.toArray

theorem toNat_ofNat_size {readings : Array Reading} (h : readings.size < UInt64.size) :
    (UInt64.ofNat readings.size).toNat = readings.size :=
  UInt64.toNat_ofNat_of_lt' h

section

variable {readings : Array Reading}

/-- The slice that ends at a new close holds the closes before it that the average is about. -/
theorem slice?_push {first : UInt64} (h : readings.size + 1 < UInt64.size)
    (hfirst : first.toNat ≤ readings.size) (x : Float) :
    slice? ((readings.map (·.close)).push x) first (UInt64.ofNat readings.size) =
      .ok (Channel.lastCloses (readings.size - first.toNat) readings ++ [x]) := by
  have hsize : (UInt64.ofNat readings.size).toNat = readings.size := toNat_ofNat_size (by omega)
  have hstart : readings.size - (readings.size - first.toNat) = first.toNat := by omega
  have hlen : ((readings.toList.map (·.close)).drop first.toNat).length =
      readings.size - first.toNat := by simp
  rw [slice?, hsize, if_pos ⟨by omega, by simp, h⟩, Channel.lastCloses, hstart]
  simp only [Array.toList_extract, List.extract_eq_take_drop, Array.toList_push,
    Array.toList_map, List.map_take, List.map_drop]
  rw [List.drop_append_of_le_length (by simpa using hfirst), List.take_of_length_le,
    List.take_of_length_le (Nat.le_of_eq hlen)]
  rw [List.length_append, hlen, List.length_singleton]
  omega

theorem averageAt?_ofReadings (c : Channel) {period : UInt64} (hperiod : c.period = period.toNat)
    (h : readings.size + 1 < UInt64.size) (x : Float) :
    averageAt? period ((readings.map (·.close)).push x) (UInt64.ofNat readings.size) =
      .ok (c.averageWith readings x) := by
  have hone := c.one_le_period
  have hsize : (UInt64.ofNat readings.size).toNat = readings.size := toNat_ofNat_size (by omega)
  have hcount : (UInt64.ofNat readings.size + 1).toNat = readings.size + 1 := by
    rw [UInt64.toNat_add, hsize]
    exact Nat.mod_eq_of_lt h
  have hle : period ≤ UInt64.ofNat readings.size + 1 ↔ c.period ≤ readings.size + 1 := by
    rw [UInt64.le_iff_toNat_le, hcount, hperiod]
  rw [averageAt?, add?_eq (by rw [hsize]; exact h), Channel.averageWith]
  change (if period ≤ UInt64.ofNat readings.size + 1 then _ else _) = _
  by_cases henough : c.period ≤ readings.size + 1
  · have hfirst : (UInt64.ofNat readings.size + 1 - period).toNat = readings.size + 1 - c.period := by
      rw [UInt64.toNat_sub_of_le _ _ (hle.2 henough), hcount, hperiod]
    have hcloses : readings.size - (readings.size + 1 - c.period) = c.period - 1 := by omega
    rw [if_pos (hle.2 henough), if_pos henough, sub?_eq (hle.2 henough)]
    change (slice? _ _ _ >>= fun window => pure (mean window)) = _
    rw [slice?_push h (by rw [hfirst]; omega), hfirst, hcloses]
    rfl
  · rw [if_neg (mt hle.1 henough), if_neg henough]
    rfl

theorem signsAt?_ofReadings (h : readings.size < UInt64.size) (x m : Float) :
    signsAt? ((readings.map (·.close)).push x) ((readings.map (·.average)).push m)
        (UInt64.ofNat readings.size) x m =
      .ok (match readings.back? with
        | none => (Binary64.undefined, Binary64.undefined)
        | some last =>
          (crossSign last.close last.average x m, crossSign last.average last.close m x)) := by
  have hsize := toNat_ofNat_size h
  have hzero : UInt64.ofNat readings.size = 0 ↔ readings.size = 0 := by
    rw [← UInt64.toNat_inj, hsize]
    rfl
  rw [signsAt?, Array.back?_eq_getElem?]
  by_cases hempty : readings.size = 0
  · rw [if_pos (hzero.2 hempty), Array.getElem?_eq_none (by omega)]
    rfl
  · have hone : 1 ≤ UInt64.ofNat readings.size := by
      rw [UInt64.le_iff_toNat_le, hsize]
      exact Nat.pos_of_ne_zero hempty
    have hbefore : (UInt64.ofNat readings.size - 1).toNat = readings.size - 1 := by
      rw [UInt64.toNat_sub_of_le _ _ hone, hsize]
      rfl
    obtain ⟨last, hlast⟩ : ∃ last, readings[readings.size - 1]? = some last :=
      ⟨_, Array.getElem?_eq_getElem (by omega)⟩
    have hkept (field : Reading → Float) (y : Float) :
        ((readings.map field).push y)[(UInt64.ofNat readings.size - 1).toNat]? =
          some (field last) := by
      rw [hbefore, Array.getElem?_push, if_neg (by rw [Array.size_map]; omega),
        Array.getElem?_map, hlast]
      rfl
    rw [if_neg (mt hzero.1 hempty), hlast, sub?_eq hone]
    change (item? _ _ >>= fun previousClose => item? _ _ >>= fun previousAverage => _) = _
    rw [item?_eq (hkept (·.close) x)]
    change (item? _ _ >>= fun previousAverage => _) = _
    rw [item?_eq (hkept (·.average) m)]
    rfl

/-- One more bar is read without a mishap. -/
theorem push?_ofReadings (c : Channel) {period : UInt64} (hperiod : c.period = period.toNat)
    (h : readings.size + 1 < UInt64.size) {bar : Bar} (hbar : bar.isVoid = false) :
    push? period c.factor (ofReadings readings) bar =
      .ok (ofReadings (c.push readings bar)) := by
  have hclose : (ofReadings readings).close.size = readings.size := Array.size_map
  rw [push?, if_neg (by rw [hbar]; exact Bool.false_ne_true), size?_eq (by rw [hclose]; omega),
    hclose]
  change (averageAt? period ((readings.map (·.close)).push bar.close)
    (UInt64.ofNat readings.size) >>= fun m => _) = _
  rw [averageAt?_ofReadings c hperiod h]
  change (signsAt? ((readings.map (·.close)).push bar.close) ((readings.map (·.average)).push _)
    (UInt64.ofNat readings.size) _ _ >>= fun signs => _) = _
  rw [signsAt?_ofReadings (by omega)]
  simp only [ofReadings, Channel.push_eq, Array.map_push, Channel.reading]
  cases readings.back? <;> rfl

theorem row?_ofReadings (h : readings.size < UInt64.size) {position : Nat} {r : Reading}
    (hr : readings[position]? = some r) : (ofReadings readings).row? position = .ok r := by
  have hlt : position < readings.size := (Array.getElem?_eq_some_iff.1 hr).1
  have hposition : (UInt64.ofNat position).toNat = position :=
    UInt64.toNat_ofNat_of_lt' (by omega)
  have hitem (field : Reading → Float) :
      item? (readings.map field) (UInt64.ofNat position) = .ok (field r) := by
    apply item?_eq
    rw [hposition, Array.getElem?_map, hr]
    rfl
  simp only [row?, ofReadings, hitem]
  rfl

theorem rows?_ofReadings (h : readings.size < UInt64.size) :
    (ofReadings readings).rows? = .ok readings := by
  have htake (n : Nat) (hn : n ≤ readings.size) :
      (List.range n).mapM (ofReadings readings).row? = .ok (readings.toList.take n) := by
    induction n with
    | zero => rfl
    | succ n ih =>
      have hr : readings[n]? = some readings[n] := Array.getElem?_eq_getElem (by omega)
      rw [List.range_succ, List.mapM_append, ih (by omega), List.mapM_cons, List.mapM_nil,
        row?_ofReadings h hr, List.take_add_one, Array.getElem?_toList, hr]
      rfl
  have hclose : (ofReadings readings).close.size = readings.size := Array.size_map
  rw [rows?, hclose, htake _ (Nat.le_refl _), ← Array.length_toList, List.take_length]
  rfl

end

end Columns
end Market

open Checked Market

/-- What is asked of a bottom, in counts. -/
structure CheckedRule where
  requiredBars : UInt64
  confirmBars : UInt64
  minGap : UInt64

namespace CheckedRule

def make? (s : Settings) : Except Mishap CheckedRule := do
  let confirmed ← add? s.confirmBars 1
  return ⟨max s.cycleLength confirmed, s.confirmBars, s.minGap⟩

def value? (series : Array Float) (position : UInt64) : Option Float :=
  series[position.toNat]?.bind Binary64.defined?

def dipsAt (columns : Columns) (position : UInt64) (low : Float) : Bool :=
  (value? columns.lowerEnvelope position).any fun envelope => low ≤ envelope * dipTolerance

/-- Whether the close crossed above the average the given number of positions before, if there are
as many. -/
def crossedBefore (columns : Columns) (position ago : UInt64) : Bool :=
  if ago ≤ position then (value? columns.crossUp (position - ago)).any fun sign => 0.0 < sign
  else false

/-- Whether the gap lies behind, where an index that went back counts as no distance at all. -/
def isSpaced (minGap index : UInt64) : Option UInt64 → Bool
  | none => true
  | some last => minGap < if last ≤ index then index - last else 0

def answers? (rule : CheckedRule) (bar : Bar) (columns : Columns) (lastEntry : Option UInt64) :
    Except Mishap (Option BottomAnswers) := do
  let count ← size? columns.close
  if count < rule.requiredBars ∨ count = 0 then return none
  else
    let last ← sub? count 1
    return some
      { dips := dipsAt columns last bar.low
        crossed := crossedBefore columns last rule.confirmBars
        spaced := isSpaced rule.minGap bar.index lastEntry }

def bottom? (rule : CheckedRule) (bar : Bar) (columns : Columns) (lastEntry : Option UInt64) :
    Except Mishap (Option Bottom) := do
  match ← rule.answers? bar columns lastEntry with
  | none => return none
  | some answers =>
    if answers.isBottom then
      let last ← sub? (← size? columns.close) 1
      return (value? columns.lowerEnvelope last).map fun envelope =>
        ⟨bar.index, bar.date, bar.close, bar.low, envelope⟩
    else return none

def ofSettings (s : Settings) : CheckedRule :=
  ⟨max s.cycleLength (s.confirmBars + 1), s.confirmBars, s.minGap⟩

section

variable {s : Settings} (h : s.confirmBars.toNat + 1 < UInt64.size)
include h

theorem make?_eq : make? s = .ok (ofSettings s) := by
  rw [make?, add?_eq (by simpa using h)]
  rfl

theorem toNat_requiredBars : (ofSettings s).requiredBars.toNat = s.requiredBars := by
  have hconfirmed : (s.confirmBars + 1).toNat = s.confirmBars.toNat + 1 := by
    rw [UInt64.toNat_add]
    exact Nat.mod_eq_of_lt h
  rw [ofSettings, Settings.requiredBars, ← hconfirmed]
  change (if s.cycleLength ≤ s.confirmBars + 1 then s.confirmBars + 1 else s.cycleLength).toNat = _
  split <;> rename_i hle <;> rw [UInt64.le_iff_toNat_le] at hle
  · exact (Nat.max_eq_right hle).symm
  · exact (Nat.max_eq_left (Nat.le_of_not_le hle)).symm

end

theorem isSpaced_eq (minGap index : UInt64) (lastEntry : Option UInt64) :
    isSpaced minGap index lastEntry = BottomRule.isSpaced minGap index lastEntry := by
  cases lastEntry with
  | none => rfl
  | some last =>
    rw [isSpaced, BottomRule.isSpaced, decide_eq_decide]
    by_cases hle : last ≤ index
    · rw [if_pos hle, UInt64.lt_iff_toNat_lt, UInt64.toNat_sub_of_le _ _ hle]
      rw [UInt64.le_iff_toNat_le] at hle
      omega
    · rw [if_neg hle, UInt64.lt_iff_toNat_lt]
      rw [UInt64.le_iff_toNat_le] at hle
      simp only [UInt64.toNat_zero]
      omega

theorem value?_ofReadings (readings : Array Reading) (field : Reading → Float)
    (position : UInt64) :
    value? (readings.map field) position = Channel.value? readings field position.toNat := by
  rw [value?, Array.getElem?_map, Channel.value?]
  cases readings[position.toNat]? <;> rfl

theorem value?_last (readings : Array Reading) (field : Reading → Float) :
    Channel.value? readings field (readings.size - 1) = Channel.last? readings field := by
  rw [Channel.value?, Channel.last?, Array.back?_eq_getElem?]

section

variable {s : Settings} (h : s.confirmBars.toNat + 1 < UInt64.size) {readings : Array Reading}
  (hsize : readings.size < UInt64.size) (bar : Bar) (lastEntry : Option UInt64)

theorem dipsAt_ofReadings {position : UInt64} (hposition : position.toNat = readings.size - 1)
    (low : Float) :
    dipsAt (.ofReadings readings) position low = BottomRule.dips low readings := by
  rw [dipsAt, BottomRule.dips, ← value?_last, ← hposition]
  exact congrArg (Option.any _) (value?_ofReadings readings (·.lowerEnvelope) position)

theorem crossedBefore_ofReadings {position : UInt64}
    (hposition : position.toNat = readings.size - 1) (hne : readings.size ≠ 0) (ago : UInt64) :
    crossedBefore (.ofReadings readings) position ago =
      BottomRule.crossedAbove ago.toNat readings := by
  have hvalue := value?_ofReadings readings (·.crossUp) (position - ago)
  rw [crossedBefore, BottomRule.crossedAbove]
  by_cases hago : ago ≤ position
  · have hle := UInt64.le_iff_toNat_le.1 hago
    rw [UInt64.toNat_sub_of_le _ _ hago, hposition] at hvalue
    rw [if_pos hago, if_pos (by omega), ← hvalue]
    rfl
  · have hlt := mt UInt64.le_iff_toNat_le.2 hago
    rw [if_neg hago, if_neg (by omega)]

include hsize in
theorem toNat_last (hne : readings.size ≠ 0) :
    1 ≤ UInt64.ofNat readings.size ∧
      (UInt64.ofNat readings.size - 1).toNat = readings.size - 1 := by
  have hone : 1 ≤ UInt64.ofNat readings.size := by
    rw [UInt64.le_iff_toNat_le, Columns.toNat_ofNat_size hsize]
    exact Nat.pos_of_ne_zero hne
  refine ⟨hone, ?_⟩
  rw [UInt64.toNat_sub_of_le _ _ hone, Columns.toNat_ofNat_size hsize]
  rfl

include h hsize

theorem answers?_ofReadings :
    (ofSettings s).answers? bar (.ofReadings readings) lastEntry =
      .ok ((BottomRule.ofSettings s).answers? bar readings lastEntry) := by
  have hclose : (Columns.ofReadings readings).close.size = readings.size := Array.size_map
  have hfew : (UInt64.ofNat readings.size < (ofSettings s).requiredBars ∨
      UInt64.ofNat readings.size = 0) ↔
      (readings.size < (BottomRule.ofSettings s).requiredBars ∨ readings.isEmpty) := by
    rw [UInt64.lt_iff_toNat_lt, Columns.toNat_ofNat_size hsize, toNat_requiredBars h,
      ← UInt64.toNat_inj, Columns.toNat_ofNat_size hsize, Array.isEmpty_iff_size_eq_zero]
    rfl
  rw [answers?, size?_eq (by rw [hclose]; exact hsize), hclose, BottomRule.answers?]
  change (if UInt64.ofNat readings.size < (ofSettings s).requiredBars ∨
    UInt64.ofNat readings.size = 0 then _ else _) = _
  by_cases hlt : readings.size < (BottomRule.ofSettings s).requiredBars ∨ readings.isEmpty
  · rw [if_pos (hfew.2 hlt), if_pos hlt]
    rfl
  · have hne : readings.size ≠ 0 := fun hz => hlt (Or.inr (Array.isEmpty_iff_size_eq_zero.2 hz))
    obtain ⟨hone, hlast⟩ := toNat_last hsize hne
    rw [if_neg (mt hfew.1 hlt), if_neg hlt, sub?_eq hone, isSpaced_eq]
    refine congrArg (fun a => Except.ok (some a)) ?_
    rw [dipsAt_ofReadings hlast, crossedBefore_ofReadings hlast hne]
    rfl

theorem bottom?_ofReadings :
    (ofSettings s).bottom? bar (.ofReadings readings) lastEntry =
      .ok ((BottomRule.ofSettings s).bottom? bar readings lastEntry) := by
  rw [bottom?, answers?_ofReadings h hsize, BottomRule.bottom?]
  cases hanswers : (BottomRule.ofSettings s).answers? bar readings lastEntry with
  | none => rfl
  | some answers =>
    have hne : readings.size ≠ 0 := by
      intro hz
      rw [BottomRule.answers?, if_pos (Or.inr (Array.isEmpty_iff_size_eq_zero.2 hz))] at hanswers
      cases hanswers
    obtain ⟨hone, hlast⟩ := toNat_last hsize hne
    have hclose : (Columns.ofReadings readings).close.size = readings.size := Array.size_map
    have henvelope : value? (Columns.ofReadings readings).lowerEnvelope
        (UInt64.ofNat readings.size - 1) = Channel.last? readings (·.lowerEnvelope) := by
      rw [← value?_last, ← hlast]
      exact value?_ofReadings readings (·.lowerEnvelope) _
    change (if answers.isBottom = true then _ else _) =
      Except.ok (if answers.isBottom = true then _ else _)
    by_cases hbottom : answers.isBottom = true
    · rw [if_pos hbottom, if_pos hbottom, size?_eq (by rw [hclose]; exact hsize), hclose]
      change (sub? (UInt64.ofNat readings.size) 1 >>= fun last => _) = _
      rw [sub?_eq hone]
      change Except.ok ((value? _ (UInt64.ofNat readings.size - 1)).map _) = _
      rw [henvelope]
      cases Channel.last? readings (·.lowerEnvelope) <;> rfl
    · rw [if_neg hbottom, if_neg hbottom]
      rfl

end

end CheckedRule
end TroughTrader
