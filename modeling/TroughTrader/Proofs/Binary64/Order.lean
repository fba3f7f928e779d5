import TroughTrader.Proofs.Binary64.Patterns

/-!
# The line of binary64 values

All values but not-a-number lie on one line: `rank` is the place of a value on it, zero for both
zeros and `infinityBits` for infinity, and values are compared as their ranks (`le_iff_rank_le`,
`lt_iff_rank_lt`). `nearestRank` is the rank of the binary64 nearest to an exact number. It grows
with the number (`nearestRank_mono`), and the number that a finite value stands for keeps that
value's rank (`nearestRank_value`). `IsNearest x v` says that `x` is the exact number `v`, rounded.
-/

namespace TroughTrader.Binary64

open Float.Model

/-- The place of a value on the line of values. -/
def rank (x : Float) : ℤ := if isNegative x then -magnitudeBits x else magnitudeBits x

theorem rank_zero : rank 0.0 = 0 := by decide

theorem natAbs_rank (x : Float) : (rank x).natAbs = magnitudeBits x := by
  rw [rank]
  split <;> omega

/-- The two zeros apart, a place holds one value. -/
theorem eq_of_rank_eq {x y : Float} (h : rank x = rank y) (hne : rank x ≠ 0) : x = y := by
  have hx := natAbs_rank x
  have hy := natAbs_rank y
  have hsign : isNegative x = isNegative y := by
    cases hsx : isNegative x <;> cases hsy : isNegative y
    case false.false | true.true => rfl
    all_goals
      rw [rank, hsx, rank, hsy] at h
      rw [rank, hsx] at hne
      simp only [Bool.false_eq_true, if_true, if_false] at h hne
      omega
  apply Float.toBits_inj.1
  apply UInt64.toNat_inj.1
  rw [toBits_eq_magnitudeBits, toBits_eq_magnitudeBits, hsign, ← hx, ← hy, h]

theorem rank_signed (negative : Bool) {bits : ℕ} (h : bits ≤ infinityBits) :
    rank (signed negative bits) = if negative then -(bits : ℤ) else bits := by
  rw [rank, isNegative_signed negative h, magnitudeBits_signed negative h]

/-- The rank of the binary64 nearest to an exact number. -/
def nearestRank (v : ℚ) : ℤ :=
  if v < 0 then -nearestBits v.num.natAbs v.den else nearestBits v.num.natAbs v.den

theorem ratio_natAbs_num (v : ℚ) : ratio v.num.natAbs v.den = |v| := by
  rw [ratio, Nat.cast_natAbs, Int.cast_abs]
  conv_rhs => rw [← Rat.num_div_den v, abs_div, Nat.abs_cast]

theorem nearestRank_eq {num den : ℕ} (hden : 0 < den) {v : ℚ} (h : ratio num den = |v|) :
    nearestRank v = if v < 0 then -(nearestBits num den : ℤ) else nearestBits num den := by
  rw [nearestRank, nearestBits_congr v.den_pos hden ((ratio_natAbs_num v).trans h.symm)]

theorem nearestRank_of_nonneg {num den : ℕ} (hden : 0 < den) {v : ℚ} (hv : 0 ≤ v)
    (h : ratio num den = v) : nearestRank v = nearestBits num den := by
  rw [nearestRank_eq hden (h.trans (abs_of_nonneg hv).symm), if_neg hv.not_gt]

theorem nearestRank_zero : nearestRank 0 = 0 := rfl

theorem nearestRank_neg (v : ℚ) : nearestRank (-v) = -nearestRank v := by
  rw [nearestRank_eq v.den_pos ((ratio_natAbs_num v).trans (abs_neg v).symm), nearestRank]
  rcases lt_trichotomy v 0 with hv | rfl | hv
  · rw [if_neg (by linarith), if_pos hv, neg_neg]
  · rfl
  · rw [if_pos (by linarith), if_neg (by linarith)]

theorem nearestRank_nonneg {v : ℚ} (hv : 0 ≤ v) : 0 ≤ nearestRank v := by
  rw [nearestRank, if_neg hv.not_gt]
  exact Int.natCast_nonneg _

/-- Larger numbers are not rounded to smaller values. -/
theorem nearestRank_mono {v w : ℚ} (h : v ≤ w) : nearestRank v ≤ nearestRank w := by
  have hpos {v w : ℚ} (hv : 0 ≤ v) (h : v ≤ w) : nearestRank v ≤ nearestRank w := by
    rw [nearestRank, nearestRank, if_neg hv.not_gt, if_neg (hv.trans h).not_gt]
    have hratio : ratio v.num.natAbs v.den ≤ ratio w.num.natAbs w.den := by
      rwa [ratio_natAbs_num, ratio_natAbs_num, abs_of_nonneg hv, abs_of_nonneg (hv.trans h)]
    exact_mod_cast nearestBits_mono v.den_pos w.den_pos hratio
  rcases le_total 0 v with hv | hv
  · exact hpos hv h
  · rcases le_total 0 w with hw | hw
    · have hneg := nearestRank_nonneg (neg_nonneg.2 hv)
      rw [nearestRank_neg] at hneg
      have := nearestRank_nonneg hw
      omega
    · have hneg := hpos (neg_nonneg.2 hw) (neg_le_neg h)
      rw [nearestRank_neg, nearestRank_neg] at hneg
      omega

theorem absValue_nonneg (x : Float) : 0 ≤ absValue x := by
  rw [absValue]
  positivity

theorem abs_value (x : Float) : |value x| = absValue x := by
  rw [value]
  split
  · rw [abs_neg, abs_of_nonneg (absValue_nonneg x)]
  · rw [abs_of_nonneg (absValue_nonneg x)]

theorem nearestBits_absValue {x : Float} (hx : x.isFinite = true) {num den : ℕ} (hden : 0 < den)
    (h : ratio num den = absValue x) : nearestBits num den = magnitudeBits x := by
  have hself := congrArg magnitudeBits (nearest_self hx hden h)
  rwa [nearest, magnitudeBits_signed _ (nearestBits_le num den)] at hself

/-- The number that a finite value stands for is rounded to that value. -/
theorem nearestRank_value {x : Float} (hx : x.isFinite = true) :
    nearestRank (value x) = rank x := by
  rw [nearestRank, nearestBits_absValue hx (value x).den_pos
    ((ratio_natAbs_num _).trans (abs_value x)), rank, value]
  by_cases hm : magnitudeBits x = 0
  · rw [hm]
    simp
  · have hpos : 0 < absValue x := by
      apply (absValue_nonneg x).lt_of_ne'
      intro hzero
      apply hm
      have hratio : ratio 0 1 = absValue x := by rw [hzero, ratio, Nat.cast_zero, zero_div]
      rw [← nearestBits_absValue hx Nat.one_pos hratio, nearestBits, if_pos rfl]
    cases isNegative x <;> simp [hpos, hpos.le]

theorem value_eq_of_rank_eq {x y : Float} (h : rank x = rank y) : value x = value y := by
  by_cases hne : rank x = 0
  · have hzero {x : Float} (hx : rank x = 0) : value x = 0 := by
      have hbits := natAbs_rank x
      rw [hx, magnitudeBits_eq] at hbits
      have hm : (significand x).1 = 0 := by simp at hbits; omega
      rw [value, absValue, hm]
      simp
    rw [hzero hne, hzero (h.symm.trans hne)]
  · rw [eq_of_rank_eq h hne]

theorem value_le_iff_rank_le {x y : Float} (hx : x.isFinite = true) (hy : y.isFinite = true) :
    value x ≤ value y ↔ rank x ≤ rank y := by
  constructor
  · intro h
    rw [← nearestRank_value hx, ← nearestRank_value hy]
    exact nearestRank_mono h
  · intro h
    by_contra hlt
    have hle : rank y ≤ rank x := by
      rw [← nearestRank_value hx, ← nearestRank_value hy]
      exact nearestRank_mono (not_le.1 hlt).le
    exact hlt (value_eq_of_rank_eq (le_antisymm h hle)).le

theorem isFinite_iff_abs_rank_lt {x : Float} : x.isFinite = true ↔ |rank x| < infinityBits := by
  rw [isFinite_iff_magnitudeBits_lt, ← natAbs_rank, Int.abs_eq_natAbs]
  exact Int.ofNat_lt.symm

theorem rank_infinity (negative : Bool) :
    rank (infinity negative) = if negative then -(infinityBits : ℤ) else infinityBits :=
  rank_signed negative le_rfl

theorem unpack_infinity (negative : Bool) :
    (infinity negative).toModel.unpack =
      .infinity (if negative then .negative else .positive) := by
  cases negative <;> rfl

theorem compare_eq_compare_rank {x y : Float} (hx : x.isNaN = false) (hy : y.isNaN = false) :
    x.toModel.unpack.compare y.toModel.unpack = some (compare (rank x) (rank y)) := by
  -- an infinity against what is finite
  have hmixed (negative : Bool) {y : Float} (hfinite : y.isFinite = true) :
      (infinity negative).toModel.unpack.compare y.toModel.unpack =
        some (compare (rank (infinity negative)) (rank y)) := by
    have hlt := abs_lt.1 (isFinite_iff_abs_rank_lt.1 hfinite)
    rw [unpack_infinity, rank_infinity]
    cases negative
    · rw [if_neg Bool.false_ne_true, if_neg Bool.false_ne_true, compare_gt_iff_gt.2 hlt.2]
      rcases unpack_cases hfinite with ⟨-, -, _, hu⟩ | ⟨-, _, hu⟩ | ⟨-, -, _, hu⟩
      all_goals rw [hu]; rfl
    · rw [if_pos rfl, if_pos rfl, compare_lt_iff_lt.2 hlt.1]
      rcases unpack_cases hfinite with ⟨-, -, _, hu⟩ | ⟨-, _, hu⟩ | ⟨-, -, _, hu⟩
      all_goals rw [hu]; rfl
  cases hxf : x.isFinite with
  | true =>
    cases hyf : y.isFinite with
    | true =>
      rw [compare_unpack hxf hyf, Option.some_inj]
      rcases lt_trichotomy (value x) (value y) with h | h | h
      · rw [compare_lt_iff_lt.2 h, compare_lt_iff_lt.2]
        exact not_le.1 ((value_le_iff_rank_le hyf hxf).not.1 h.not_ge)
      · rw [compare_eq_iff_eq.2 h, compare_eq_iff_eq.2]
        exact le_antisymm ((value_le_iff_rank_le hxf hyf).1 h.le)
          ((value_le_iff_rank_le hyf hxf).1 h.ge)
      · rw [compare_gt_iff_gt.2 h, compare_gt_iff_gt.2]
        exact not_le.1 ((value_le_iff_rank_le hxf hyf).not.1 h.not_ge)
    | false =>
      have hswap : compare (rank x) (rank y) = (compare (rank y) (rank x)).swap :=
        Std.OrientedOrd.eq_swap
      rw [eq_infinity hy hyf] at hswap ⊢
      rw [compare_eq_swap, hmixed _ hxf, hswap]
      rfl
  | false =>
    rw [eq_infinity hx hxf]
    cases hyf : y.isFinite with
    | true => exact hmixed _ hyf
    | false =>
      rw [eq_infinity hy hyf]
      cases isNegative x <;> cases isNegative y <;> decide

section Order

variable {x y : Float} (hx : x.isNaN = false) (hy : y.isNaN = false)
include hx hy

theorem le_iff_rank_le : x ≤ y ↔ rank x ≤ rank y := by
  change decide (x.toModel ≤ y.toModel) = true ↔ _
  rw [decide_eq_true_iff]
  change x.toModel.unpack.le y.toModel.unpack = true ↔ _
  rw [UnpackedFloat.le, compare_eq_compare_rank hx hy, Option.any_some, Ordering.isLE_iff_ne_gt]
  exact compare_le_iff_le

theorem lt_iff_rank_lt : x < y ↔ rank x < rank y := by
  change decide (x.toModel < y.toModel) = true ↔ _
  rw [decide_eq_true_iff]
  change x.toModel.unpack.lt y.toModel.unpack = true ↔ _
  rw [UnpackedFloat.lt, compare_eq_compare_rank hx hy, ← compare_lt_iff_lt, beq_iff_eq,
    Option.some_inj]

theorem rank_lesser : rank (lesser x y) = min (rank x) (rank y) := by
  rw [lesser, hx, if_neg Bool.false_ne_true]
  split
  · have h := (lt_iff_rank_lt hy hx).1 ‹_›
    omega
  · have h := (lt_iff_rank_lt hy hx).not.1 ‹_›
    omega

end Order

theorem value_pos_iff {x : Float} (hx : x.isFinite = true) : 0 < value x ↔ 0 < rank x := by
  rw [← value_zero, ← lt_iff_value_lt isFinite_zero hx,
    lt_iff_rank_lt (isNaN_of_isFinite isFinite_zero) (isNaN_of_isFinite hx), rank_zero]

/-- What is compared is defined. -/
theorem isNaN_of_le {x y : Float} (h : x ≤ y) : x.isNaN = false ∧ y.isNaN = false :=
  ⟨Bool.eq_false_iff.2 fun hx => not_le_of_isNaN_left y hx h,
    Bool.eq_false_iff.2 fun hy => not_le_of_isNaN x hy h⟩

theorem isNaN_of_lt {x y : Float} (h : x < y) : x.isNaN = false ∧ y.isNaN = false :=
  isNaN_of_le (le_of_lt h)

theorem le_self {x : Float} (hx : x.isNaN = false) : x ≤ x := (le_iff_rank_le hx hx).2 le_rfl

theorem not_lt_of_le {x y : Float} (h : x ≤ y) : ¬ y < x := by
  obtain ⟨hx, hy⟩ := isNaN_of_le h
  rw [lt_iff_rank_lt hy hx]
  exact ((le_iff_rank_le hx hy).1 h).not_gt

theorem lt_of_le_of_lt {x y z : Float} (h : x ≤ y) (h' : y < z) : x < z := by
  obtain ⟨hx, hy⟩ := isNaN_of_le h
  obtain ⟨-, hz⟩ := isNaN_of_lt h'
  rw [lt_iff_rank_lt hx hz]
  exact ((le_iff_rank_le hx hy).1 h).trans_lt ((lt_iff_rank_lt hy hz).1 h')

section Ends

variable {x : Float} (s : Bool)

theorem isNaN_infinity : (infinity s).isNaN = false := isNaN_signed s le_rfl

theorem abs_rank_le (hx : x.isNaN = false) : |rank x| ≤ infinityBits := by
  have hbits := (isNaN_iff_lt_magnitudeBits x).not.1 (Bool.eq_false_iff.1 hx)
  rw [Int.abs_eq_natAbs, natAbs_rank]
  omega

/-- Defined values lie between the two infinities. -/
theorem le_infinity (hx : x.isNaN = false) : x ≤ infinity false := by
  rw [le_iff_rank_le hx (isNaN_infinity false), rank_infinity]
  exact (abs_le.1 (abs_rank_le hx)).2

theorem infinity_le (hx : x.isNaN = false) : infinity true ≤ x := by
  rw [le_iff_rank_le (isNaN_infinity true) hx, rank_infinity]
  exact (abs_le.1 (abs_rank_le hx)).1

theorem eq_infinity_of_le (h : infinity false ≤ x) : x = infinity false := by
  obtain ⟨-, hx⟩ := isNaN_of_le h
  have hle := (le_iff_rank_le hx (isNaN_infinity false)).1 (le_infinity hx)
  have hge := (le_iff_rank_le (isNaN_infinity false) hx).1 h
  have hrank := le_antisymm hle hge
  apply eq_of_rank_eq hrank
  rw [hrank, rank_infinity]
  decide

theorem eq_infinity_of_ge (h : x ≤ infinity true) : x = infinity true := by
  obtain ⟨hx, -⟩ := isNaN_of_le h
  have hle := (le_iff_rank_le hx (isNaN_infinity true)).1 h
  have hge := (le_iff_rank_le (isNaN_infinity true) hx).1 (infinity_le hx)
  have hrank := le_antisymm hle hge
  apply eq_of_rank_eq hrank
  rw [hrank, rank_infinity]
  decide

end Ends

/-- Values in order, of which the lower one is not the lower end nor the upper one the upper end,
are finite. -/
theorem le_cases {x y : Float} (h : x ≤ y) :
    x = infinity true ∨ y = infinity false ∨
      (x.isFinite = true ∧ y.isFinite = true ∧ value x ≤ value y) := by
  obtain ⟨hx, hy⟩ := isNaN_of_le h
  cases hxf : x.isFinite with
  | true =>
    cases hyf : y.isFinite with
    | true => exact Or.inr (Or.inr ⟨rfl, rfl, (le_iff_value_le hxf hyf).1 h⟩)
    | false =>
      have hend := eq_infinity hy hyf
      cases hs : isNegative y with
      | true =>
        rw [hend, hs] at h
        exact Or.inl (eq_infinity_of_ge h)
      | false => exact Or.inr (Or.inl (hs ▸ hend))
  | false =>
    have hend := eq_infinity hx hxf
    cases hs : isNegative x with
    | true => exact Or.inl (hs ▸ hend)
    | false =>
      rw [hend, hs] at h
      exact Or.inr (Or.inl (eq_infinity_of_le h))

/-- A value is an exact number, rounded. Of the two zeros it may be either. -/
structure IsNearest (x : Float) (v : ℚ) : Prop where
  isNaN : x.isNaN = false
  rank : rank x = nearestRank v

theorem isNearest_value {x : Float} (hx : x.isFinite = true) : IsNearest x (value x) :=
  ⟨isNaN_of_isFinite hx, (nearestRank_value hx).symm⟩

theorem isNearest_signed {num den : ℕ} (hden : 0 < den) {v : ℚ} (hv : 0 ≤ v)
    (h : ratio num den = v) (negative : Bool) :
    IsNearest (nearest negative num den) (if negative then -v else v) := by
  have hle := nearestBits_le num den
  refine ⟨isNaN_signed negative hle, ?_⟩
  rw [nearest, rank_signed negative hle, ← nearestRank_of_nonneg hden hv h]
  cases negative
  · rfl
  · exact (nearestRank_neg v).symm

namespace IsNearest

variable {x y : Float} {v w : ℚ}

theorem le (hx : IsNearest x v) (hy : IsNearest y w) (h : v ≤ w) : x ≤ y := by
  rw [le_iff_rank_le hx.isNaN hy.isNaN, hx.rank, hy.rank]
  exact nearestRank_mono h

/-- Rounding never turns an order round, so values in strict order come from numbers that are. -/
theorem lt_of_lt (hx : IsNearest x v) (hy : IsNearest y w) (h : x < y) : v < w := by
  by_contra hle
  have hge := (le_iff_rank_le hy.isNaN hx.isNaN).1 (hy.le hx (not_lt.1 hle))
  have hlt := (lt_iff_rank_lt hx.isNaN hy.isNaN).1 h
  omega

end IsNearest
end TroughTrader.Binary64
