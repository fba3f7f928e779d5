import Mathlib
import TroughTrader.Proofs.Binary64.Undefined

/-!
# The exact value of a binary64

A pattern of 64 bits holds a sign, an exponent and a fraction. `unpack_eq` reads the three fields,
and `value` is the rational number that a finite pattern stands for. Finite values are compared as
these numbers (`le_iff_value_le` and `lt_iff_value_lt`), and what lies between two finite values is
finite itself, so that a range with finite ends holds neither not-a-number nor an infinity.
-/

namespace TroughTrader.Binary64

open Float.Model

section Fields

variable (x : Float)

def exponentField : Nat := x.toBits.toNat / leadingBit % 2048

def fractionField : Nat := x.toBits.toNat % leadingBit

def signOf : UnpackedFloat.Sign := if isNegative x then .negative else .positive

theorem significand_eq :
    significand x = if exponentField x = 0 then (fractionField x, -1074)
      else (fractionField x + leadingBit, (exponentField x : Int) - 1075) :=
  rfl

theorem significand_lt : (significand x).1 < 2 ^ 53 := by
  have hlt : fractionField x < 2 ^ 52 := Nat.mod_lt _ (by decide)
  rw [significand_eq, leadingBit]
  split <;> simp only <;> omega

theorem le_significand : -1074 ≤ (significand x).2 := by
  rw [significand_eq]
  split <;> simp only <;> omega

/-- Above the least exponent the first bit of the significand is set. -/
theorem leadingBit_le_significand {x : Float} (h : -1074 < (significand x).2) :
    2 ^ 52 ≤ (significand x).1 := by
  rw [significand_eq] at h ⊢
  split
  · rw [if_pos ‹_›] at h
    exact absurd h (lt_irrefl _)
  · exact Nat.le_add_left _ _

/-- The pattern is its significand counted from its exponent, with the bit of the sign. -/
theorem toBits_eq :
    x.toBits.toNat = ((significand x).2 + 1074).toNat * leadingBit + (significand x).1 +
      if isNegative x then signBit else 0 := by
  have hlt := x.toBits.toNat_lt
  have hfields : x.toBits.toNat = exponentField x * leadingBit + fractionField x +
      if isNegative x then signBit else 0 := by
    simp only [isNegative, decide_eq_true_eq]
    split
    all_goals
      simp only [exponentField, fractionField, leadingBit, signBit] at *
      omega
  refine hfields.trans (congrArg (· + _) ?_)
  rw [significand_eq]
  by_cases h : exponentField x = 0
  · rw [if_pos h, h]
    rfl
  · rw [if_neg h, leadingBit]
    simp only
    omega

theorem toNat_unpackExponent :
    (@UnpackedFloat.unpackExponent Format.binary64 x.toModel.toBits.toBitVec).toNat =
      exponentField x := by
  simp only [UnpackedFloat.unpackExponent, BitVec.toNat_cast, BitVec.extractLsb_toNat,
    Nat.shiftRight_eq_div_pow]
  rfl

theorem toNat_unpackMantissa :
    (@UnpackedFloat.unpackMantissa Format.binary64 x.toModel.toBits.toBitVec).toNat =
      fractionField x := by
  simp only [UnpackedFloat.unpackMantissa, BitVec.toNat_cast, BitVec.extractLsb_toNat,
    Nat.shiftRight_zero]
  rfl

theorem ofBitVec_unpackSign :
    UnpackedFloat.Sign.ofBitVec
      (@UnpackedFloat.unpackSign Format.binary64 x.toModel.toBits.toBitVec) =
        signOf x := by
  have hlt := x.toBits.toNat_lt
  have hsign : (@UnpackedFloat.unpackSign Format.binary64
      x.toModel.toBits.toBitVec).toNat = x.toBits.toNat / signBit := by
    simp only [UnpackedFloat.unpackSign, BitVec.toNat_cast, BitVec.extractLsb_toNat,
      Nat.shiftRight_eq_div_pow]
    change x.toBits.toNat / signBit % 2 = x.toBits.toNat / signBit
    rw [signBit]
    omega
  have hzero : @UnpackedFloat.unpackSign Format.binary64
      x.toModel.toBits.toBitVec = 0#1 ↔ ¬ signBit ≤ x.toBits.toNat := by
    rw [← BitVec.toNat_inj, hsign, signBit, BitVec.toNat_ofNat]
    omega
  simp only [UnpackedFloat.Sign.ofBitVec, hzero, ite_not, signOf, isNegative, decide_eq_true_eq]

/-- The fields of the pattern say which kind of value it is. -/
theorem unpack_eq :
    x.toModel.unpack =
      if exponentField x = 2047 then
        if fractionField x = 0 then .infinity (signOf x) else .notANumber
      else if h : (significand x).1 = 0 then .zero (signOf x)
      else .finite (signOf x) (significand x).1 (significand x).2 (Nat.pos_of_ne_zero h) := by
  have hbias : ((Format.binary64.exponentBias : Nat) : Int) +
      Format.binary64.mantissaBitsWithoutImplicit = 1075 := rfl
  have hexponent (v : BitVec 11) : @UnpackedFloat.unpackExponent Format.binary64
      x.toModel.toBits.toBitVec = v ↔ exponentField x = v.toNat := by
    rw [← BitVec.toNat_inj, toNat_unpackExponent]
  have hmantissa : @UnpackedFloat.unpackMantissa Format.binary64
      x.toModel.toBits.toBitVec = 0#52 ↔ fractionField x = 0 := by
    rw [← BitVec.toNat_inj, toNat_unpackMantissa]
    rfl
  have hlt : fractionField x < 2 ^ 52 := Nat.mod_lt _ (by decide)
  rw [Float.Model.unpack, UnpackedFloat.unpack]
  simp only [hexponent, hmantissa, hbias, ofBitVec_unpackSign, toNat_unpackExponent,
    toNat_unpackMantissa, BitVec.toNat_append]
  change (if exponentField x = 2047 then _ else if exponentField x = 0 then _ else _) = _
  by_cases hspecial : exponentField x = 2047
  · rw [if_pos hspecial, if_pos hspecial]
  · rw [if_neg hspecial, if_neg hspecial]
    by_cases hsmall : exponentField x = 0
    · simp only [significand_eq, hsmall]
      rfl
    · rw [if_neg hsmall]
      simp only [significand_eq, if_neg hsmall]
      rw [dif_neg (by rw [leadingBit]; omega)]
      congr 1
      rw [Nat.shiftLeft_eq, Nat.mul_comm, ← Nat.two_pow_add_eq_or_of_lt hlt, Nat.add_comm]
      rfl

theorem isFinite_iff : x.isFinite = true ↔ exponentField x ≠ 2047 := by
  change x.toModel.unpack.isFinite = true ↔ _
  rw [unpack_eq]
  by_cases h : exponentField x = 2047
  · rw [if_pos h]
    split <;> simp [UnpackedFloat.isFinite, h]
  · rw [if_neg h]
    split <;> simp [UnpackedFloat.isFinite, h]

end Fields

/-- The exact magnitude of a finite value. -/
def absValue (x : Float) : ℚ := (significand x).1 * 2 ^ (significand x).2

/-- The exact number that a finite value stands for. -/
def value (x : Float) : ℚ := if isNegative x then -absValue x else absValue x

theorem unpack_of_isFinite {x : Float} (h : x.isFinite = true) :
    x.toModel.unpack =
      if hm : (significand x).1 = 0 then .zero (signOf x)
      else .finite (signOf x) (significand x).1 (significand x).2 (Nat.pos_of_ne_zero hm) := by
  rw [unpack_eq, if_neg ((isFinite_iff x).1 h)]

/-- A finite value is above, at or below zero, and unpacks accordingly. -/
theorem unpack_cases {x : Float} (h : x.isFinite = true) :
    (0 < value x ∧ value x = absValue x ∧
      ∃ hm, x.toModel.unpack = .finite .positive (significand x).1 (significand x).2 hm) ∨
    (value x = 0 ∧ ∃ s, x.toModel.unpack = .zero s) ∨
    (value x < 0 ∧ value x = -absValue x ∧
      ∃ hm, x.toModel.unpack = .finite .negative (significand x).1 (significand x).2 hm) := by
  rw [unpack_of_isFinite h, value, signOf]
  by_cases hm : (significand x).1 = 0
  · have hzero : absValue x = 0 := by rw [absValue, hm, Nat.cast_zero, zero_mul]
    rw [dif_pos hm, hzero, neg_zero, ite_self]
    exact Or.inr (Or.inl ⟨rfl, _, rfl⟩)
  · have hpos : 0 < absValue x := by
      have : 0 < (significand x).1 := Nat.pos_of_ne_zero hm
      rw [absValue]
      positivity
    rw [dif_neg hm]
    cases isNegative x
    · exact Or.inl ⟨hpos, rfl, _, rfl⟩
    · exact Or.inr (Or.inr ⟨neg_lt_zero.2 hpos, rfl, _, rfl⟩)

theorem mul_zpow_lt_mul_zpow {m n : ℕ} {p q : ℤ} (hm : m < 2 ^ 53) (hn : 2 ^ 52 ≤ n)
    (h : p < q) : (m : ℚ) * 2 ^ p < n * 2 ^ q := by
  have hm' : (m : ℚ) < 2 ^ 53 := by exact_mod_cast hm
  have hn' : (2 : ℚ) ^ 52 ≤ n := by exact_mod_cast hn
  calc (m : ℚ) * 2 ^ p < 2 ^ 53 * 2 ^ p := by gcongr
    _ = 2 ^ 52 * 2 ^ (p + 1) := by rw [zpow_add_one₀ (by norm_num)]; ring
    _ ≤ n * 2 ^ q := by
      gcongr
      · norm_num
      · omega

/-- Exponents first and significands second are in the order of the magnitudes: a larger exponent
means that the first bit of the significand is set. -/
theorem compare_significand (x y : Float) :
    (compare (significand x).2 (significand y).2).then
        (compare (significand x).1 (significand y).1) = compare (absValue x) (absValue y) := by
  have hx := le_significand x
  have hy := le_significand y
  simp only [absValue]
  rcases lt_trichotomy (significand x).2 (significand y).2 with h | h | h
  · have hlead := leadingBit_le_significand (hx.trans_lt h)
    rw [compare_lt_iff_lt.2 h,
      compare_lt_iff_lt.2 (mul_zpow_lt_mul_zpow (significand_lt x) hlead h)]
    rfl
  · rw [h, compare_eq_iff_eq.2 rfl]
    have hpos : (0 : ℚ) < 2 ^ (significand y).2 := by positivity
    rcases lt_trichotomy (significand x).1 (significand y).1 with h' | h' | h'
    · rw [compare_lt_iff_lt.2 h', compare_lt_iff_lt.2 (by gcongr)]
      rfl
    · rw [h', compare_eq_iff_eq.2 rfl, compare_eq_iff_eq.2 rfl]
      rfl
    · rw [compare_gt_iff_gt.2 h', compare_gt_iff_gt.2 (by gcongr)]
      rfl
  · have hlead := leadingBit_le_significand (hy.trans_lt h)
    rw [compare_gt_iff_gt.2 h,
      compare_gt_iff_gt.2 (mul_zpow_lt_mul_zpow (significand_lt y) hlead h)]
    rfl

theorem compare_neg_neg (a b : ℚ) : compare (-a) (-b) = (compare a b).swap := by
  rcases lt_trichotomy a b with h | h | h
  · rw [compare_lt_iff_lt.2 h, compare_gt_iff_gt.2 (neg_lt_neg h)]
    rfl
  · rw [h, compare_eq_iff_eq.2 rfl, compare_eq_iff_eq.2 rfl]
    rfl
  · rw [compare_gt_iff_gt.2 h, compare_lt_iff_lt.2 (neg_lt_neg h)]
    rfl

theorem compare_unpack {x y : Float} (hx : x.isFinite = true) (hy : y.isFinite = true) :
    x.toModel.unpack.compare y.toModel.unpack = some (compare (value x) (value y)) := by
  have hcompare := compare_significand x y
  rcases unpack_cases hx with ⟨hxs, hxv, _, hxu⟩ | ⟨hxv, _, hxu⟩ | ⟨hxs, hxv, _, hxu⟩ <;>
    rcases unpack_cases hy with ⟨hys, hyv, _, hyu⟩ | ⟨hyv, _, hyu⟩ | ⟨hys, hyv, _, hyu⟩ <;>
    rw [hxu, hyu]
  -- equal signs
  case inl.inl =>
    rw [hxv, hyv]
    exact congrArg some hcompare
  case inr.inr.inr.inr =>
    rw [hxv, hyv, compare_neg_neg]
    exact congrArg (fun o : Ordering => some o.swap) hcompare
  case inr.inl.inr.inl =>
    rw [hxv, hyv, compare_eq_iff_eq.2 rfl]
    rfl
  -- different signs, of which zero is one
  case inl.inr.inl | inl.inr.inr | inr.inl.inr.inr =>
    rw [compare_gt_iff_gt.2 (by linarith)]
    rfl
  case inr.inl.inl | inr.inr.inl | inr.inr.inr.inl =>
    rw [compare_lt_iff_lt.2 (by linarith)]
    rfl

theorem le_iff_value_le {x y : Float} (hx : x.isFinite = true) (hy : y.isFinite = true) :
    x ≤ y ↔ value x ≤ value y := by
  change decide (x.toModel ≤ y.toModel) = true ↔ _
  rw [decide_eq_true_iff]
  change x.toModel.unpack.le y.toModel.unpack = true ↔ _
  rw [UnpackedFloat.le, compare_unpack hx hy, Option.any_some, Ordering.isLE_iff_ne_gt]
  exact compare_le_iff_le

theorem lt_iff_value_lt {x y : Float} (hx : x.isFinite = true) (hy : y.isFinite = true) :
    x < y ↔ value x < value y := by
  change decide (x.toModel < y.toModel) = true ↔ _
  rw [decide_eq_true_iff]
  change x.toModel.unpack.lt y.toModel.unpack = true ↔ _
  rw [UnpackedFloat.lt, compare_unpack hx hy, ← compare_lt_iff_lt, beq_iff_eq, Option.some_inj]

theorem le_of_lt {x y : Float} (h : x < y) : x ≤ y := by
  have hlt : x.toModel.unpack.lt y.toModel.unpack = true := of_decide_eq_true h
  rw [UnpackedFloat.lt, beq_iff_eq] at hlt
  refine decide_eq_true (?_ : x.toModel.unpack.le y.toModel.unpack = true)
  rw [UnpackedFloat.le, hlt]
  rfl

theorem isFinite_of_le_of_le {a x b : Float} (ha : a.isFinite = true) (hb : b.isFinite = true)
    (hax : a ≤ x) (hxb : x ≤ b) : x.isFinite = true := by
  have hax' : a.toModel.unpack.le x.toModel.unpack = true := of_decide_eq_true hax
  have hxb' : x.toModel.unpack.le b.toModel.unpack = true := of_decide_eq_true hxb
  change x.toModel.unpack.isFinite = true
  change a.toModel.unpack.isFinite = true at ha
  change b.toModel.unpack.isFinite = true at hb
  generalize x.toModel.unpack = u at hax' hxb' ⊢
  generalize a.toModel.unpack = low at ha hax'
  generalize b.toModel.unpack = high at hb hxb'
  cases u with
  | notANumber =>
    rw [UnpackedFloat.le, compare_notANumber] at hax'
    cases hax'
  | infinity s =>
    cases s with
    | negative =>
      cases low with
      | finite s => cases s <;> cases hax'
      | zero s => cases hax'
      | _ => cases ha
    | positive =>
      cases high with
      | finite s => cases s <;> cases hxb'
      | zero s => cases hxb'
      | _ => cases hb
  | zero s => rfl
  | finite s m e h => rfl

section Constants

theorem value_of_significand_eq {x : Float} {m : ℕ} {q : ℤ} (hsign : isNegative x = false)
    (hparts : significand x = (m, q)) : value x = m * 2 ^ q := by
  rw [value, absValue, hsign, hparts, if_neg Bool.false_ne_true]

theorem isFinite_zero : (0.0 : Float).isFinite = true := by decide

theorem isFinite_one : (1.0 : Float).isFinite = true := by decide

theorem isFinite_hundred : (100.0 : Float).isFinite = true := by decide

theorem value_zero : value 0.0 = 0 := by
  rw [@value_of_significand_eq _ 0 (-1074) (by decide) (by decide)]
  norm_num

theorem value_one : value 1.0 = 1 := by
  rw [@value_of_significand_eq _ (2 ^ 52) (-52) (by decide) (by decide)]
  norm_num

theorem value_hundred : value 100.0 = 100 := by
  rw [@value_of_significand_eq _ (25 * 2 ^ 48) (-46) (by decide) (by decide)]
  norm_num

end Constants
end TroughTrader.Binary64
