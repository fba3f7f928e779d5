import TroughTrader.Proofs.Binary64.Arithmetic

/-!
# Infinities and zeros in arithmetic

What is not a number stays so. An infinity goes through a difference, through a product with a
positive value and through a quotient by one; what is finite divided by infinity is zero, and
divided by zero it is an infinity or, where it is zero itself, not a number.
-/

namespace TroughTrader.Binary64

open Float.Model

theorem isNaN_pack_notANumber : (Float.ofModel (pack .notANumber)).isNaN = true := by
  decide

theorem ofModel_pack_infinity (negative : Bool) :
    Float.ofModel (pack (.infinity (signIf negative))) = infinity negative := by
  cases negative <;> rfl

theorem isNaN_sub {a b : Float} (h : a.isNaN = true ∨ b.isNaN = true) : (a - b).isNaN = true := by
  have hundefined : UnpackedFloat.sub Format.binary64 a.toModel.unpack b.toModel.unpack =
      .notANumber := by
    rcases h with h | h
    · rw [unpack_eq_of_isNaN h]
      rfl
    · rw [unpack_eq_of_isNaN h]
      cases a.toModel.unpack <;> rfl
  rw [sub_eq_pack, hundefined]
  exact isNaN_pack_notANumber

theorem eq_zero_of_rank_eq {x : Float} (h : rank x = 0) : x = zero (isNegative x) := by
  have hbits := natAbs_rank x
  rw [h] at hbits
  conv_lhs => rw [← signed_eq (toBits_eq_magnitudeBits x), ← hbits]
  rfl

section Infinite

variable (s : Bool) {x : Float}

theorem infinity_sub (hx : x.isNaN = false) (hne : x ≠ infinity s) :
    infinity s - x = infinity s := by
  cases hfinite : x.isFinite with
  | true =>
    rw [sub_eq_pack, unpack_infinity, unpack_of_isFinite hfinite, ← ofModel_pack_infinity]
    by_cases hm : (significand x).1 = 0
    · rw [dif_pos hm]
      cases s <;> rfl
    · rw [dif_neg hm]
      cases s <;> rfl
  | false =>
    have hinfinite := eq_infinity hx hfinite
    have hsign : isNegative x ≠ s := fun h => hne (hinfinite.trans (congrArg infinity h))
    rw [hinfinite, Bool.eq_not.2 hsign]
    cases s <;> decide

theorem sub_infinity (hx : x.isFinite = true) : x - infinity s = infinity (!s) := by
  rw [sub_eq_pack, unpack_infinity, unpack_of_isFinite hx, ← ofModel_pack_infinity, ← neg_signIf]
  split <;> rfl

theorem infinity_mul (hx : x.isFinite = true) (hpos : 0 < value x) :
    infinity s * x = infinity s := by
  rw [mul_eq_pack, unpack_infinity, ← ofModel_pack_infinity]
  rcases unpack_cases hx with ⟨-, -, _, hu⟩ | ⟨h, -⟩ | ⟨h, -⟩
  · rw [hu]
    cases s <;> rfl
  · exact absurd h hpos.ne'
  · exact absurd h hpos.not_gt

/-- The sign matters also where the divisor is zero. -/
theorem infinity_div (hx : x.isFinite = true) (hsign : isNegative x = false) :
    infinity s / x = infinity s := by
  rw [div_eq_pack, unpack_infinity, unpack_of_isFinite hx, signOf_eq_signIf, hsign,
    ← ofModel_pack_infinity]
  by_cases hm : (significand x).1 = 0
  · rw [dif_pos hm]
    cases s <;> rfl
  · rw [dif_neg hm]
    cases s <;> rfl

theorem isNaN_infinity_div_infinity : (infinity s / infinity false).isNaN = true := by
  cases s <;> decide

theorem div_infinity (hx : x.isFinite = true) : x / infinity false = zero (isNegative x) := by
  rw [div_eq_pack, unpack_infinity, unpack_of_isFinite hx, signOf_eq_signIf, ← ofModel_pack_zero]
  split <;> cases isNegative x <;> rfl

theorem div_zero (hx : x.isFinite = true) (hne : value x ≠ 0) :
    x / zero false = infinity (isNegative x) := by
  have hm : (significand x).1 ≠ 0 := by rwa [ne_eq, ← absValue_eq_zero_iff, ← value_eq_zero_iff]
  rw [div_eq_pack, unpack_of_isFinite hx, dif_neg hm, signOf_eq_signIf, ← ofModel_pack_infinity]
  cases isNegative x <;> rfl

/-- What is not zero, infinities included, divided by zero. -/
theorem div_zero_of_rank_ne (hx : x.isNaN = false) (hne : rank x ≠ 0) :
    x / zero false = infinity (isNegative x) := by
  cases hfinite : x.isFinite with
  | true =>
    apply div_zero hfinite
    intro hzero
    rw [← nearestRank_value hfinite, hzero] at hne
    exact hne nearestRank_zero
  | false =>
    have hinfinite := eq_infinity hx hfinite
    have hsign : isNegative (zero false) = false := isNegative_signed false (Nat.zero_le _)
    conv_lhs => rw [hinfinite]
    exact infinity_div _ (by decide) hsign

theorem isNaN_zero_div_zero : (zero s / zero false).isNaN = true := by
  cases s <;> decide

end Infinite
end TroughTrader.Binary64
