import TroughTrader.Proofs.Binary64.Monotone

/-!
# Sums and shares

A sum of two finite values is the exact sum, rounded (`isNearest_add`). Summed from the left, one
undefined term makes all that follows undefined (`isNaN_foldl_add_of_mem`), and finite terms never
do: what is added up may overflow, but no infinity of the other sign is added to it afterwards
(`isNaN_foldl_add_of_isFinite`). A quotient by a positive value, such as a count, and a product
with one are undefined exactly if the first operand is.
-/

namespace TroughTrader.Binary64

open Float.Model

variable {x y : Float}

theorem add_eq_pack (x y : Float) :
    x + y = Float.ofModel (pack
      (UnpackedFloat.add Format.binary64 x.toModel.unpack y.toModel.unpack)) := rfl

section Sum

theorem isNaN_add (h : x.isNaN = true ∨ y.isNaN = true) : (x + y).isNaN = true := by
  have hundefined : UnpackedFloat.add Format.binary64 x.toModel.unpack y.toModel.unpack =
      .notANumber := by
    rcases h with h | h
    · rw [unpack_eq_of_isNaN h]
      rfl
    · rw [unpack_eq_of_isNaN h]
      cases x.toModel.unpack <;> rfl
  rw [add_eq_pack, hundefined]
  exact isNaN_pack_notANumber

/-- A zero leaves a number as it is. -/
theorem add_of_significand_eq_zero (hx : x.isFinite = true) (hy : y.isFinite = true)
    (h : (significand x).1 = 0 ∨ (significand y).1 = 0) : IsNearest (x + y) (value x + value y) := by
  by_cases hzx : (significand x).1 = 0
  · rw [value_of_significand_eq_zero hzx, zero_add]
    by_cases hzy : (significand y).1 = 0
    · rw [value_of_significand_eq_zero hzy, add_eq_pack, unpack_of_isFinite hx,
        unpack_of_isFinite hy, dif_pos hzx, dif_pos hzy, signOf_eq_signIf, signOf_eq_signIf]
      cases isNegative x <;> cases isNegative y <;> exact ⟨by decide, by decide⟩
    · have hsum : x + y = y := by
        rw [add_eq_pack]
        conv_rhs => rw [← ofModel_pack_unpack y]
        rw [unpack_of_isFinite hx, unpack_of_isFinite hy, dif_pos hzx, dif_neg hzy]
        rfl
      rw [hsum]
      exact isNearest_value hy
  · have hzy := h.resolve_left hzx
    have hsum : x + y = x := by
      rw [add_eq_pack]
      conv_rhs => rw [← ofModel_pack_unpack x]
      rw [unpack_of_isFinite hx, unpack_of_isFinite hy, dif_neg hzx, dif_pos hzy]
      rfl
    rw [hsum, value_of_significand_eq_zero hzy, add_zero]
    exact isNearest_value hx

theorem isNearest_add (hx : x.isFinite = true) (hy : y.isFinite = true) :
    IsNearest (x + y) (value x + value y) := by
  by_cases hzero : (significand x).1 = 0 ∨ (significand y).1 = 0
  · exact add_of_significand_eq_zero hx hy hzero
  · obtain ⟨hzx, hzy⟩ := not_or.1 hzero
    -- both are counted in units of the lower place
    have h := isNearest_normalize
      ((signOf x).apply ((significand x).1 <<<
          ((significand x).2 - min (significand x).2 (significand y).2).toNat : ℕ) +
        (signOf y).apply ((significand y).1 <<<
          ((significand y).2 - min (significand x).2 (significand y).2).toNat : ℕ))
      (min (significand x).2 (significand y).2)
    rw [Int.cast_add, add_mul, apply_shiftLeft_mul x (min_le_left _ _),
      apply_shiftLeft_mul y (min_le_right _ _)] at h
    rw [add_eq_pack, unpack_of_isFinite hx, unpack_of_isFinite hy, dif_neg hzx, dif_neg hzy]
    exact h

/-- An infinity is not moved by what is finite. -/
theorem infinity_add (s : Bool) (hy : y.isFinite = true) : infinity s + y = infinity s := by
  rw [add_eq_pack, unpack_infinity, unpack_of_isFinite hy, ← ofModel_pack_infinity]
  by_cases hm : (significand y).1 = 0
  · rw [dif_pos hm]
    rfl
  · rw [dif_neg hm]
    rfl

theorem isNaN_add_of_isFinite (hx : x.isNaN = false) (hy : y.isFinite = true) :
    (x + y).isNaN = false := by
  cases hxf : x.isFinite with
  | true => exact (isNearest_add hxf hy).isNaN
  | false =>
    rw [eq_infinity hx hxf, infinity_add _ hy]
    exact isNaN_infinity _

theorem isNaN_foldl_add {start : Float} (h : start.isNaN = true) (terms : List Float) :
    (terms.foldl (· + ·) start).isNaN = true := by
  induction terms generalizing start with
  | nil => exact h
  | cons x terms ih => exact ih (isNaN_add (Or.inl h))

theorem isNaN_foldl_add_of_mem {terms : List Float} (hmem : x ∈ terms) (hx : x.isNaN = true)
    (start : Float) : (terms.foldl (· + ·) start).isNaN = true := by
  induction terms generalizing start with
  | nil => cases hmem
  | cons y terms ih =>
    rcases List.mem_cons.1 hmem with rfl | hmem
    · exact isNaN_foldl_add (isNaN_add (Or.inr hx)) terms
    · exact ih hmem (start + y)

theorem isNaN_foldl_add_of_isFinite {terms : List Float} (h : ∀ x ∈ terms, x.isFinite = true)
    {start : Float} (hstart : start.isNaN = false) :
    (terms.foldl (· + ·) start).isNaN = false := by
  induction terms generalizing start with
  | nil => exact hstart
  | cons x terms ih =>
    rw [List.forall_mem_cons] at h
    exact ih h.2 (isNaN_add_of_isFinite hstart h.1)

end Sum

section Share

/-- A count is close enough to its number to be divided by. -/
theorem ofCount_spec {n : UInt64} (h : 1 ≤ n.toNat) :
    (ofCount n).isFinite = true ∧ 0 < value (ofCount n) := by
  have hnearest : IsNearest (ofCount n) n.toNat := by
    have hround := isNearest_normalize n.toNat 0
    rw [zpow_zero, mul_one] at hround
    exact_mod_cast hround
  have hfinite : (ofCount n).isFinite = true := by
    by_contra hinfinite
    have hlt := hnearest.lt_of_infinite (Bool.not_eq_true _ ▸ hinfinite)
    rw [Nat.abs_cast] at hlt
    exact absurd n.toNat_lt (not_lt.2 (by exact_mod_cast hlt.le))
  refine ⟨hfinite, ?_⟩
  rw [value_pos_iff hfinite, hnearest.rank]
  apply nearestRank_pos
  have hone : (1 : ℚ) ≤ n.toNat := by exact_mod_cast h
  exact (zpow_le_one_of_nonpos₀ (by norm_num) (by norm_num)).trans hone

theorem isNaN_div (h : x.isNaN = true) (y : Float) : (x / y).isNaN = true := by
  rw [div_eq_pack, unpack_eq_of_isNaN h]
  exact isNaN_pack_notANumber

variable {p : Float} (hp : p.isFinite = true) (hpos : 0 < value p)
include hp hpos

theorem isNaN_div_of_pos (x : Float) : (x / p).isNaN = x.isNaN := by
  cases hx : x.isNaN with
  | true => exact isNaN_div hx p
  | false =>
    cases hxf : x.isFinite with
    | true => exact (isNearest_div hxf hp hpos.ne').isNaN
    | false =>
      rw [eq_infinity hx hxf, infinity_div _ hp (isNegative_of_value_pos hpos)]
      exact isNaN_infinity _

theorem isNaN_mul_of_pos (x : Float) : (x * p).isNaN = x.isNaN := by
  cases hx : x.isNaN with
  | true => exact isNaN_mul p hx
  | false =>
    cases hxf : x.isFinite with
    | true => exact (isNearest_mul hxf hp).isNaN
    | false =>
      rw [eq_infinity hx hxf, infinity_mul _ hp hpos]
      exact isNaN_infinity _

end Share
end TroughTrader.Binary64
