import TroughTrader.Proofs.Binary64.Accuracy
import TroughTrader.Proofs.Binary64.Special

/-!
# Arithmetic keeps the order

Two values in strict order have a positive difference, however close they are (`rank_sub_pos`), and
it grows as what is subtracted falls (`sub_le_sub_of_lt`). A product with a positive value and a
quotient by one grow with the first operand (`mul_le_mul_of_pos`, `div_le_div_of_pos`), and a
quotient of a positive value falls as the divisor grows (`div_le_div_of_le`).
-/

namespace TroughTrader.Binary64

variable {x y : Float}

section Difference

theorem value_mem_units (x : Float) : ∃ n : ℤ, value x = n * 2 ^ (-1074 : ℤ) := by
  have hle := le_significand x
  have hsplit : (2 : ℚ) ^ (significand x).2 =
      2 ^ ((significand x).2 + 1074).toNat * 2 ^ (-1074 : ℤ) := by
    rw [← zpow_natCast, ← zpow_add₀ (by norm_num), Int.toNat_of_nonneg (by omega)]
    congr 1
    ring
  refine ⟨(if isNegative x then -1 else 1) * ((significand x).1 *
    2 ^ ((significand x).2 + 1074).toNat : ℕ), ?_⟩
  rw [value, absValue, hsplit]
  generalize (2 : ℚ) ^ (-1074 : ℤ) = unit
  split <;> push_cast <;> ring

/-- Different numbers are a unit of the least place apart. -/
theorem least_le_sub (h : value y < value x) : 2 ^ (-1074 : ℤ) ≤ value x - value y := by
  obtain ⟨m, hm⟩ := value_mem_units x
  obtain ⟨n, hn⟩ := value_mem_units y
  have hunit : (0 : ℚ) < 2 ^ (-1074 : ℤ) := by positivity
  rw [hm, hn] at h ⊢
  have hlt : n + 1 ≤ m := by exact_mod_cast lt_of_mul_lt_mul_right h hunit.le
  have hone : (n : ℚ) + 1 ≤ m := by exact_mod_cast hlt
  rw [← sub_mul]
  exact le_mul_of_one_le_left hunit.le (by linarith)

theorem nearestRank_pos {v : ℚ} (hv : 2 ^ (-1074 : ℤ) ≤ v) : 0 < nearestRank v := by
  have hpos : (0 : ℚ) ≤ 2 ^ (-1074 : ℤ) := by positivity
  obtain ⟨num, den, hden, hratio⟩ := exists_ratio hpos
  have hbits := nearestBits_exact (m := 1) (q := -1074) hden (by norm_num) le_rfl
    (fun h => absurd h (lt_irrefl _)) (by rw [hratio, Nat.cast_one, one_mul])
  have hleast : nearestRank (2 ^ (-1074 : ℤ)) = 1 := by
    rw [nearestRank_of_nonneg hden hpos hratio, hbits]
    rfl
  have := nearestRank_mono hv
  omega

/-- Of two values in strict order, either both are finite or their difference is infinite. -/
theorem sub_of_lt (h : y < x) :
    (x.isFinite = true ∧ y.isFinite = true) ∨ x - y = infinity false := by
  obtain ⟨hy, hx⟩ := isNaN_of_lt h
  rcases le_cases (le_of_lt h) with rfl | rfl | ⟨hy, hx, -⟩
  · right
    cases hxf : x.isFinite with
    | true => exact sub_infinity true hxf
    | false =>
      have hend := eq_infinity hx hxf
      cases hs : isNegative x with
      | true =>
        rw [hend, hs] at h
        exact absurd h (not_lt_of_lt h)
      | false =>
        rw [hend, hs]
        decide
  · right
    apply infinity_sub false hy
    rintro rfl
    exact not_lt_of_lt h h
  · exact Or.inl ⟨hx, hy⟩

theorem rank_sub_pos (h : y < x) : (x - y).isNaN = false ∧ 0 < rank (x - y) := by
  rcases sub_of_lt h with ⟨hx, hy⟩ | hinfinite
  · have hnearest := isNearest_sub hx hy
    refine ⟨hnearest.isNaN, ?_⟩
    rw [hnearest.rank]
    exact nearestRank_pos (least_le_sub ((lt_iff_value_lt hy hx).1 h))
  · rw [hinfinite, rank_infinity]
    exact ⟨isNaN_infinity false, by decide⟩

theorem sub_le_sub_of_lt {z : Float} (h : z ≤ y) (hlt : y < x) : x - y ≤ x - z := by
  rcases sub_of_lt (lt_of_le_of_lt h hlt) with ⟨hx, hz⟩ | hinfinite
  · have hy := isFinite_of_le_of_le hz hx h (le_of_lt hlt)
    have hvalue := (le_iff_value_le hz hy).1 h
    exact (isNearest_sub hx hy).le (isNearest_sub hx hz) (by linarith)
  · rw [hinfinite]
    exact le_infinity (rank_sub_pos hlt).1

end Difference

/-- An operation that keeps the infinities and rounds a growing function grows. -/
theorem le_of_isNearest {f : Float → Float} {g : ℚ → ℚ} (hg : Monotone g)
    (hfinite : ∀ {x}, x.isFinite = true → IsNearest (f x) (g (value x)))
    (hinfinite : ∀ s, f (infinity s) = infinity s) (h : x ≤ y) : f x ≤ f y := by
  have hdefined {x : Float} (hx : x.isNaN = false) : (f x).isNaN = false := by
    cases hxf : x.isFinite with
    | true => exact (hfinite hxf).isNaN
    | false =>
      rw [eq_infinity hx hxf, hinfinite]
      exact isNaN_infinity _
  obtain ⟨hx, hy⟩ := isNaN_of_le h
  rcases le_cases h with rfl | rfl | ⟨hxf, hyf, hvalue⟩
  · rw [hinfinite]
    exact infinity_le (hdefined hy)
  · rw [hinfinite]
    exact le_infinity (hdefined hx)
  · exact (hfinite hxf).le (hfinite hyf) (hg hvalue)

section Positive

variable {p q : Float} (hp : p.isFinite = true) (hpos : 0 < value p)

include hpos in
theorem isNegative_of_value_pos : isNegative p = false := by
  rw [value] at hpos
  split at hpos
  · have := absValue_nonneg p
    linarith
  · exact Bool.eq_false_iff.2 ‹_›

include hp hpos

theorem isFinite_mul (hle : value p ≤ 1) (hx : x.isFinite = true) : (x * p).isFinite = true := by
  apply (isNearest_mul hx hp).isFinite_of_abs_le hx
  rw [abs_mul, abs_of_pos hpos]
  exact mul_le_of_le_one_right (abs_nonneg _) hle

theorem mul_le_mul_of_pos (h : x ≤ y) : x * p ≤ y * p :=
  le_of_isNearest (f := (· * p)) (fun _ _ h => mul_le_mul_of_nonneg_right h hpos.le)
    (fun hx => isNearest_mul hx hp) (fun s => infinity_mul s hp hpos) h

theorem div_le_div_of_pos (h : x ≤ y) : x / p ≤ y / p :=
  le_of_isNearest (f := (· / p)) (fun _ _ h => div_le_div_of_nonneg_right h hpos.le)
    (fun hx => isNearest_div hx hp hpos.ne')
    (fun s => infinity_div s hp (isNegative_of_value_pos hpos)) h

theorem div_le_div_of_le (hq : q.isFinite = true) (hx : x.isNaN = false) (hrank : 0 ≤ rank x)
    (h : p ≤ q) : x / q ≤ x / p := by
  have hvalue := (le_iff_value_le hp hq).1 h
  have hpos' := hpos.trans_le hvalue
  cases hxf : x.isFinite with
  | true =>
    apply (isNearest_div hxf hq hpos'.ne').le (isNearest_div hxf hp hpos.ne')
    have hnonneg : 0 ≤ value x := by
      rw [value_of_rank_nonneg hrank]
      exact absValue_nonneg x
    exact div_le_div_of_nonneg_left hnonneg hpos hvalue
  | false =>
    rw [eq_infinity hx hxf, infinity_div _ hp (isNegative_of_value_pos hpos),
      infinity_div _ hq (isNegative_of_value_pos hpos')]
    exact le_self (isNaN_infinity _)

end Positive

end TroughTrader.Binary64
