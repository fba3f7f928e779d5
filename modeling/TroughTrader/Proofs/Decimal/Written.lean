import TroughTrader.Decimal.Layout
import TroughTrader.Proofs.Binary64.Rounding

/-!
# Numbers that are written are read back

`Numeral.value` is the exact magnitude that a numeral names. Reading a numeral depends on its sign
and on this value alone (`toFloat_eq`), although values that are far too small or too large are cut
off before they are rounded. The decimal with the fewest digits reads back as the value that it is
taken from (`toFloat_of_value_shortest`), and every layout only moves its point, so that what a
layout writes is read back bit for bit (`Layout.toFloat_numeral`).
-/

namespace TroughTrader.Decimal

open Binary64

namespace Digits

theorem toNat_append (ds es : Digits) : toNat (ds ++ es) = toNat ds * 10 ^ es.length + toNat es := by
  induction es using List.reverseRecOn with
  | nil => simp [toNat]
  | append_singleton es e ih =>
    rw [← List.append_assoc, toNat_concat, ih, toNat_concat, List.length_append,
      List.length_singleton, pow_succ]
    ring

theorem toNat_zeros (count : Nat) : toNat (zeros count) = 0 := by
  induction count with
  | zero => rfl
  | succ count ih =>
    rw [zeros, List.replicate_succ', toNat_concat, ← zeros, ih]
    rfl

theorem length_zeros (count : Nat) : (zeros count).length = count := List.length_replicate

theorem toNat_zeros_append (count : Nat) (ds : Digits) : toNat (zeros count ++ ds) = toNat ds := by
  rw [toNat_append, toNat_zeros, Nat.zero_mul, Nat.zero_add]

theorem toNat_append_zeros (ds : Digits) (count : Nat) :
    toNat (ds ++ zeros count) = toNat ds * 10 ^ count := by
  rw [toNat_append, toNat_zeros, length_zeros, Nat.add_zero]

theorem head?_ofNat {n : Nat} (h : 0 < n) : (ofNat n).head? ≠ some zero := by
  fun_induction ofNat n with
  | case1 n hlt =>
    intro hzero
    have := congrArg Fin.val (Option.some.inj hzero)
    exact h.ne' this
  | case2 n hge ih =>
    rw [List.head?_append_of_ne_nil _ (ofNat_ne_nil _)]
    exact ih (by omega)

theorem length_ofNat_le {n k : Nat} (hk : 0 < k) (h : n < 10 ^ k) : (ofNat n).length ≤ k := by
  fun_induction ofNat n generalizing k with
  | case1 => exact hk
  | case2 n hge ih =>
    obtain ⟨k, rfl⟩ := Nat.exists_eq_succ_of_ne_zero hk.ne'
    rw [pow_succ] at h
    have hpos : 0 < k := by
      rcases Nat.eq_zero_or_pos k with rfl | hpos
      · omega
      · exact hpos
    rw [List.length_append, List.length_singleton]
    exact Nat.succ_le_succ (ih hpos (by omega))

end Digits

def Scaled.value (s : Scaled) : ℚ := s.coefficient * 10 ^ s.scale

namespace Numeral

def value (n : Numeral) : ℚ := n.coefficient * 10 ^ n.scale

theorem ratio_inTens (c : ℕ) (s : ℤ) :
    0 < (inTens c 1 (-s)).2 ∧ ratio (inTens c 1 (-s)).1 (inTens c 1 (-s)).2 = c * 10 ^ s := by
  have hpow (k : ℕ) : Nat.pow 10 k = 10 ^ k := rfl
  simp only [inTens, hpow, neg_neg, ratio]
  refine ⟨by positivity, ?_⟩
  push_cast
  rw [← zpow_natCast, ← zpow_natCast, one_mul]
  rcases le_total 0 s with h | h
  · rw [Int.toNat_of_nonneg h, Int.toNat_of_nonpos (by omega : -s ≤ 0), Nat.cast_zero, zpow_zero,
      div_one]
  · rw [Int.toNat_of_nonpos h, Int.toNat_of_nonneg (by omega : 0 ≤ -s), Nat.cast_zero, zpow_zero,
      mul_one, zpow_neg, div_inv_eq_mul]

/-- Eight is below ten, so a decimal that vanishes lies under half the least magnitude. -/
theorem value_le_of_vanishes {c : ℕ} {s : ℤ} (h : vanishes c s = true) :
    (c : ℚ) * 10 ^ s ≤ 2 ^ (-1075 : ℤ) := by
  rw [vanishes, decide_eq_true_iff] at h
  have hneg : s ≤ 0 := by omega
  have hlog : (c : ℚ) ≤ 2 ^ ((c.log2 : ℤ) + 1) := by
    have : (c : ℚ) ≤ 2 ^ (c.log2 + 1) := by exact_mod_cast Nat.lt_log2_self.le
    exact_mod_cast this
  have htens : (10 : ℚ) ^ s ≤ 2 ^ (3 * s) := by
    obtain ⟨k, rfl⟩ := Int.exists_eq_neg_ofNat hneg
    rw [mul_neg, zpow_neg, zpow_neg, zpow_mul, zpow_natCast, zpow_natCast]
    exact inv_anti₀ (by positivity) (pow_le_pow_left₀ (by norm_num) (by norm_num) k)
  calc (c : ℚ) * 10 ^ s ≤ 2 ^ ((c.log2 : ℤ) + 1) * 2 ^ (3 * s) := by gcongr
    _ = 2 ^ ((c.log2 : ℤ) + 1 + 3 * s) := by rw [← zpow_add₀ (by norm_num)]
    _ ≤ 2 ^ (-1075 : ℤ) := zpow_le_zpow_right₀ (by norm_num) (by omega)

/-- Reading a numeral rounds its value, once. -/
theorem toFloat_eq {n : Numeral} {num den : ℕ} (hden : 0 < den) (h : ratio num den = n.value) :
    n.toFloat = nearest n.negative num den := by
  rw [toFloat]
  by_cases hsmall : n.coefficient = 0 ∨ vanishes n.coefficient n.scale = true
  · have hle : ratio num den ≤ 2 ^ (-1075 : ℤ) := by
      rw [h, value]
      rcases hsmall with hzero | hvanishes
      · rw [hzero, Nat.cast_zero, zero_mul]
        positivity
      · exact value_le_of_vanishes hvanishes
    simp only [if_pos hsmall]
    rw [nearest, nearestBits_of_le hden hle, Binary64.zero]
  · simp only [if_neg hsmall]
    by_cases hlarge : 400 < n.scale
    · have hge : 2 ^ (1024 : ℤ) ≤ ratio num den := by
        have hone : (1 : ℚ) ≤ n.coefficient := by
          exact_mod_cast Nat.one_le_iff_ne_zero.2 (not_or.1 hsmall).1
        rw [h, value]
        calc (2 : ℚ) ^ (1024 : ℤ) ≤ 2 ^ (3 * 400 : ℤ) :=
            zpow_le_zpow_right₀ (by norm_num) (by norm_num)
          _ = (2 ^ (3 : ℤ)) ^ (400 : ℤ) := zpow_mul _ _ _
          _ ≤ 1 * 10 ^ (400 : ℤ) := by
            rw [one_mul]
            exact zpow_le_zpow_left₀ (by norm_num) (by norm_num) (by norm_num)
          _ ≤ n.coefficient * 10 ^ n.scale := by
            gcongr
            norm_num
      rw [if_pos hlarge, nearest, nearestBits_of_ge hden hge, Binary64.infinity]
    · obtain ⟨hpos, hratio⟩ := ratio_inTens n.coefficient n.scale
      rw [if_neg hlarge]
      exact congrArg (signed _) (nearestBits_congr hpos hden (hratio.trans h.symm))

theorem toFloat_congr {n n' : Numeral} (hnegative : n.negative = n'.negative)
    (hvalue : n.value = n'.value) : n.toFloat = n'.toFloat := by
  obtain ⟨hpos, hratio⟩ := ratio_inTens n.coefficient n.scale
  rw [toFloat_eq hpos hratio, toFloat_eq hpos (hratio.trans hvalue), hnegative]

theorem toFloat_of_value_eq {n : Numeral} {x : Float} (hx : x.isFinite = true)
    (hnegative : n.negative = isNegative x) (hvalue : n.value = absValue x) : n.toFloat = x := by
  obtain ⟨hpos, hratio⟩ := ratio_inTens n.coefficient n.scale
  rw [toFloat_eq hpos hratio, hnegative]
  exact nearest_self hx hpos (hratio.trans hvalue)

theorem toFloat_of_coefficient {n : Numeral} (h : n.coefficient = 0) :
    n.toFloat = Binary64.zero n.negative := by
  rw [toFloat]
  exact if_pos (Or.inl h)

end Numeral

namespace Scaled

theorem coefficient_numeral (negative : Bool) (s : Scaled) :
    (s.numeral negative).coefficient = s.coefficient := by
  rw [Numeral.coefficient, numeral, List.append_nil, Digits.toNat_ofNat]

theorem value_numeral (negative : Bool) (s : Scaled) : (s.numeral negative).value = s.value := by
  have hscale : (s.numeral negative).scale = s.scale := Int.sub_zero _
  rw [Numeral.value, coefficient_numeral, hscale, value]

theorem value_trim (c : ℕ) (scale : ℤ) : (trim c scale).value = c * 10 ^ scale := by
  fun_induction trim c scale with
  | case1 c scale h ih =>
    have hc : (c : ℚ) = (c / 10 : ℕ) * 10 := by
      exact_mod_cast (Nat.div_mul_cancel (Nat.dvd_of_mod_eq_zero h.2)).symm
    rw [ih, hc, zpow_add_one₀ (by norm_num)]
    ring
  | case2 c scale h => rfl

/-- A power of two below one is a power of five over a power of ten. -/
theorem value_exact (x : Float) : (exact x).value = absValue x := by
  have hpow (k : ℕ) : Nat.pow 5 k = 5 ^ k := rfl
  simp only [value, exact, absValue, Nat.shiftLeft_eq, hpow]
  generalize (significand x).1 = m
  generalize (significand x).2 = q
  push_cast
  rcases le_total 0 q with h | h
  · rw [Int.toNat_of_nonpos (by omega : -q ≤ 0), min_eq_right h, ← zpow_natCast 2,
      Int.toNat_of_nonneg h, pow_zero, zpow_zero, mul_one, mul_one]
  · obtain ⟨k, rfl⟩ := Int.exists_eq_neg_ofNat h
    rw [Int.toNat_of_nonpos h, min_eq_left h, neg_neg, Int.toNat_natCast, pow_zero, mul_one,
      zpow_neg, zpow_neg, zpow_natCast, zpow_natCast, mul_assoc, show (10 : ℚ) = 5 * 2 by norm_num,
      mul_pow, mul_inv, ← mul_assoc (5 ^ k), mul_inv_cancel₀ (by positivity), one_mul]

theorem readsAs_of_candidate? {tie : Tie} {x : Float} {count : ℕ} {s : Scaled}
    (h : candidate? tie x count = some s) : s.readsAs x = true := by
  simp only [candidate?] at h
  split at h
  · cases h
    exact (‹_ ∧ _›).1
  · split at h
    · cases h
      assumption
    · cases h

theorem toFloat_of_value_shortest {tie : Tie} {x : Float} (hx : x.isFinite = true) {n : Numeral}
    (hnegative : n.negative = isNegative x) (hvalue : n.value = (shortest tie x).value) :
    n.toFloat = x := by
  rw [shortest, value_trim] at hvalue
  cases hfound : (List.range 17).findSome? fun k => candidate? tie x (k + 1) with
  | none =>
    rw [hfound, Option.getD_none] at hvalue
    exact Numeral.toFloat_of_value_eq hx hnegative (hvalue.trans (value_exact x))
  | some s =>
    rw [hfound, Option.getD_some] at hvalue
    obtain ⟨k, -, hcandidate⟩ := List.exists_of_findSome?_eq_some hfound
    have hreads : (s.numeral (isNegative x)).toFloat = x :=
      Float.toBits_inj.1 (eq_of_beq (readsAs_of_candidate? hcandidate))
    rw [← hreads]
    exact Numeral.toFloat_congr hnegative (hvalue.trans (value_numeral (isNegative x) s).symm)

end Scaled

namespace Layout

theorem toNat_append_wholeFraction (l : Layout) (ds : Digits) :
    Digits.toNat (ds ++ l.wholeFraction) = Digits.toNat ds * 10 ^ l.wholeFraction.length := by
  rw [wholeFraction]
  split
  · rw [Digits.toNat_append_zeros, Digits.length_zeros]
  · rw [List.append_nil, List.length_nil, pow_zero, Nat.mul_one]

theorem value_positional (l : Layout) (negative : Bool) (s : Scaled) :
    (l.positional negative s).value = s.value := by
  simp only [positional]
  split
  · rename_i hwhole
    obtain ⟨k, hk⟩ := Int.eq_ofNat_of_zero_le hwhole
    simp only [Numeral.value, Numeral.coefficient, Numeral.scale, Option.getD_none, Scaled.value,
      toNat_append_wholeFraction, Digits.toNat_append_zeros, Digits.toNat_ofNat, hk,
      Int.toNat_natCast]
    push_cast
    rw [zero_sub, zpow_neg, zpow_natCast, zpow_natCast, mul_assoc,
      mul_inv_cancel₀ (by positivity), mul_one]
  · rename_i hpart
    split
    · rename_i hshort
      simp only [Numeral.value, Numeral.coefficient, Numeral.scale, Option.getD_none, Scaled.value,
        Digits.toNat_zeros_append, Digits.toNat_ofNat, List.length_append, Digits.length_zeros]
      congr 2
      omega
    · rename_i hlong
      simp only [Numeral.value, Numeral.coefficient, Numeral.scale, Option.getD_none, Scaled.value,
        List.take_append_drop, Digits.toNat_ofNat, List.length_drop]
      congr 2
      omega

theorem value_scientific (negative : Bool) (s : Scaled) :
    (scientific negative s).value = s.value := by
  simp only [scientific, Numeral.value, Numeral.coefficient, Numeral.scale, Option.getD_some,
    Scaled.value, List.take_append_drop, Digits.toNat_ofNat, List.length_drop]
  congr 2
  omega

/-- A numeral is that of zero, or it is laid out from the fewest digits in one of two ways. -/
theorem numeral_cases (l : Layout) (x : Float) :
    ((x == 0) = true ∧ l.numeral x = ⟨isNegative x, Digits.zeros 1, l.wholeFraction, none⟩) ∨
    ((x == 0) = false ∧
      (l.numeral x = scientific (isNegative x) (.shortest l.tie x) ∨
        l.numeral x = l.positional (isNegative x) (.shortest l.tie x))) := by
  rw [numeral]
  cases hzero : x == 0 with
  | true => exact Or.inl ⟨rfl, rfl⟩
  | false =>
    refine Or.inr ⟨rfl, ?_⟩
    simp only [Bool.false_eq_true, if_false]
    split
    · exact Or.inl rfl
    · exact Or.inr rfl

theorem negative_positional (l : Layout) (negative : Bool) (s : Scaled) :
    (l.positional negative s).negative = negative := by
  simp only [positional]
  split
  · rfl
  · split <;> rfl

/-- A finite value that is written in any layout is read back bit for bit. -/
theorem toFloat_numeral (l : Layout) {x : Float} (hx : x.isFinite = true) :
    (l.numeral x).toFloat = x := by
  rcases l.numeral_cases x with ⟨hzero, h⟩ | ⟨-, h | h⟩
  · have hcoefficient : (l.numeral x).coefficient = 0 := by
      rw [h, Numeral.coefficient, toNat_append_wholeFraction, Digits.toNat_zeros, Nat.zero_mul]
    rw [Numeral.toFloat_of_coefficient hcoefficient, h]
    exact zero_self hzero
  · rw [h]
    exact Scaled.toFloat_of_value_shortest hx rfl (value_scientific _ _)
  · rw [h]
    exact Scaled.toFloat_of_value_shortest hx (l.negative_positional _ _) (l.value_positional _ _)

/-- A value that is not zero has a significant digit: without one it would be read as zero. -/
theorem coefficient_shortest_pos (tie : Tie) {x : Float} (hx : x.isFinite = true)
    (hne : (x == 0) = false) : 0 < (Scaled.shortest tie x).coefficient := by
  apply Nat.pos_of_ne_zero
  intro hzero
  let n := (Scaled.shortest tie x).numeral (isNegative x)
  have hcoefficient : n.coefficient = 0 := (Scaled.coefficient_numeral _ _).trans hzero
  have hreads : n.toFloat = x :=
    Scaled.toFloat_of_value_shortest hx rfl (Scaled.value_numeral _ _)
  rw [Numeral.toFloat_of_coefficient hcoefficient] at hreads
  have hzeros (negative : Bool) : (Binary64.zero negative == 0) = true := by
    cases negative <;> decide +kernel
  rw [← hreads, hzeros] at hne
  cases hne

end Layout

end TroughTrader.Decimal
