import TroughTrader.Proofs.Binary64.Value

/-!
# What the nearest binary64 depends on

The binary64 nearest to a ratio is one of its value alone (`nearestBits_congr`): the last place is
fixed by the power of two that the value lies next to (`lastPlace_eq`), and counted in units of that
place equal ratios are rounded to the same whole number. A value that is half the least magnitude or
less is rounded to zero and one beyond the largest to infinity, and the exact value of a finite
binary64 is rounded to that binary64 (`nearest_self`).
-/

namespace TroughTrader.Binary64

def ratio (num den : ℕ) : ℚ := num / den

section Units

variable {num den : ℕ} (hden : 0 < den)
include hden

theorem inUnits_snd_pos (e : ℤ) : 0 < (inUnits num den e).2 := by
  simp only [inUnits, Nat.shiftLeft_eq]
  positivity

theorem ratio_inUnits (e : ℤ) :
    ratio (inUnits num den e).1 (inUnits num den e).2 = ratio num den / 2 ^ e := by
  have hden' : (den : ℚ) ≠ 0 := by exact_mod_cast hden.ne'
  simp only [ratio, inUnits, Nat.shiftLeft_eq, Nat.cast_mul, Nat.cast_pow, Nat.cast_ofNat]
  rw [← zpow_natCast, ← zpow_natCast]
  rcases le_total 0 e with h | h
  · rw [Int.toNat_of_nonneg h, Int.toNat_of_nonpos (by omega)]
    simp only [Nat.cast_zero, zpow_zero, mul_one]
    rw [div_div]
  · rw [Int.toNat_of_nonneg (by omega : 0 ≤ -e), Int.toNat_of_nonpos h, zpow_neg]
    simp only [Nat.cast_zero, zpow_zero, mul_one]
    field_simp

end Units

theorem roundHalfEven_mul_left {k : ℕ} (hk : 0 < k) (num den : ℕ) :
    roundHalfEven (k * num) (k * den) = roundHalfEven num den := by
  have hlt : k * den < 2 * (k * (num % den)) ↔ den < 2 * (num % den) := by
    rw [Nat.mul_left_comm]
    exact Nat.mul_lt_mul_left hk
  have heq : 2 * (k * (num % den)) = k * den ↔ 2 * (num % den) = den := by
    rw [Nat.mul_left_comm]
    exact Nat.mul_right_inj hk.ne'
  simp only [roundHalfEven, Nat.mul_div_mul_left _ _ hk, Nat.mul_mod_mul_left, hlt, heq]

theorem roundHalfEven_congr {num den num' den' : ℕ} (hden : 0 < den) (hden' : 0 < den')
    (h : ratio num den = ratio num' den') : roundHalfEven num den = roundHalfEven num' den' := by
  have hcross : num * den' = num' * den := by
    have h0 : (den : ℚ) ≠ 0 := by exact_mod_cast hden.ne'
    have h0' : (den' : ℚ) ≠ 0 := by exact_mod_cast hden'.ne'
    rw [ratio, ratio, div_eq_div_iff h0 h0'] at h
    exact_mod_cast h
  rw [← roundHalfEven_mul_left hden' num, ← roundHalfEven_mul_left hden num',
    Nat.mul_comm den' num, Nat.mul_comm den num', hcross, Nat.mul_comm den' den]

/-- A value is counted in 53 binary digits from this place on. -/
def IsLeading (v : ℚ) (e : ℤ) : Prop := 2 ^ 52 * 2 ^ e ≤ v ∧ v < 2 ^ 53 * 2 ^ e

theorem IsLeading.unique {v : ℚ} {e e' : ℤ} (h : IsLeading v e) (h' : IsLeading v e') : e = e' := by
  have hle {p q : ℤ} (hp : IsLeading v p) (hq : IsLeading v q) : p ≤ q := by
    by_contra hlt
    have hpow : (2 : ℚ) ^ (q + 1) ≤ 2 ^ p := zpow_le_zpow_right₀ (by norm_num) (by omega)
    rw [zpow_add_one₀ (by norm_num)] at hpow
    have := hp.1
    have := hq.2
    linarith
  exact le_antisymm (hle h h') (hle h' h)

theorem div_lt_iff_ratio_lt {num den : ℕ} (hden : 0 < den) (n : ℕ) :
    num / den < n ↔ ratio num den < n := by
  have hden' : (0 : ℚ) < den := by exact_mod_cast hden
  rw [Nat.div_lt_iff_lt_mul hden, ratio, div_lt_iff₀ hden']
  exact_mod_cast Iff.rfl

/-- The binary lengths of numerator and denominator leave two places to choose from. -/
theorem lastPlace_spec {num den : ℕ} (hnum : 0 < num) (hden : 0 < den) :
    ∃ e, IsLeading (ratio num den) e ∧ lastPlace num den = max (-1074) e := by
  let guess : ℤ := (num.log2 : ℤ) - den.log2 - 52
  have hnum' : (0 : ℚ) < num := by exact_mod_cast hnum
  have hden' : (0 : ℚ) < den := by exact_mod_cast hden
  have hlow : (2 : ℚ) ^ 51 * 2 ^ guess ≤ ratio num den := by
    have h1 : (2 : ℚ) ^ num.log2 ≤ num := by exact_mod_cast Nat.log2_self_le hnum.ne'
    have h2 : (den : ℚ) ≤ 2 ^ (den.log2 + 1) := by exact_mod_cast Nat.lt_log2_self.le
    rw [ratio, le_div_iff₀ hden']
    calc (2 : ℚ) ^ 51 * 2 ^ guess * den ≤ 2 ^ 51 * 2 ^ guess * 2 ^ (den.log2 + 1) := by gcongr
      _ = 2 ^ num.log2 := by
        simp only [← zpow_natCast]
        rw [← zpow_add₀ (by norm_num), ← zpow_add₀ (by norm_num)]
        congr 1
        push_cast
        omega
      _ ≤ num := h1
  have hhigh : ratio num den < (2 : ℚ) ^ 53 * 2 ^ guess := by
    have h1 : (num : ℚ) < 2 ^ (num.log2 + 1) := by exact_mod_cast Nat.lt_log2_self
    have h2 : (2 : ℚ) ^ den.log2 ≤ den := by exact_mod_cast Nat.log2_self_le hden.ne'
    rw [ratio, div_lt_iff₀ hden']
    calc (num : ℚ) < 2 ^ (num.log2 + 1) := h1
      _ = 2 ^ 53 * 2 ^ guess * 2 ^ den.log2 := by
        simp only [← zpow_natCast]
        rw [← zpow_add₀ (by norm_num), ← zpow_add₀ (by norm_num)]
        congr 1
        push_cast
        omega
      _ ≤ 2 ^ 53 * 2 ^ guess * den := by gcongr
  have hchoice : (inUnits num den guess).1 / (inUnits num den guess).2 < leadingBit ↔
      ratio num den < 2 ^ 52 * 2 ^ guess := by
    rw [div_lt_iff_ratio_lt (inUnits_snd_pos hden _), ratio_inUnits hden, div_lt_iff₀ (by positivity)]
    norm_num [leadingBit]
  have hplace : lastPlace num den =
      max (-1074) (if ratio num den < 2 ^ 52 * 2 ^ guess then guess - 1 else guess) := by
    simp only [← hchoice]
    rfl
  rw [hplace]
  by_cases h : ratio num den < 2 ^ 52 * 2 ^ guess
  · refine ⟨guess - 1, ⟨?_, ?_⟩, by rw [if_pos h]⟩
    · rw [zpow_sub_one₀ (by norm_num)]
      linarith
    · rw [zpow_sub_one₀ (by norm_num)]
      linarith
  · exact ⟨guess, ⟨not_lt.1 h, hhigh⟩, by rw [if_neg h]⟩

theorem lastPlace_eq {num den : ℕ} (hnum : 0 < num) (hden : 0 < den) {e : ℤ}
    (he : IsLeading (ratio num den) e) : lastPlace num den = max (-1074) e := by
  obtain ⟨e', he', hplace⟩ := lastPlace_spec hnum hden
  rw [hplace, he.unique he']

section Nearest

variable {num den num' den' : ℕ}

theorem ratio_eq_zero_iff (hden : 0 < den) : ratio num den = 0 ↔ num = 0 := by
  have h0 : (den : ℚ) ≠ 0 := by exact_mod_cast hden.ne'
  rw [ratio, div_eq_zero_iff, or_iff_left h0, Nat.cast_eq_zero]

/-- The pattern of the nearest binary64, from the place of the first digit. -/
theorem nearestBits_eq (hden : 0 < den) (hne : num ≠ 0) {e : ℤ} (he : IsLeading (ratio num den) e) :
    nearestBits num den = min infinityBits ((max (-1074) e + 1074).toNat * leadingBit +
      roundHalfEven (inUnits num den (max (-1074) e)).1 (inUnits num den (max (-1074) e)).2) := by
  rw [nearestBits, if_neg hne, lastPlace_eq (Nat.pos_of_ne_zero hne) hden he]

theorem nearestBits_congr (hden : 0 < den) (hden' : 0 < den')
    (h : ratio num den = ratio num' den') :
    nearestBits num den = nearestBits num' den' := by
  by_cases hne : num = 0
  · have hne' : num' = 0 := by rwa [← ratio_eq_zero_iff hden', ← h, ratio_eq_zero_iff hden]
    rw [nearestBits, nearestBits, if_pos hne, if_pos hne']
  · have hne' : num' ≠ 0 := by rwa [ne_eq, ← ratio_eq_zero_iff hden', ← h, ratio_eq_zero_iff hden]
    obtain ⟨e, he, -⟩ := lastPlace_spec (Nat.pos_of_ne_zero hne) hden
    have he' : IsLeading (ratio num' den') e := h ▸ he
    rw [nearestBits_eq hden hne he, nearestBits_eq hden' hne' he']
    congr 2
    apply roundHalfEven_congr (inUnits_snd_pos hden _) (inUnits_snd_pos hden' _)
    rw [ratio_inUnits hden, ratio_inUnits hden']
    exact congrArg (· / _) h

theorem roundHalfEven_eq_zero {n d : ℕ} (hd : 0 < d) (h : 2 * n ≤ d) : roundHalfEven n d = 0 := by
  have hlt : n < d := by omega
  simp only [roundHalfEven, Nat.div_eq_of_lt hlt, Nat.mod_eq_of_lt hlt]
  rw [if_neg (by omega)]

theorem div_le_roundHalfEven (n d : ℕ) : n / d ≤ roundHalfEven n d := by
  simp only [roundHalfEven]
  split <;> omega

theorem nearestBits_of_le (hden : 0 < den) (h : ratio num den ≤ 2 ^ (-1075 : ℤ)) :
    nearestBits num den = 0 := by
  by_cases hne : num = 0
  · rw [nearestBits, if_pos hne]
  · obtain ⟨e, he, -⟩ := lastPlace_spec (Nat.pos_of_ne_zero hne) hden
    have hmax : max (-1074) e = -1074 := by
      apply max_eq_left
      by_contra hlt
      have hpow : (2 : ℚ) ^ (-1075 : ℤ) < 2 ^ e := zpow_lt_zpow_right₀ (by norm_num) (by omega)
      have hone : (0 : ℚ) < 2 ^ e := by positivity
      have := he.1
      linarith
    have hpos : 0 < (inUnits num den (-1074)).2 := inUnits_snd_pos hden (-1074)
    have hunits : ratio (inUnits num den (-1074)).1 (inUnits num den (-1074)).2 ≤ 1 / 2 := by
      rw [ratio_inUnits hden, div_le_iff₀ (by positivity)]
      calc ratio num den ≤ 2 ^ (-1075 : ℤ) := h
        _ = 1 / 2 * 2 ^ (-1074 : ℤ) := by
          rw [show (-1074 : ℤ) = -1075 + 1 by norm_num, zpow_add_one₀ (by norm_num)]
          ring
    rw [nearestBits_eq hden hne he, hmax, roundHalfEven_eq_zero hpos]
    · rfl
    · have hpos' : (0 : ℚ) < (inUnits num den (-1074)).2 := by exact_mod_cast hpos
      rw [ratio, div_le_iff₀ hpos'] at hunits
      have : (2 * (inUnits num den (-1074)).1 : ℚ) ≤ (inUnits num den (-1074)).2 := by linarith
      exact_mod_cast this

theorem nearestBits_of_ge (hden : 0 < den) (h : 2 ^ (1024 : ℤ) ≤ ratio num den) :
    nearestBits num den = infinityBits := by
  have hne : num ≠ 0 := by
    rw [ne_eq, ← ratio_eq_zero_iff hden]
    exact (lt_of_lt_of_le (by positivity) h).ne'
  obtain ⟨e, he, -⟩ := lastPlace_spec (Nat.pos_of_ne_zero hne) hden
  have hlarge : 972 ≤ e := by
    by_contra hlt
    have hpow : (2 : ℚ) ^ 53 * 2 ^ e ≤ 2 ^ (1024 : ℤ) := by
      rw [← zpow_natCast, ← zpow_add₀ (by norm_num)]
      exact zpow_le_zpow_right₀ (by norm_num) (by push_cast; omega)
    have := he.2
    linarith
  have hunits : leadingBit ≤ (inUnits num den e).1 / (inUnits num den e).2 := by
    rw [← not_lt, div_lt_iff_ratio_lt (inUnits_snd_pos hden _), ratio_inUnits hden, not_lt,
      le_div_iff₀ (by positivity)]
    have := he.1
    norm_num [leadingBit] at this ⊢
    exact this
  have hround := div_le_roundHalfEven (inUnits num den e).1 (inUnits num den e).2
  rw [nearestBits_eq hden hne he, max_eq_right (by omega)]
  apply min_eq_left
  have hplaces : 2046 ≤ (e + 1074).toNat := by omega
  calc infinityBits = 2046 * leadingBit + leadingBit := rfl
    _ ≤ (e + 1074).toNat * leadingBit + roundHalfEven _ _ :=
      Nat.add_le_add (Nat.mul_le_mul_right _ hplaces) (hunits.trans hround)

/-- A value with at most 53 binary digits from a place on is its own nearest. -/
theorem nearestBits_exact (hden : 0 < den) {m : ℕ} {q : ℤ} (hm : m < 2 ^ 53) (hq : -1074 ≤ q)
    (hlead : -1074 < q → 2 ^ 52 ≤ m) (h : ratio num den = m * 2 ^ q) :
    nearestBits num den = min infinityBits ((q + 1074).toNat * leadingBit + m) := by
  by_cases hne : num = 0
  · have hzero : m = 0 := by
      rw [← ratio_eq_zero_iff hden, h, mul_eq_zero, or_iff_left (by positivity)] at hne
      exact_mod_cast hne
    have hleast : q = -1074 := by omega
    rw [nearestBits, if_pos hne, hzero, hleast]
    rfl
  · obtain ⟨e, he, -⟩ := lastPlace_spec (Nat.pos_of_ne_zero hne) hden
    have hmax : max (-1074) e = q := by
      by_cases hbig : 2 ^ 52 ≤ m
      · have hq' : IsLeading (ratio num den) q := by
          have h1 : (2 : ℚ) ^ 52 ≤ m := by exact_mod_cast hbig
          have h2 : (m : ℚ) < 2 ^ 53 := by exact_mod_cast hm
          rw [h]
          constructor <;> gcongr
        rw [he.unique hq']
        exact max_eq_right hq
      · have hleast : q = -1074 := by omega
        have h1 : (m : ℚ) < 2 ^ 52 := by exact_mod_cast not_le.1 hbig
        rw [hleast] at h ⊢
        apply max_eq_left
        by_contra hlt
        have hpow : (2 : ℚ) ^ (-1074 : ℤ) ≤ 2 ^ e := zpow_le_zpow_right₀ (by norm_num) (by omega)
        have hlow := he.1
        have hhigh : ratio num den < 2 ^ 52 * 2 ^ (-1074 : ℤ) := by rw [h]; gcongr
        linarith
    have hround : roundHalfEven (inUnits num den q).1 (inUnits num den q).2 = m := by
      have hunits : ratio (inUnits num den q).1 (inUnits num den q).2 = ratio (m * 1) 1 := by
        rw [ratio_inUnits hden, div_eq_iff (by positivity), h, ratio, mul_one, Nat.cast_one,
          div_one]
      rw [roundHalfEven_congr (inUnits_snd_pos hden _) Nat.one_pos hunits,
        roundHalfEven_mul m Nat.one_pos]
    rw [nearestBits_eq hden hne he, hmax, hround]

end Nearest

theorem signed_eq {x : Float} {bits : ℕ}
    (h : x.toBits.toNat = bits + if isNegative x then signBit else 0) :
    signed (isNegative x) bits = x := by
  rw [signed, ← h, UInt64.ofNat_toNat, Float.ofBits_toBits]

/-- The exact magnitude of a finite value, with its sign, is rounded to the value itself. -/
theorem nearest_self {x : Float} (hx : x.isFinite = true) {num den : ℕ} (hden : 0 < den)
    (h : ratio num den = absValue x) : nearest (isNegative x) num den = x := by
  have hexponent : ((significand x).2 + 1074).toNat * leadingBit + (significand x).1 ≤
      infinityBits := by
    have hfinite := (isFinite_iff x).1 hx
    have hbelow : exponentField x < 2048 := Nat.mod_lt _ (by decide)
    have hfraction : fractionField x < leadingBit := Nat.mod_lt _ (by decide)
    rw [significand_eq, infinityBits, leadingBit] at *
    split
    · simp only
      omega
    · simp only
      omega
  rw [nearest, nearestBits_exact hden (significand_lt x) (le_significand x)
    leadingBit_le_significand h, min_eq_right hexponent]
  exact signed_eq (toBits_eq x)

theorem zero_self {x : Float} (h : (x == 0) = true) : zero (isNegative x) = x := by
  obtain ⟨-, -, rfl | ⟨rfl, -⟩ | ⟨rfl, -⟩⟩ := Float.beq_iff_ne_nan_and_eq.1 h
  · decide
  · decide
  · decide

end TroughTrader.Binary64
