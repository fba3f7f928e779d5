import TroughTrader.Proofs.Binary64.Order

/-!
# Places that are dropped

A computation with binary64 values keeps a significand and, of the places after its last one, the
first and whether any other is set. `Stands` says which exact numbers that leaves. Dropping a place
keeps it true (`Stands.shiftRight`), and it is enough to round by (`Stands.roundedMantissa`). So the
rounding of the language's own model, which drops places and packs what is left, gives the binary64
nearest to the exact number (`ofModel_roundWithAccuracy`, `ofModel_round`).
-/

namespace TroughTrader.Binary64

open Float.Model
open UnpackedFloat (Sign ExtendedMantissa Accuracy)

def signIf (negative : Bool) : Sign := if negative then .negative else .positive

theorem signIf_mul (a b : Bool) : signIf a * signIf b = signIf (a != b) := by
  cases a <;> cases b <;> rfl

theorem signIf_div (a b : Bool) : signIf a / signIf b = signIf (a != b) := by
  cases a <;> cases b <;> rfl

theorem neg_signIf (a : Bool) : -signIf a = signIf (!a) := by
  cases a <;> rfl

/-- The exact number behind a significand and what is known of its further places, in units of its
last place: the first of them, and whether any other is set. -/
def Stands (em : ExtendedMantissa) (v : ℚ) : Prop :=
  match em.roundBit, em.stickyBit with
  | false, false => v = em.mantissa
  | false, true => (em.mantissa : ℚ) < v ∧ v < em.mantissa + 1 / 2
  | true, false => v = em.mantissa + 1 / 2
  | true, true => (em.mantissa : ℚ) + 1 / 2 < v ∧ v < em.mantissa + 1

theorem mantissa_ofMantissaAndAccuracy (m : ℕ) (acc : Accuracy) :
    (ExtendedMantissa.ofMantissaAndAccuracy m acc).mantissa = m := by
  cases acc with
  | exact => rfl
  | inexact o => cases o <;> rfl

theorem stands_exact (m : ℕ) : Stands (.ofMantissaAndAccuracy m .exact) m := rfl

theorem stands_div (n : ℕ) {d : ℕ} (hd : 0 < d) :
    Stands (.ofMantissaAndAccuracy (n / d) (UnpackedFloat.accuracyOfFraction (n % d) d))
      (ratio n d) := by
  have hd₀ : (0 : ℚ) < d := by exact_mod_cast hd
  have hparts : (n : ℚ) = d * (n / d : ℕ) + (n % d : ℕ) := by
    exact_mod_cast (Nat.div_add_mod n d).symm
  have hrest : ratio n d = (n / d : ℕ) + (n % d : ℕ) / (d : ℚ) := by
    rw [ratio, div_eq_iff hd₀.ne', add_mul, div_mul_cancel₀ _ hd₀.ne', mul_comm, ← hparts]
  have hone : ((n % d : ℕ) : ℚ) / d < 1 := by
    rw [div_lt_one hd₀]
    exact_mod_cast Nat.mod_lt n hd
  rw [hrest, UnpackedFloat.accuracyOfFraction]
  by_cases hzero : n % d = 0
  · rw [if_pos hzero, hzero]
    simp [Stands, ExtendedMantissa.ofMantissaAndAccuracy]
  · have hpos : (0 : ℚ) < ((n % d : ℕ) : ℚ) / d := by
      have : (0 : ℚ) < (n % d : ℕ) := by exact_mod_cast Nat.pos_of_ne_zero hzero
      positivity
    rw [if_neg hzero]
    rcases lt_trichotomy (2 * (n % d)) d with h | h | h
    · have h' : (2 : ℚ) * (n % d : ℕ) < d := by exact_mod_cast h
      have hhalf : ((n % d : ℕ) : ℚ) / d < 1 / 2 := by rw [div_lt_iff₀ hd₀]; linarith
      rw [compare_lt_iff_lt.2 h]
      change ((n / d : ℕ) : ℚ) < _ ∧ _ < ((n / d : ℕ) : ℚ) + 1 / 2
      constructor <;> linarith
    · have h' : (2 : ℚ) * (n % d : ℕ) = d := by exact_mod_cast h
      have hhalf : ((n % d : ℕ) : ℚ) / d = 1 / 2 := by rw [div_eq_iff hd₀.ne']; linarith
      rw [compare_eq_iff_eq.2 h, hhalf]
      rfl
    · have h' : (d : ℚ) < 2 * (n % d : ℕ) := by exact_mod_cast h
      have hhalf : 1 / 2 < ((n % d : ℕ) : ℚ) / d := by rw [lt_div_iff₀ hd₀]; linarith
      rw [compare_gt_iff_gt.2 h]
      change ((n / d : ℕ) : ℚ) + 1 / 2 < _ ∧ _ < ((n / d : ℕ) : ℚ) + 1
      constructor <;> linarith

namespace Stands

variable {em : ExtendedMantissa} {v : ℚ}

theorem mantissa_le (h : Stands em v) : (em.mantissa : ℚ) ≤ v ∧ v < em.mantissa + 1 := by
  obtain ⟨m, r, s⟩ := em
  cases r <;> cases s <;> simp only [Stands] at h ⊢
  · exact ⟨h.ge, by linarith⟩
  · exact ⟨h.1.le, by linarith⟩
  · exact ⟨by linarith, by linarith⟩
  · exact ⟨by linarith, h.2⟩

/-- Halving the unit keeps what is known: the dropped digit becomes the first further place. -/
theorem shiftRightOne (h : Stands em v) : Stands em.shiftRightOne (v / 2) := by
  obtain ⟨m, r, s⟩ := em
  have hparts : (m : ℚ) = 2 * (m / 2 : ℕ) + (m % 2 : ℕ) := by
    exact_mod_cast (Nat.div_add_mod m 2).symm
  rcases Nat.mod_two_eq_zero_or_one m with hm | hm
  · have heven : ExtendedMantissa.shiftRightOne ⟨m, r, s⟩ = ⟨m / 2, false, r || s⟩ := by
      simp only [ExtendedMantissa.shiftRightOne, hm, bne_self_eq_false]
    rw [hm] at hparts
    rw [heven]
    cases r <;> cases s <;>
      simp only [Stands, Bool.or_false, Bool.or_true, Nat.cast_zero] at h hparts ⊢
    case false.false => linarith
    all_goals constructor <;> linarith
  · have hodd : ExtendedMantissa.shiftRightOne ⟨m, r, s⟩ = ⟨m / 2, true, r || s⟩ := by
      simp only [ExtendedMantissa.shiftRightOne, hm]
      rfl
    rw [hm] at hparts
    rw [hodd]
    cases r <;> cases s <;>
      simp only [Stands, Bool.or_false, Bool.or_true, Nat.cast_one] at h hparts ⊢
    case false.false => linarith
    all_goals constructor <;> linarith

theorem shiftRight (h : Stands em v) (n : ℕ) : Stands (em >>> n) (v / 2 ^ n) := by
  change Stands (n.repeat ExtendedMantissa.shiftRightOne em) _
  induction n with
  | zero => rwa [pow_zero, div_one]
  | succ n ih =>
    rw [Nat.repeat, pow_succ, ← div_div]
    exact ih.shiftRightOne

theorem roundedMantissa {num den : ℕ} (hden : 0 < den) (h : Stands em (ratio num den)) :
    em.roundedMantissa = roundHalfEven num den := by
  have hden₀ : (0 : ℚ) < den := by exact_mod_cast hden
  have hbounds := h.mantissa_le
  rw [ratio, le_div_iff₀ hden₀, div_lt_iff₀ hden₀] at hbounds
  have hdiv : num / den = em.mantissa := by
    apply Nat.div_eq_of_lt_le
    · exact_mod_cast hbounds.1
    · exact_mod_cast hbounds.2
  have hparts := Nat.div_add_mod num den
  rw [hdiv] at hparts
  have hrest : ((num % den : ℕ) : ℚ) = (ratio num den - em.mantissa) * den := by
    have hnum : (num : ℚ) = den * em.mantissa + (num % den : ℕ) := by exact_mod_cast hparts.symm
    rw [sub_mul, ratio, div_mul_cancel₀ _ hden₀.ne', hnum]
    ring
  have hlt : den < 2 * (num % den) ↔ em.mantissa + 1 / 2 < ratio num den := by
    rw [← Nat.cast_lt (α := ℚ), Nat.cast_mul, hrest]
    constructor <;> intro h <;> push_cast at * <;> nlinarith
  have heq : 2 * (num % den) = den ↔ ratio num den = em.mantissa + 1 / 2 := by
    rw [← Nat.cast_inj (R := ℚ), Nat.cast_mul, hrest]
    constructor <;> intro h
    · push_cast at h
      have : (ratio num den - em.mantissa - 1 / 2) * den = 0 := by linarith
      rcases mul_eq_zero.1 this with h | h
      · linarith
      · exact absurd h hden₀.ne'
    · rw [h]
      push_cast
      ring
  rw [roundHalfEven]
  simp only [hdiv, hlt, heq]
  have hodd : em.mantissa % 2 = 0 ∨ em.mantissa % 2 = 1 := Nat.mod_two_eq_zero_or_one _
  obtain ⟨m, r, s⟩ := em
  cases r <;> cases s <;>
    simp only [Stands, ExtendedMantissa.roundedMantissa, ExtendedMantissa.accuracy,
      Accuracy.roundToNearestEven] at h hodd ⊢
  · rw [if_neg (by rintro (h' | ⟨h', -⟩) <;> linarith)]
  · rw [if_neg (by rintro (h' | ⟨h', -⟩) <;> linarith)]
  · rw [h]
    simp only [lt_irrefl, false_or, true_and]
    rcases hodd with hm | hm <;> simp [hm]
  · rw [if_pos (Or.inl h.1)]

end Stands

theorem toNat_packComponents (negative : Bool) (e : BitVec 11) (m : BitVec 52) :
    (UnpackedFloat.packComponents Format.binary64 (signIf negative) e m).toNat =
      e.toNat * leadingBit + m.toNat + if negative then signBit else 0 := by
  rw [UnpackedFloat.packComponents, BitVec.toNat_append, BitVec.toNat_append,
    ← Nat.shiftLeft_add_eq_or_of_lt e.isLt, ← Nat.shiftLeft_add_eq_or_of_lt m.isLt,
    Nat.shiftLeft_eq, Nat.shiftLeft_eq]
  cases negative
  · change (0 * 2 ^ 11 + e.toNat) * 2 ^ 52 + m.toNat = e.toNat * 2 ^ 52 + m.toNat + 0
    omega
  · change (1 * 2 ^ 11 + e.toNat) * 2 ^ 52 + m.toNat = e.toNat * 2 ^ 52 + m.toNat + 2 ^ 63
    omega

theorem toNat_toBits_ofModel_pack (u : UnpackedFloat) :
    (Float.ofModel (pack u)).toBits.toNat = (UnpackedFloat.pack Format.binary64 u).toNat :=
  rfl

theorem toNat_packedInfinity (negative : Bool) :
    (UnpackedFloat.packedInfinity Format.binary64 (signIf negative)).toNat =
      infinityBits + if negative then signBit else 0 := by
  rw [UnpackedFloat.packedInfinity, toNat_packComponents]
  rfl

/-- A significand in its place is packed into the pattern that counts from its exponent, or into
that of infinity. -/
theorem ofModel_pack_finite (negative : Bool) {m : ℕ} {e : ℤ} (hpos : 0 < m) (hlt : m < 2 ^ 53)
    (he : -1074 ≤ e) (hlead : -1074 < e → 2 ^ 52 ≤ m) :
    Float.ofModel (pack (.finite (signIf negative) m e hpos)) =
      signed negative (min infinityBits ((e + 1074).toNat * leadingBit + m)) := by
  have hlog : m.log2 + 1 = Format.binary64.mantissaBits ↔ 2 ^ 52 ≤ m := by
    have hbits : Format.binary64.mantissaBits = 53 := rfl
    rw [hbits]
    constructor
    · intro h
      exact (Nat.le_log2 hpos.ne').1 (by omega)
    · intro h
      have := (Nat.le_log2 hpos.ne').2 h
      have := (Nat.log2_lt hpos.ne').2 hlt
      omega
  have hplace : (e + (Format.binary64.exponentBias : ℕ) + (52 : ℕ)).toNat =
      (e + 1074).toNat + 1 := by
    have hbias : Format.binary64.exponentBias = 1023 := rfl
    rw [hbias]
    omega
  apply Float.toBits_inj.1
  apply UInt64.toNat_inj.1
  rw [toNat_toBits_ofModel_pack, toBits_signed negative (Nat.min_le_left _ _), UnpackedFloat.pack]
  simp only [hplace, hlog]
  by_cases hbig : 2 ^ 11 ≤ (e + 1074).toNat + 1 + 1
  · have hm := hlead (by omega)
    rw [if_pos hbig, toNat_packedInfinity, Nat.min_eq_left]
    simp only [infinityBits, leadingBit]
    omega
  · rw [if_neg hbig]
    by_cases hnormal : 2 ^ 52 ≤ m
    · rw [if_pos hnormal, toNat_packComponents, BitVec.toNat_ofNat, BitVec.toNat_ofNat,
        Nat.min_eq_right]
      · simp only [leadingBit]
        omega
      · simp only [infinityBits, leadingBit]
        omega
    · have hleast : e = -1074 := by omega
      rw [if_neg hnormal, toNat_packComponents, BitVec.toNat_ofNat, hleast, Nat.min_eq_right]
      · simp only [leadingBit]
        simp
        omega
      · simp only [infinityBits, leadingBit]
        omega

theorem targetExponent_eq (t : ℤ) :
    Format.binary64.targetExponent t = max (-1074) (t - 53) :=
  max_comm _ _

theorem targetExponent_of_isLeading {m : ℕ} {e e' : ℤ} {v : ℚ}
    (hbounds : (m : ℚ) ≤ v / 2 ^ e ∧ v / 2 ^ e < m + 1)
    (he : e ≤ Format.binary64.targetExponent (totalExponent m e)) (he' : IsLeading v e') :
    Format.binary64.targetExponent (totalExponent m e) = max (-1074) e' := by
  have hpow : (0 : ℚ) < 2 ^ e := by positivity
  rw [le_div_iff₀ hpow, div_lt_iff₀ hpow] at hbounds
  rw [targetExponent_eq, totalExponent] at *
  by_cases hm : m = 0
  · subst hm
    have hleast : e ≤ -1074 := by
      rw [Nat.log2_zero] at he
      omega
    have hlt : e' < e := by
      by_contra hle
      have hmono : (2 : ℚ) ^ e ≤ 2 ^ e' := zpow_le_zpow_right₀ (by norm_num) (not_lt.1 hle)
      have hone : (0 : ℚ) < 2 ^ e' := by positivity
      have := he'.1
      have := hbounds.2
      push_cast at this
      linarith
    rw [Nat.log2_zero]
    omega
  · have hlow : (2 : ℚ) ^ m.log2 ≤ m := by exact_mod_cast Nat.log2_self_le hm
    have hhigh : (m : ℚ) + 1 ≤ 2 ^ (m.log2 + 1) := by
      exact_mod_cast Nat.succ_le_of_lt (Nat.lt_log2_self (n := m))
    have hplace : IsLeading v (m.log2 + e - 52) := by
      have hsplit (k : ℕ) : (2 : ℚ) ^ k * 2 ^ ((m.log2 : ℤ) + e - 52) =
          2 ^ ((m.log2 : ℤ) + k - 52) * 2 ^ e := by
        rw [← zpow_natCast, ← zpow_add₀ (by norm_num), ← zpow_add₀ (by norm_num)]
        congr 1
        ring
      constructor
      · calc (2 : ℚ) ^ 52 * 2 ^ ((m.log2 : ℤ) + e - 52) = 2 ^ m.log2 * 2 ^ e := by
              rw [hsplit 52, ← zpow_natCast]
              congr 2
              push_cast
              ring
          _ ≤ m * 2 ^ e := by gcongr
          _ ≤ v := hbounds.1
      · calc v < (m + 1) * 2 ^ e := hbounds.2
          _ ≤ 2 ^ (m.log2 + 1) * 2 ^ e := by gcongr
          _ = (2 : ℚ) ^ 53 * 2 ^ ((m.log2 : ℤ) + e - 52) := by
              rw [hsplit 53, ← zpow_natCast]
              congr 2
              push_cast
              ring
    rw [he'.unique hplace]
    omega

/-- A rounded significand has its place already, or is the first of the place above. -/
theorem shiftToTargetExponent_rounded {n : ℕ} {e : ℤ} (hn : n ≤ 2 ^ 53) (he : -1074 ≤ e) :
    (UnpackedFloat.shiftToTargetExponent Format.binary64 n e .exact).1.mantissa =
        (if n < 2 ^ 53 then n else 2 ^ 52) ∧
      (UnpackedFloat.shiftToTargetExponent Format.binary64 n e .exact).2 =
        if n < 2 ^ 53 then e else e + 1 := by
  have hshifted : UnpackedFloat.shiftToTargetExponent Format.binary64 n e .exact =
      (ExtendedMantissa.ofMantissaAndAccuracy n .exact >>>
        (max (-1074) ((n.log2 : ℤ) + 1 + e - 53) - e).toNat,
        e + (max (-1074) ((n.log2 : ℤ) + 1 + e - 53) - e).toNat) := by
    simp only [UnpackedFloat.shiftToTargetExponent, UnpackedFloat.shiftToExponent,
      targetExponent_eq, totalExponent]
  rw [hshifted]
  rcases hn.lt_or_eq with hlt | rfl
  · have hlog : n.log2 < 53 := by
      by_cases hzero : n = 0
      · rw [hzero, Nat.log2_zero]
        norm_num
      · exact (Nat.log2_lt hzero).2 hlt
    have hnone : (max (-1074) ((n.log2 : ℤ) + 1 + e - 53) - e).toNat = 0 := by omega
    rw [if_pos hlt, if_pos hlt, hnone, Nat.cast_zero, add_zero]
    exact ⟨rfl, rfl⟩
  · have hone : (max (-1074) (((2 ^ 53 : ℕ).log2 : ℤ) + 1 + e - 53) - e).toNat = 1 := by
      rw [Nat.log2_two_pow]
      omega
    rw [if_neg (lt_irrefl _), if_neg (lt_irrefl _), hone]
    exact ⟨rfl, rfl⟩

theorem ofModel_pack_rounded (negative : Bool) {n : ℕ} {e : ℤ} (hn : n ≤ 2 ^ 53) (he : -1074 ≤ e)
    (hlead : -1074 < e → 2 ^ 52 ≤ n) :
    Float.ofModel (pack (
        let shifted := UnpackedFloat.shiftToTargetExponent Format.binary64 n e .exact
        if h : shifted.1.mantissa = 0 then .zero (signIf negative)
        else .finite (signIf negative) shifted.1.mantissa shifted.2 (Nat.pos_of_ne_zero h))) =
      signed negative (min infinityBits ((e + 1074).toNat * leadingBit + n)) := by
  obtain ⟨hmantissa, hexponent⟩ := shiftToTargetExponent_rounded hn he
  simp only [hmantissa, hexponent]
  rcases hn.lt_or_eq with hlt | hcarry
  · simp only [if_pos hlt]
    by_cases hzero : n = 0
    · have hbits : (e + 1074).toNat * leadingBit + n = 0 := by
        have hleast : e = -1074 := by omega
        rw [hleast, hzero]
        rfl
      rw [dif_pos hzero, hbits]
      cases negative <;> rfl
    · rw [dif_neg hzero]
      exact ofModel_pack_finite negative _ hlt he hlead
  · have hlt : ¬ n < 2 ^ 53 := by omega
    simp only [if_neg hlt]
    have hbits : (e + 1 + 1074).toNat * leadingBit + 2 ^ 52 =
        (e + 1074).toNat * leadingBit + n := by
      rw [hcarry]
      simp only [leadingBit]
      omega
    rw [dif_neg (by norm_num),
      ofModel_pack_finite negative _ (by norm_num) (by omega) (fun _ => le_rfl), hbits]

/-- The model's rounding is rounding to the nearest: it keeps the places down to the last one, and
what is known of the further places decides the rest. -/
theorem ofModel_roundWithAccuracy (negative : Bool) {m num den : ℕ} {e : ℤ} {acc : Accuracy}
    (hden : 0 < den) (hnum : num ≠ 0)
    (hstands : Stands (.ofMantissaAndAccuracy m acc) (ratio num den / 2 ^ e))
    (he : e ≤ Format.binary64.targetExponent (totalExponent m e)) :
    Float.ofModel (pack (UnpackedFloat.roundWithAccuracy Format.binary64 (signIf negative) m e acc)) =
      nearest negative num den := by
  obtain ⟨e', he', -⟩ := lastPlace_spec (Nat.pos_of_ne_zero hnum) hden
  have hbounds := hstands.mantissa_le
  rw [mantissa_ofMantissaAndAccuracy] at hbounds
  have hplace := targetExponent_of_isLeading hbounds he he'
  rw [hplace] at he
  obtain ⟨hhigh, hlow⟩ := roundHalfEven_of_isLeading hden he'
  rw [nearest, nearestBits_eq hden hnum he']
  generalize hmax : max (-1074) e' = place at *
  have hfirst : UnpackedFloat.shiftToTargetExponent Format.binary64 m e acc =
      (ExtendedMantissa.ofMantissaAndAccuracy m acc >>> (place - e).toNat, place) := by
    simp only [UnpackedFloat.shiftToTargetExponent, UnpackedFloat.shiftToExponent, hplace]
    congr 1
    omega
  have hunits : ratio num den / 2 ^ e / 2 ^ (place - e).toNat = ratio num den / 2 ^ place := by
    rw [div_div, ← zpow_natCast, ← zpow_add₀ (by norm_num), Int.toNat_of_nonneg (by omega)]
    congr 2
    ring
  have hrounded : (ExtendedMantissa.ofMantissaAndAccuracy m acc >>>
      (place - e).toNat).roundedMantissa =
        roundHalfEven (inUnits num den place).1 (inUnits num den place).2 := by
    apply Stands.roundedMantissa (inUnits_snd_pos hden _)
    rw [ratio_inUnits hden, ← hunits]
    exact hstands.shiftRight _
  rw [UnpackedFloat.roundWithAccuracy, hfirst]
  simp only [hrounded]
  exact ofModel_pack_rounded negative hhigh (by omega) fun h => hlow (by omega)

theorem ofModel_round (negative : Bool) {m num den : ℕ} {e : ℤ} (hden : 0 < den) (hm : m ≠ 0)
    (h : ratio num den = m * 2 ^ e) :
    Float.ofModel (pack (UnpackedFloat.round Format.binary64 (signIf negative) m e)) =
      nearest negative num den := by
  have hnum : num ≠ 0 := by
    rw [ne_eq, ← ratio_eq_zero_iff hden, h, mul_eq_zero, Nat.cast_eq_zero]
    exact not_or.2 ⟨hm, by positivity⟩
  rw [UnpackedFloat.round, UnpackedFloat.decreaseExponent]
  simp only
  generalize hk : (e - Format.binary64.targetExponent (totalExponent m e)).toNat = k
  have hlog : (m <<< k).log2 = m.log2 + k := by
    have hpos : m <<< k ≠ 0 := by
      rw [Nat.shiftLeft_eq]
      positivity
    rw [Nat.log2_eq_iff hpos, Nat.shiftLeft_eq, pow_add, Nat.add_right_comm, pow_add 2 (m.log2 + 1)]
    have hone := Nat.two_pow_pos k
    exact ⟨Nat.mul_le_mul_right _ (Nat.log2_self_le hm),
      Nat.mul_lt_mul_of_pos_right Nat.lt_log2_self hone⟩
  have htotal : totalExponent (m <<< k) (e - k) = totalExponent m e := by
    rw [totalExponent, totalExponent, hlog]
    push_cast
    ring
  apply ofModel_roundWithAccuracy negative hden hnum
  · have hunits : ratio num den / 2 ^ (e - k) = (m <<< k : ℕ) := by
      rw [h, div_eq_iff (by positivity), Nat.shiftLeft_eq, zpow_sub₀ (by norm_num), zpow_natCast]
      push_cast
      field_simp
    rw [hunits]
    exact stands_exact _
  · rw [htotal]
    omega

end TroughTrader.Binary64
