import TroughTrader.Proofs.Binary64.Undefined

/-!
# The lesser of two values

No value is below one that is below it (`not_lt_of_lt`), undefined values and infinities included.
So `lesser` gives one of its two values and, where the first one is defined, neither of them is
below it (`lesser_eq_or` and `not_lt_lesser`).
-/

namespace TroughTrader.Binary64

open Float.Model

/-- The same comparison from the other side. -/
theorem compare_eq_swap (x y : UnpackedFloat) :
    y.compare x = (x.compare y).map Ordering.swap := by
  cases x with
  | notANumber => rw [compare_notANumber]; rfl
  | infinity s =>
    cases y with
    | notANumber => cases s <;> rfl
    | infinity t => cases s <;> cases t <;> rfl
    | zero t => cases s <;> rfl
    | finite t m e h => cases s <;> cases t <;> rfl
  | zero s =>
    cases y with
    | notANumber => rfl
    | infinity t => cases t <;> rfl
    | zero t => rfl
    | finite t m e h => cases t <;> rfl
  | finite s m e h =>
    cases y with
    | notANumber => cases s <;> rfl
    | infinity t => cases s <;> cases t <;> rfl
    | zero t => cases s <;> rfl
    | finite t m' e' h' =>
      have he : compare e' e = (compare e e').swap := Std.OrientedOrd.eq_swap
      have hm : compare m' m = (compare m m').swap := Std.OrientedOrd.eq_swap
      cases s <;> cases t
      case negative.negative =>
        change some ((compare e' e).then (compare m' m)).swap =
          some ((compare e e').then (compare m m')).swap.swap
        rw [he, hm, ← Ordering.swap_then]
      case positive.positive =>
        change some ((compare e' e).then (compare m' m)) =
          some ((compare e e').then (compare m m')).swap
        rw [he, hm, ← Ordering.swap_then]
      case negative.positive | positive.negative => rfl

theorem not_lt_of_lt {a b : Float} (h : a < b) : ¬ b < a := by
  intro h'
  have hlt : a.toModel.unpack.lt b.toModel.unpack = true := of_decide_eq_true h
  have hlt' : b.toModel.unpack.lt a.toModel.unpack = true := of_decide_eq_true h'
  rw [UnpackedFloat.lt, beq_iff_eq] at hlt hlt'
  rw [compare_eq_swap, hlt] at hlt'
  cases hlt'

theorem lesser_eq_or (a b : Float) : lesser a b = a ∨ lesser a b = b := by
  unfold lesser
  split
  · exact Or.inr rfl
  · split
    · exact Or.inr rfl
    · exact Or.inl rfl

theorem isNaN_lesser {a b : Float} (ha : a.isNaN = false) (hb : b.isNaN = false) :
    (lesser a b).isNaN = false := by
  rcases lesser_eq_or a b with h | h
  · rwa [h]
  · rwa [h]

theorem not_lt_lesser {a b : Float} (h : a.isNaN = false) :
    ¬ a < lesser a b ∧ ¬ b < lesser a b := by
  have hself : ∀ x : Float, ¬ x < x := fun x hx => not_lt_of_lt hx hx
  rw [lesser, if_neg (by rw [h]; exact Bool.false_ne_true)]
  by_cases hlt : b < a
  · rw [if_pos hlt]
    exact ⟨not_lt_of_lt hlt, hself b⟩
  · rw [if_neg hlt]
    exact ⟨hself a, hlt⟩

end TroughTrader.Binary64
