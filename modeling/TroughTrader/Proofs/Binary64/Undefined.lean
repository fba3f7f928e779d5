import TroughTrader.Binary64.Count

/-!
# Not-a-number in comparisons and products

A value that is undefined is not-a-number. It is neither above nor below anything
(`not_le_of_isNaN`, `not_lt_of_isNaN` and their mirrors), and a product with it is undefined again
(`isNaN_mul`), so that a test on such a value fails just as a test on a missing one does.
-/

namespace TroughTrader.Binary64

open Float.Model

theorem unpack_eq_of_isNaN {x : Float} (h : x.isNaN = true) : x.toModel.unpack = .notANumber := by
  change x.toModel.unpack.isNaN = true at h
  cases hx : x.toModel.unpack with
  | notANumber => rfl
  | _ => rw [hx] at h; cases h

theorem compare_notANumber (x : UnpackedFloat) : x.compare .notANumber = none := by
  cases x with
  | infinity sign => cases sign <;> rfl
  | finite sign => cases sign <;> rfl
  | _ => rfl

theorem notANumber_compare (x : UnpackedFloat) : UnpackedFloat.notANumber.compare x = none := by
  cases x <;> rfl

theorem not_le_of_isNaN (a : Float) {b : Float} (h : b.isNaN = true) : ¬ a ≤ b := by
  intro hle
  have hle' : a.toModel.unpack.le b.toModel.unpack = true := of_decide_eq_true hle
  rw [unpack_eq_of_isNaN h, UnpackedFloat.le, compare_notANumber] at hle'
  cases hle'

theorem not_lt_of_isNaN (a : Float) {b : Float} (h : b.isNaN = true) : ¬ a < b := by
  intro hlt
  have hlt' : a.toModel.unpack.lt b.toModel.unpack = true := of_decide_eq_true hlt
  rw [unpack_eq_of_isNaN h, UnpackedFloat.lt, compare_notANumber] at hlt'
  cases hlt'

theorem not_le_of_isNaN_left {a : Float} (b : Float) (h : a.isNaN = true) : ¬ a ≤ b := by
  intro hle
  have hle' : a.toModel.unpack.le b.toModel.unpack = true := of_decide_eq_true hle
  rw [unpack_eq_of_isNaN h, UnpackedFloat.le, notANumber_compare] at hle'
  cases hle'

theorem not_lt_of_isNaN_left {a : Float} (b : Float) (h : a.isNaN = true) : ¬ a < b := by
  intro hlt
  have hlt' : a.toModel.unpack.lt b.toModel.unpack = true := of_decide_eq_true hlt
  rw [unpack_eq_of_isNaN h, UnpackedFloat.lt, notANumber_compare] at hlt'
  cases hlt'

theorem isNaN_mul {a : Float} (b : Float) (h : a.isNaN = true) : (a * b).isNaN = true := by
  have hmul : UnpackedFloat.mul Format.binary64 .notANumber b.toModel.unpack = .notANumber := by
    cases b.toModel.unpack <;> rfl
  change (pack (UnpackedFloat.mul _ a.toModel.unpack b.toModel.unpack)).unpack.isNaN = true
  rw [unpack_eq_of_isNaN h, hmul]
  decide

theorem defined?_eq_some {x y : Float} (h : defined? x = some y) : y = x ∧ x.isNaN = false := by
  unfold defined? at h
  split at h
  · cases h
  · cases h
    exact ⟨rfl, Bool.eq_false_iff.2 ‹_›⟩

/-- A defined value passes a test that fails on undefined ones exactly if the value itself does. -/
theorem any_defined? {test : Float → Bool} (h : ∀ x, x.isNaN = true → test x = false) (x : Float) :
    (defined? x).any test = test x := by
  rw [defined?]
  by_cases hx : x.isNaN = true
  · rw [if_pos hx, h x hx]
    rfl
  · rw [if_neg hx]
    rfl

end TroughTrader.Binary64
