import TroughTrader.Proofs.Binary64.Patterns
import TroughTrader.Proofs.Record.Fields
import TroughTrader.Proofs.Settings.Ranges

/-!
# The canonical text identifies the settings

In every layout the text of a value, not-a-number apart, is read back to the value, bit for bit
(`Decimal.Layout.ofText?_text`), so that no two values share a text. No value of a setting has the
separator in its text, so the canonical text falls apart into the values again
(`canonicalText_eq_iff_valueText`), and it is the same only for settings with the same values.
-/

namespace TroughTrader

open Binary64

namespace Decimal.Layout

/-- The value that a text stands for: an infinity by its name, or a numeral. -/
def ofText? (text : String) : Option Float :=
  if text = "inf" then some (infinity false)
  else if text = "-inf" then some (infinity true)
  else (Json.Token.numeral? text.toList).map Numeral.toFloat

theorem text_infinity (l : Layout) (negative : Bool) :
    l.text (infinity negative) = if negative then "-inf" else "inf" := by
  have hnan : (infinity negative).isNaN = false := by cases negative <;> decide
  have hinf : (infinity negative).isInf = true := by cases negative <;> decide
  have hsign : isNegative (infinity negative) = negative := by cases negative <;> decide
  rw [text, hnan, hinf, hsign, if_neg Bool.false_ne_true, if_pos rfl]

theorem text_of_isFinite (l : Layout) {x : Float} (hx : x.isFinite = true) :
    l.text x = String.ofList ((l.numeral x).chars l.plus) := by
  rw [text, isNaN_of_isFinite hx, isInf_of_isFinite hx, if_neg Bool.false_ne_true,
    if_neg Bool.false_ne_true]

theorem ofText?_text (l : Layout) {x : Float} (h : x.isNaN = false) :
    ofText? (l.text x) = some x := by
  cases hx : x.isFinite with
  | false =>
    rw [eq_infinity h hx, text_infinity]
    cases isNegative x <;> rfl
  | true =>
    have hread : Json.Token.numeral? (l.text x).toList = some (l.numeral x) := by
      rw [l.text_of_isFinite hx, String.toList_ofList]
      exact Json.Token.numeral?_chars l.plus (Json.isWhole_numeral l hx)
    have hne {name : String} (hname : Json.Token.numeral? name.toList = none) :
        l.text x ≠ name := by
      rintro rfl
      rw [hname] at hread
      cases hread
    rw [ofText?, if_neg (hne (by decide)), if_neg (hne (by decide)), hread, Option.map_some,
      l.toFloat_numeral hx]

theorem text_inj (l : Layout) {x y : Float} (hx : x.isNaN = false) (hy : y.isNaN = false) :
    l.text x = l.text y ↔ x = y := by
  constructor
  · intro h
    have hread := l.ofText?_text hx
    rw [h, l.ofText?_text hy] at hread
    exact (Option.some.inj hread).symm
  · rintro rfl
    rfl

theorem semicolon_notMem_text (l : Layout) (x : Float) : ';' ∉ (l.text x).toList := by
  rw [text]
  split
  · decide
  · split
    · split <;> decide
    · rw [String.toList_ofList]
      intro h
      rcases Json.Token.mem_chars_numeral h with h | ⟨d, hd⟩
      · exact absurd h (by decide)
      · revert d
        decide

end Decimal.Layout

section Bytes

variable (bytes : ByteArray)

theorem toList_loop_eq (i : Nat) (taken : List UInt8) :
    ByteArray.toList.loop bytes i taken = taken.reverse ++ bytes.data.toList.drop i := by
  fun_induction ByteArray.toList.loop bytes i taken with
  | case1 i taken hlt ih =>
    have hi : i < bytes.data.toList.length := hlt
    have hget : bytes.get! i = bytes.data.toList[i] := getElem!_pos bytes.data i hlt
    rw [ih, List.reverse_cons, List.append_assoc, List.drop_eq_getElem_cons hi, hget,
      List.singleton_append]
  | case2 i taken hge =>
    rw [List.drop_eq_nil_of_le (Nat.le_of_not_lt hge), List.append_nil]

theorem toList_eq : bytes.toList = bytes.data.toList := by
  rw [ByteArray.toList, toList_loop_eq, List.reverse_nil, List.nil_append, List.drop_zero]

end Bytes

theorem eq_of_toList_toUTF8_eq {a b : String} (h : a.toUTF8.toList = b.toUTF8.toList) : a = b := by
  rw [toList_eq, toList_eq, Array.toList_inj] at h
  exact String.toByteArray_inj.1 (ByteArray.ext h)

namespace Settings

open Decimal

structure IsDefined (s : Settings) : Prop where
  envelopePct : s.envelopePct.isNaN = false
  minSpaceFrac : s.minSpaceFrac.isNaN = false
  riskPct : s.riskPct.isNaN = false
  maxRiskPct : s.maxRiskPct.isNaN = false

/-- The value of a setting is the same in two settings, bit for bit. -/
def SameValue (s t : Settings) : Setting → Prop
  | .cycleLength => s.cycleLength = t.cycleLength
  | .envelopePct => s.envelopePct.toBits = t.envelopePct.toBits
  | .confirmBars => s.confirmBars = t.confirmBars
  | .minSpaceFrac => s.minSpaceFrac.toBits = t.minSpaceFrac.toBits
  | .riskPct => s.riskPct.toBits = t.riskPct.toBits
  | .maxRiskPct => s.maxRiskPct.toBits = t.maxRiskPct.toBits
  | .smallSize => s.smallSize = t.smallSize

theorem isDefined_of_isInRange {s : Settings} (h : ∀ f, s.isInRange f = true) : s.IsDefined where
  envelopePct := isNaN_of_isFinite ((isInRange_iff s .envelopePct).1 (h _)).1
  minSpaceFrac := isNaN_of_isFinite ((isInRange_iff s .minSpaceFrac).1 (h _)).1
  riskPct := isNaN_of_isFinite ((isInRange_iff s .riskPct).1 (h _)).1
  maxRiskPct := isNaN_of_isFinite ((isInRange_iff s .maxRiskPct).1 (h _)).1

theorem semicolon_notMem_toString (n : Nat) : ';' ∉ (toString n).toList := by
  rw [Nat.toString_eq_repr, Nat.toList_repr]
  intro h
  exact absurd (Nat.isDigit_of_mem_toDigits (by decide) (by decide) h) (by decide)

theorem semicolon_notMem_valueText (s : Settings) (f : Setting) : ';' ∉ (s.valueText f).toList := by
  cases f with
  | cycleLength | confirmBars => exact semicolon_notMem_toString _
  | envelopePct | minSpaceFrac | riskPct | maxRiskPct => exact Layout.plain.semicolon_notMem_text _
  | smallSize =>
    rw [valueText]
    cases s.smallSize <;> decide

/-- The canonical text, cut at its separators, is the settings with their names again. -/
theorem splitOn_canonicalText (s : Settings) :
    s.canonicalText.toList.splitOn ';' =
      Setting.all.map fun f => (f.key ++ "=" ++ s.valueText f).toList := by
  rw [canonicalText, String.toList_intercalate, List.map_map]
  refine List.splitOn_intercalate ';' ?_ (List.cons_ne_nil _ _)
  intro part hpart
  obtain ⟨f, -, rfl⟩ := List.mem_map.1 hpart
  have hkey : ';' ∉ (f.key ++ "=").toList := by cases f <;> decide
  rw [Function.comp_apply, String.toList_append, List.mem_append]
  exact not_or.2 ⟨hkey, s.semicolon_notMem_valueText f⟩

theorem canonicalText_eq_iff_valueText (s t : Settings) :
    s.canonicalText = t.canonicalText ↔ ∀ f, s.valueText f = t.valueText f := by
  constructor
  · intro h f
    have hsplit := congrArg (fun text => text.toList.splitOn ';') h
    simp only [splitOn_canonicalText] at hsplit
    have hpart := List.map_inj_left.1 hsplit f (by cases f <;> decide)
    exact (String.append_right_inj _).1 (String.toList_inj.1 hpart)
  · intro h
    rw [canonicalText, canonicalText]
    simp only [h]

theorem valueText_eq_iff {s t : Settings} (hs : s.IsDefined) (ht : t.IsDefined) (f : Setting) :
    s.valueText f = t.valueText f ↔ s.SameValue t f := by
  have hcount (m n : UInt64) : toString m.toNat = toString n.toNat ↔ m = n := by
    rw [Nat.toString_eq_repr, Nat.toString_eq_repr, Nat.repr_inj, UInt64.toNat_inj]
  cases f with
  | cycleLength | confirmBars => exact hcount _ _
  | envelopePct =>
    exact (Layout.plain.text_inj hs.envelopePct ht.envelopePct).trans Float.toBits_inj.symm
  | minSpaceFrac =>
    exact (Layout.plain.text_inj hs.minSpaceFrac ht.minSpaceFrac).trans Float.toBits_inj.symm
  | riskPct => exact (Layout.plain.text_inj hs.riskPct ht.riskPct).trans Float.toBits_inj.symm
  | maxRiskPct =>
    exact (Layout.plain.text_inj hs.maxRiskPct ht.maxRiskPct).trans Float.toBits_inj.symm
  | smallSize =>
    rw [valueText, valueText, SameValue]
    cases s.smallSize <;> cases t.smallSize <;> decide

/-- No sound setting is not-a-number, and where none is, two canonical texts are equal exactly for
the same seven values, bit for bit. So are two fingerprints, unless the two texts collide. -/
theorem canonicalText_eq_iff :
    (∀ s : SoundSettings, s.IsDefined) ∧
      ∀ s t : Settings, s.IsDefined → t.IsDefined →
        (s.canonicalText = t.canonicalText ↔ ∀ f, s.SameValue t f) ∧
        ((Blake3.hex s.canonicalText.toUTF8.toList = Blake3.hex t.canonicalText.toUTF8.toList →
            s.canonicalText.toUTF8.toList = t.canonicalText.toUTF8.toList) →
          (s.fingerprint = t.fingerprint ↔ ∀ f, s.SameValue t f)) := by
  refine ⟨fun s => isDefined_of_isInRange s.isInRange, fun s t hs ht => ?_⟩
  have htext : s.canonicalText = t.canonicalText ↔ ∀ f, s.SameValue t f := by
    rw [canonicalText_eq_iff_valueText]
    exact forall_congr' (valueText_eq_iff hs ht)
  refine ⟨htext, fun hcollide => Iff.trans ?_ htext⟩
  constructor
  · exact fun h => eq_of_toList_toUTF8_eq (hcollide h)
  · intro h
    rw [fingerprint, fingerprint, h]

/-- Two spaces that are zero, with and without a sign, and two percentages next to each other. -/
theorem canonicalText_eq_iff_bits :
    let s : Settings := { standard with minSpaceFrac := 0.0 }
    let t : Settings := { standard with minSpaceFrac := -0.0 }
    let u : Settings := { s with riskPct := Float.ofBits (s.riskPct.toBits + 1) }
    (s.IsDefined ∧ t.IsDefined ∧ u.IsDefined) ∧
      s.canonicalText ≠ t.canonicalText ∧ s.canonicalText ≠ u.canonicalText ∧
      s.fingerprint ≠ t.fingerprint := by
  intro s t u
  have hs : s.IsDefined := ⟨by decide, by decide, by decide, by decide⟩
  have ht : t.IsDefined := ⟨by decide, by decide +kernel, by decide, by decide⟩
  have hu : u.IsDefined := ⟨by decide, by decide, by decide +kernel, by decide⟩
  have hzero : ¬ s.SameValue t .minSpaceFrac := by
    change ¬ s.minSpaceFrac.toBits = t.minSpaceFrac.toBits
    decide +kernel
  have hnext : ¬ s.SameValue u .riskPct := by
    change ¬ s.riskPct.toBits = u.riskPct.toBits
    decide +kernel
  obtain ⟨-, htext⟩ := canonicalText_eq_iff
  obtain ⟨hst, hfingerprint⟩ := htext s t hs ht
  refine ⟨⟨hs, ht, hu⟩, fun h => hzero (hst.1 h _), fun h => hnext ((htext s u hs hu).1.1 h _), ?_⟩
  have hhex :
      Blake3.hex s.canonicalText.toUTF8.toList ≠ Blake3.hex t.canonicalText.toUTF8.toList := by
    decide +kernel
  exact fun h => hzero ((hfingerprint fun hcollide => absurd hcollide hhex).1 h _)

end Settings

end TroughTrader
