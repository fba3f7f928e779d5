import TroughTrader.Calendar.Date
import TroughTrader.Proofs.Decimal.Written

/-!
# Dates that are written are read back

Every date is read back from its text (`ofText?_text`). A number is read up to its last digit or up
to a width, so that the digits of a year of four digits, of a month and of a day must not be more
than the reader takes, while a year with a sign may have any number of them.
-/

namespace TroughTrader.Date

open Decimal Text

theorem padded_eq (width n : Nat) : padded width n =
    Digits.chars (Digits.zeros (width - (Digits.ofNat n).length) ++ Digits.ofNat n) := rfl

theorem isBlank_charOf (d : Fin 10) : isBlank (Digits.charOf d) = false := by
  revert d
  decide

theorem charOf_ne_sign (d : Fin 10) : Digits.charOf d ≠ '-' ∧ Digits.charOf d ≠ '+' := by
  revert d
  decide

theorem skipBlanks_cons {c : Char} (h : isBlank c = false) (cs : List Char) :
    skipBlanks (c :: cs) = c :: cs := by
  rw [skipBlanks, List.dropWhile_cons, if_neg (by rw [h]; exact Bool.false_ne_true)]

theorem number?_chars_append {width : Nat} {ds : Digits} {rest : List Char} (hne : ds ≠ [])
    (hwidth : ds.length ≤ width) (hrest : ∀ c ∈ rest.head?, Digits.ofChar? c = none) :
    number? width (Digits.chars ds ++ rest) = some (Digits.toNat ds, rest) := by
  have hlength : (Digits.chars ds).length = ds.length := List.length_map _
  -- The width may cut the rest off, but what is left of it still begins with no digit.
  have htake : ∀ c ∈ (rest.take (width - ds.length)).head?, Digits.ofChar? c = none := by
    intro c hc
    apply hrest
    cases rest with
    | nil => simp at hc
    | cons r rest =>
      rw [List.head?_take] at hc
      split at hc
      · cases hc
      · exact hc
  have hspan : Digits.span ((Digits.chars ds ++ rest).take width) =
      (ds, rest.take (width - ds.length)) := by
    rw [List.take_append, hlength, List.take_of_length_le (hlength.trans_le hwidth)]
    exact Digits.span_chars_append ds htake
  simp only [number?, hspan]
  rw [if_neg (by rw [List.isEmpty_iff]; exact hne), List.drop_left' hlength]

/-- A number that is filled with zeros is read up to a character that is no digit. -/
theorem number?_padded_append {width places n : Nat} {rest : List Char} (hplaces : 0 < places)
    (hn : n < 10 ^ places) (hwidth : places ≤ width)
    (hrest : ∀ c ∈ rest.head?, Digits.ofChar? c = none) :
    number? width (padded places n ++ rest) = some (n, rest) := by
  have hlength : (Digits.ofNat n).length ≤ places := Digits.length_ofNat_le hplaces hn
  rw [padded_eq, number?_chars_append, Digits.toNat_zeros_append, Digits.toNat_ofNat]
  · simp [Digits.ofNat_ne_nil]
  · rw [List.length_append, Digits.length_zeros]
    omega
  · exact hrest

theorem exists_padded (width n : Nat) : ∃ d cs, padded width n = Digits.charOf d :: cs := by
  rw [padded_eq]
  cases h : Digits.zeros (width - (Digits.ofNat n).length) ++ Digits.ofNat n with
  | nil => exact absurd (List.append_eq_nil_iff.1 h).2 (Digits.ofNat_ne_nil n)
  | cons d ds => exact ⟨d, Digits.chars ds, rfl⟩

theorem skipBlanks_padded_append (width n : Nat) (rest : List Char) :
    skipBlanks (padded width n ++ rest) = padded width n ++ rest := by
  obtain ⟨d, cs, hcs⟩ := exists_padded width n
  rw [hcs]
  exact skipBlanks_cons (isBlank_charOf d) _

theorem skipBlanks_yearChars_append (year : Int) (rest : List Char) :
    skipBlanks (yearChars year ++ rest) = yearChars year ++ rest := by
  rw [yearChars]
  split
  · exact skipBlanks_padded_append 4 year.toNat rest
  · split
    · exact skipBlanks_cons (by decide) _
    · exact skipBlanks_cons (by decide) _

theorem hyphen?_cons (rest : List Char) : hyphen? ('-' :: rest) = some rest := by
  rw [hyphen?, skipBlanks_cons (by decide)]
  rfl

/-- After a sign all digits belong to the year, however many they are. -/
theorem number?_signed (n : Nat) {rest : List Char}
    (hrest : ∀ c ∈ rest.head?, Digits.ofChar? c = none) :
    number? (padded 4 n ++ rest).length (padded 4 n ++ rest) = some (n, rest) := by
  rw [padded_eq, number?_chars_append, Digits.toNat_zeros_append, Digits.toNat_ofNat]
  · simp [Digits.ofNat_ne_nil]
  · simp only [Digits.chars, List.length_append, List.length_map]
    exact Nat.le_add_right _ _
  · exact hrest

theorem year?_yearChars_append (year : Int) {rest : List Char}
    (hrest : ∀ c ∈ rest.head?, Digits.ofChar? c = none) :
    year? (yearChars year ++ rest) = some (year, rest) := by
  rw [yearChars]
  split
  · rename_i hplain
    have hread : number? 4 (padded 4 year.toNat ++ rest) = some (year.toNat, rest) :=
      number?_padded_append (by decide) (by omega) le_rfl hrest
    obtain ⟨d, cs, hcs⟩ := exists_padded 4 year.toNat
    rw [year?]
    · rw [hread]
      exact congrArg (fun year => some (year, rest)) (Int.toNat_of_nonneg hplain.1)
    · intro r hr
      rw [hcs] at hr
      exact (charOf_ne_sign d).1 (List.cons.inj hr).1
    · intro r hr
      rw [hcs] at hr
      exact (charOf_ne_sign d).2 (List.cons.inj hr).1
  · rename_i hsigned
    have hread := number?_signed year.natAbs hrest
    split
    · rw [List.cons_append, year?, hread]
      exact congrArg (fun year => some (year, rest)) (by omega)
    · rw [List.cons_append, year?, hread]
      exact congrArg (fun year => some (year, rest)) (by omega)

theorem lt_of_isDay {year : Int} {month day : Nat} (h : Calendar.isDay year month day = true) :
    month < 10 ^ 2 ∧ day < 10 ^ 2 := by
  have hdays : Calendar.daysIn year month ≤ 31 := by
    rw [Calendar.daysIn]
    split
    · split <;> decide
    · split <;> decide
  simp only [Calendar.isDay, Bool.and_eq_true, decide_eq_true_eq] at h
  omega

/-- Every date is read back from its text. -/
theorem ofText?_text (d : Date) : ofText? d.text = some d := by
  have hhyphen (cs : List Char) : ∀ c ∈ ('-' :: cs).head?, Digits.ofChar? c = none := by
    intro c hc
    cases hc
    decide
  obtain ⟨hmonth, hday⟩ := lt_of_isDay d.isDay
  have hmonth' : number? 2 (padded 2 d.month ++ '-' :: padded 2 d.day) =
      some (d.month, '-' :: padded 2 d.day) :=
    number?_padded_append (by decide) hmonth le_rfl (hhyphen (padded 2 d.day))
  have hday' : number? 2 (padded 2 d.day ++ []) = some (d.day, []) :=
    number?_padded_append (by decide) hday le_rfl (by simp)
  rw [List.append_nil] at hday'
  have hskip := skipBlanks_padded_append 2 d.day []
  rw [List.append_nil] at hskip
  rw [ofText?, text, String.toList_ofList, chars, List.append_assoc, List.cons_append, ofChars?,
    skipBlanks_yearChars_append, year?_yearChars_append d.year (hhyphen _)]
  simp only [Option.bind_eq_bind, Option.bind_some, hyphen?_cons, skipBlanks_padded_append, hmonth',
    hskip, hday']
  exact ofNumbers?_self d

end TroughTrader.Date
