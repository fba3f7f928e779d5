import TroughTrader.Proofs.Binary64.Patterns
import TroughTrader.Proofs.Record.Fields
import TroughTrader.Toml.Scalar

/-!
# Words of TOML

Numerals are written in one way for both kinds of documents: a word that is read as a numeral of
JSON is read as the same numeral here. Without a point and an exponent it is an integer, and
otherwise it is a number (`ofWord?_chars`); the numeral of a finite value always has one of the two
(`ofWord?_numeral`).
-/

namespace TroughTrader.Toml

open Decimal
open Json.Token (isWhole ne_nil_of_isWhole fractionPart exponentPart)

/-- A word is all of what it is followed by, up to a character that does not belong to it. -/
theorem span_append {isPart : Char → Bool} {word rest : List Char}
    (hword : ∀ c ∈ word, isPart c = true) (hrest : ∀ c ∈ rest.head?, isPart c = false) :
    (word ++ rest).takeWhile isPart = word ∧ (word ++ rest).dropWhile isPart = rest := by
  rw [List.takeWhile_append_of_pos hword, List.dropWhile_append_of_pos hword]
  cases rest with
  | nil => exact ⟨List.append_nil word, rfl⟩
  | cons c rest =>
    have hc : ¬ isPart c = true := Bool.eq_false_iff.1 (hrest c rfl)
    rw [List.takeWhile_cons_of_neg hc, List.dropWhile_cons_of_neg hc, List.append_nil]
    exact ⟨rfl, rfl⟩

theorem append_ne_cons {isPart : Char → Bool} {word : List Char} (hne : word ≠ [])
    (hword : ∀ c ∈ word, isPart c = true) {d : Char} (hd : isPart d = false)
    (rest tail : List Char) : word ++ rest ≠ d :: tail := by
  obtain ⟨c, cs, rfl⟩ := List.exists_cons_of_ne_nil hne
  intro heq
  have hc := hword c List.mem_cons_self
  rw [(List.cons.inj heq).1, hd] at hc
  cases hc

section Digits

theorem isDigitOf_charOf (d : Fin 10) : isDigitOf 10 (Digits.charOf d) = true := by
  revert d
  decide

theorem isDecimalOrGroup_charOf (d : Fin 10) : isDecimalOrGroup (Digits.charOf d) = true := by
  revert d
  decide

theorem charOf_ne_underscore (d : Fin 10) : Digits.charOf d ≠ '_' := by
  revert d
  decide

theorem ungroup?_chars {ds : Digits} (h : ds ≠ []) :
    ungroup? (isDigitOf 10) (Digits.chars ds) = some (Digits.chars ds) := by
  induction ds with
  | nil => exact absurd rfl h
  | cons d ds ih =>
    cases ds with
    | nil => exact if_pos (isDigitOf_charOf d)
    | cons e ds =>
      have hrest := ih (List.cons_ne_nil e ds)
      change ungroup? (isDigitOf 10) (Digits.charOf d :: Digits.charOf e :: Digits.chars ds) = _
      rw [ungroup?, if_pos (isDigitOf_charOf d)]
      · exact congrArg (Option.map (Digits.charOf d :: ·)) hrest
      · exact fun _ _ heq _ => charOf_ne_underscore e heq

theorem mapM_ofChar?_chars (ds : Digits) : (Digits.chars ds).mapM Digits.ofChar? = some ds := by
  induction ds with
  | nil => rfl
  | cons d ds ih =>
    rw [Digits.chars, List.map_cons, List.mapM_cons, Digits.ofChar?_charOf]
    rw [Digits.chars] at ih
    rw [ih]
    rfl

theorem digits?_chars {ds : Digits} (h : ds ≠ []) : digits? (Digits.chars ds) = some ds := by
  rw [digits?, ungroup?_chars h]
  exact mapM_ofChar?_chars ds

theorem span_chars_append (ds : Digits) {rest : List Char}
    (h : ∀ c ∈ rest.head?, isDecimalOrGroup c = false) :
    (Digits.chars ds ++ rest).takeWhile isDecimalOrGroup = Digits.chars ds ∧
      (Digits.chars ds ++ rest).dropWhile isDecimalOrGroup = rest := by
  refine span_append ?_ h
  intro c hc
  obtain ⟨d, -, rfl⟩ := List.mem_map.1 hc
  exact isDecimalOrGroup_charOf d

theorem splitSign_chars {ds : Digits} (h : ds ≠ []) (rest : List Char) :
    splitSign (Digits.chars ds ++ rest) = (false, Digits.chars ds ++ rest) := by
  obtain ⟨d, cs, hcs⟩ := Json.Token.exists_chars_eq h
  have hsign := Json.Token.charOf_ne d
  rw [hcs, List.cons_append, splitSign]
  · exact fun _ heq => hsign.1 (List.cons.inj heq).1
  · exact fun _ heq => hsign.2.1 (List.cons.inj heq).1

end Digits

section Numerals

variable (plus : Bool) (n : Numeral)

theorem isDecimalOrGroup_head_exponentPart :
    ∀ c ∈ (exponentPart plus n).head?, isDecimalOrGroup c = false := by
  intro c hc
  rw [Json.Token.head_exponentPart plus n c hc]
  decide

theorem isDecimalOrGroup_head_fractionPart :
    ∀ c ∈ (fractionPart n ++ exponentPart plus n).head?, isDecimalOrGroup c = false := by
  intro c hc
  rcases Json.Token.head_fractionPart plus n c hc with rfl | rfl <;> decide

theorem fractionOf?_fractionPart : fractionOf? (fractionPart n ++ exponentPart plus n) =
    some (n.fraction, exponentPart plus n) := by
  have hspan := span_chars_append n.fraction (isDecimalOrGroup_head_exponentPart plus n)
  rw [fractionPart]
  cases hfraction : n.fraction with
  | nil =>
    rw [exponentPart]
    cases n.exponent <;> rfl
  | cons d ds =>
    rw [hfraction] at hspan
    change fractionOf? ('.' :: (Digits.chars (d :: ds) ++ exponentPart plus n)) = _
    rw [fractionOf?, hspan.1, hspan.2, digits?_chars (List.cons_ne_nil d ds)]
    rfl

theorem splitSign_exponentChars (e : Int) : splitSign (Numeral.exponentChars plus e) =
    (decide (e < 0), Digits.chars (Digits.ofNat e.natAbs)) := by
  rw [Numeral.exponentChars]
  by_cases he : e < 0
  · rw [if_pos he, decide_eq_true he]
    rfl
  · rw [if_neg he, decide_eq_false he]
    cases plus with
    | true => rfl
    | false =>
      have hsplit := splitSign_chars (Digits.ofNat_ne_nil e.natAbs) []
      rwa [List.append_nil] at hsplit

theorem exponentOf?_exponentPart : exponentOf? (exponentPart plus n) = some n.exponent := by
  rw [exponentPart]
  cases n.exponent with
  | none => rfl
  | some e =>
    have he : (if decide (e < 0) = true then -(e.natAbs : Int) else e.natAbs) = e := by
      simp only [decide_eq_true_iff]
      split <;> omega
    simp only [exponentOf?, splitSign_exponentChars, digits?_chars (Digits.ofNat_ne_nil _),
      Digits.toNat_ofNat, he, Option.bind_eq_bind, Option.bind_some]
    rfl

/-- A numeral as a value: an integer, unless it has a point or an exponent. -/
def ofNumeral? : Option Toml :=
  if n.fraction.isEmpty ∧ n.exponent.isNone then
    integer? (if n.negative then -(Digits.toNat n.whole : Int) else Digits.toNat n.whole)
  else real? n

variable {n} (h : isWhole n.whole = true)
include h

theorem splitSign_numeral : splitSign (n.chars plus) =
    (n.negative, Digits.chars n.whole ++ (fractionPart n ++ exponentPart plus n)) := by
  rw [Json.Token.chars_eq]
  cases n.negative with
  | true => rfl
  | false => exact splitSign_chars (ne_nil_of_isWhole h) _

theorem decimal?_chars : decimal? (n.chars plus) = ofNumeral? n := by
  have hspan := span_chars_append n.whole (isDecimalOrGroup_head_fractionPart plus n)
  have hzero : ¬ (n.whole.head? = some Digits.zero ∧ n.whole.length ≠ 1) := by
    rintro ⟨hhead, hlength⟩
    simp [isWhole, hhead, hlength] at h
  simp only [decimal?, splitSign_numeral plus h, hspan.1, hspan.2,
    digits?_chars (ne_nil_of_isWhole h), fractionOf?_fractionPart, exponentOf?_exponentPart,
    Option.bind_eq_bind, Option.bind_some, if_neg hzero]
  rfl

omit h in
/-- A numeral has no letter but that of an exponent, and no character that comes after letters. -/
theorem notMem_chars {c : Char} (hc : ¬ (c.toNat < 58 ∨ c = 'e')) : c ∉ n.chars plus := by
  intro hmem
  rcases Json.Token.mem_chars_numeral hmem with hsign | ⟨d, rfl⟩
  · have hall : ['-', '+', '.', 'e'].all (fun c => c.toNat < 58 ∨ c = 'e') = true := by decide
    exact hc (of_decide_eq_true (List.all_eq_true.1 hall c hsign))
  · have hall : ∀ d, (Digits.charOf d).toNat < 58 := by decide
    exact hc (.inl (hall d))

theorem named?_chars : named? (n.chars plus) = none := by
  have hsplit := splitSign_numeral plus h
  have hletter {c : Char} (hc : ¬ (c.toNat < 58 ∨ c = 'e')) :
      c ∉ Digits.chars n.whole ++ (fractionPart n ++ exponentPart plus n) := by
    intro hmem
    apply notMem_chars plus hc (n := n)
    rw [Json.Token.chars_eq]
    exact List.mem_append_right _ hmem
  have hne {name : List Char} (hname : 'n' ∈ name) :
      Digits.chars n.whole ++ (fractionPart n ++ exponentPart plus n) ≠ name := by
    rintro rfl
    exact hletter (by decide) hname
  simp only [named?, hsplit, if_neg (hne (by decide : 'n' ∈ ['i', 'n', 'f'])),
    if_neg (hne (by decide : 'n' ∈ ['n', 'a', 'n']))]

/-- A numeral is none of the other words. -/
theorem ofWord?_chars : ofWord? (n.chars plus) = ofNumeral? n := by
  have hword {word : List Char} {c : Char} (hc : ¬ (c.toNat < 58 ∨ c = 'e')) (hmem : c ∈ word) :
      n.chars plus ≠ word := by
    rintro rfl
    exact notMem_chars plus hc hmem
  rw [ofWord?, named?_chars plus h]
  · exact decimal?_chars plus h
  · exact fun cs => hword (c := 'x') (by decide) (by simp)
  · exact fun cs => hword (c := 'o') (by decide) (by simp)
  · exact fun cs => hword (c := 'b') (by decide) (by simp)
  · exact hword (c := 't') (by decide) (by decide)
  · exact hword (c := 'f') (by decide) (by decide)

end Numerals

/-- A numeral with digits alone is read as an integer, if 64 bits hold it. -/
theorem ofWord?_integer {n : Int} (hlow : Int64.minValue.toInt ≤ n)
    (hhigh : n ≤ Int64.maxValue.toInt) :
    ofWord? (Numeral.chars true ⟨n < 0, Digits.ofNat n.natAbs, [], none⟩) = some (.integer n) := by
  have hvalue : (if decide (n < 0) = true then -(n.natAbs : Int) else n.natAbs) = n := by
    simp only [decide_eq_true_iff]
    split <;> omega
  rw [ofWord?_chars true (Json.isWhole_ofNat n.natAbs), ofNumeral?, if_pos ⟨rfl, rfl⟩,
    Digits.toNat_ofNat]
  simp only [hvalue]
  exact if_pos ⟨hlow, hhigh⟩

/-- The numeral of a value has a point or an exponent. -/
theorem not_isEmpty_fraction_numeral (x : Float) : ¬ ((Layout.json.numeral x).fraction.isEmpty ∧
    (Layout.json.numeral x).exponent.isNone) := by
  rintro ⟨hfraction, hexponent⟩
  rcases Layout.json.numeral_cases x with ⟨-, h⟩ | ⟨-, h | h⟩
  · rw [h] at hfraction
    cases hfraction
  · rw [h] at hexponent
    cases hexponent
  · rw [h] at hfraction
    simp only [Layout.positional] at hfraction
    have hdigits := Digits.ofNat_ne_nil (Scaled.shortest Layout.json.tie x).coefficient
    split at hfraction
    · cases hfraction
    · split at hfraction
      · simp [hdigits] at hfraction
      · rw [List.isEmpty_iff, List.drop_eq_nil_iff] at hfraction
        omega

theorem ofWord?_numeral {x : Float} (hx : x.isFinite = true) :
    ofWord? ((Layout.json.numeral x).chars true) = some (.real x) := by
  have hread := Layout.json.toFloat_numeral hx
  rw [ofWord?_chars true (Json.isWhole_numeral .json hx), ofNumeral?,
    if_neg (not_isEmpty_fraction_numeral x), real?]
  simp only [hread, Binary64.isInf_of_isFinite hx, Bool.false_eq_true, false_and, if_false]

end TroughTrader.Toml
