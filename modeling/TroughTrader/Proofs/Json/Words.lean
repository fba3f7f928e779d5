import TroughTrader.Json.Token

/-!
# Words of JSON

A numeral whose whole part has no leading zero is written as a word that is read as this numeral
(`numeral?_chars`), whether or not it has a fraction and an exponent. So every word that a token is
written as is read as the token (`ofWord?_chars`), and none of its characters ends a word
(`endsWord_of_mem_chars`).
-/

namespace TroughTrader.Json.Token

open Decimal

theorem charOf_ne (d : Fin 10) : Digits.charOf d ≠ '-' ∧ Digits.charOf d ≠ '+' ∧
    Digits.charOf d ≠ 'n' ∧ Digits.charOf d ≠ 't' ∧ Digits.charOf d ≠ 'f' := by
  revert d
  decide

theorem endsWord_charOf (d : Fin 10) : endsWord (Digits.charOf d) = false := by
  revert d
  decide

theorem span_chars (ds : Digits) : Digits.span (Digits.chars ds) = (ds, []) := by
  have h := Digits.span_chars_append ds (by simp : ∀ c ∈ ([] : List Char).head?, _)
  rwa [List.append_nil] at h

theorem exists_chars_eq {ds : Digits} (h : ds ≠ []) :
    ∃ d cs, Digits.chars ds = Digits.charOf d :: cs := by
  cases ds with
  | nil => exact absurd rfl h
  | cons d ds => exact ⟨d, Digits.chars ds, rfl⟩

theorem exponent?_exponentChars (plus : Bool) (e : Int) :
    exponent? ('e' :: Numeral.exponentChars plus e) = some (some e) := by
  have hspan := span_chars (Digits.ofNat e.natAbs)
  have hvalue := Digits.toNat_ofNat e.natAbs
  cases hds : Digits.ofNat e.natAbs with
  | nil => exact absurd hds (Digits.ofNat_ne_nil _)
  | cons d ds =>
    rw [hds] at hspan hvalue
    by_cases hnegative : e < 0
    · have hrest : Numeral.exponentChars plus e = '-' :: Digits.chars (d :: ds) := by
        rw [Numeral.exponentChars, if_pos hnegative, hds]
        rfl
      rw [hrest, exponent?, if_pos (Or.inl rfl)]
      simp only [hspan, hvalue, if_true]
      exact congrArg (fun e => some (some e)) (by omega)
    · have hnat : ((e.natAbs : Nat) : Int) = e := by omega
      rw [Numeral.exponentChars, if_neg hnegative, hds]
      cases plus with
      | true =>
        rw [if_pos rfl, List.singleton_append, exponent?, if_pos (Or.inl rfl)]
        simp only [hspan, hvalue, hnat, Bool.false_eq_true, if_false]
      | false =>
        rw [if_neg Bool.false_ne_true, List.nil_append, exponent?, if_pos (Or.inl rfl)]
        · simp only [hspan, hvalue, hnat, Bool.false_eq_true, if_false]
        · exact fun r hr => (charOf_ne d).1 (List.cons.inj hr).1
        · exact fun r hr => (charOf_ne d).2.1 (List.cons.inj hr).1

/-- What follows the digits of a numeral: its exponent, if it has one. -/
def exponentPart (plus : Bool) (n : Numeral) : List Char :=
  match n.exponent with
  | none => []
  | some e => 'e' :: Numeral.exponentChars plus e

def fractionPart (n : Numeral) : List Char :=
  if n.fraction.isEmpty then [] else '.' :: Digits.chars n.fraction

theorem chars_eq (plus : Bool) (n : Numeral) :
    n.chars plus = (if n.negative then ['-'] else []) ++
      (Digits.chars n.whole ++ (fractionPart n ++ exponentPart plus n)) := by
  rw [Numeral.chars, List.append_assoc, List.append_assoc]
  rfl

theorem exponent?_exponentPart (plus : Bool) (n : Numeral) :
    exponent? (exponentPart plus n) = some n.exponent := by
  rw [exponentPart]
  cases n.exponent with
  | none => rfl
  | some e => exact exponent?_exponentChars plus e

theorem head_exponentPart (plus : Bool) (n : Numeral) :
    ∀ c ∈ (exponentPart plus n).head?, c = 'e' := by
  rw [exponentPart]
  cases n.exponent with
  | none => simp
  | some e => exact fun c hc => (Option.some.inj hc).symm

theorem head_fractionPart (plus : Bool) (n : Numeral) :
    ∀ c ∈ (fractionPart n ++ exponentPart plus n).head?, c = '.' ∨ c = 'e' := by
  rw [fractionPart]
  split
  · exact fun c hc => .inr (head_exponentPart plus n c hc)
  · exact fun c hc => .inl (Option.some.inj hc).symm

theorem ofChar?_head_exponentPart (plus : Bool) (n : Numeral) :
    ∀ c ∈ (exponentPart plus n).head?, Digits.ofChar? c = none := by
  intro c hc
  rw [head_exponentPart plus n c hc]
  decide

theorem fraction?_fractionPart (plus : Bool) (n : Numeral) :
    fraction? (fractionPart n ++ exponentPart plus n) =
      some (n.fraction, exponentPart plus n) := by
  have hspan := Digits.span_chars_append n.fraction (ofChar?_head_exponentPart plus n)
  rw [fractionPart]
  cases hfraction : n.fraction with
  | nil =>
    rw [exponentPart]
    cases n.exponent <;> rfl
  | cons d ds =>
    rw [hfraction] at hspan
    change fraction? ('.' :: (Digits.chars (d :: ds) ++ exponentPart plus n)) = _
    rw [fraction?, hspan]

theorem ofChar?_head_fractionPart (plus : Bool) (n : Numeral) :
    ∀ c ∈ (fractionPart n ++ exponentPart plus n).head?, Digits.ofChar? c = none := by
  intro c hc
  rcases head_fractionPart plus n c hc with rfl | rfl <;> decide

theorem ne_nil_of_isWhole {ds : Digits} (h : isWhole ds = true) : ds ≠ [] := by
  rintro rfl
  cases h

/-- A numeral without a leading zero is read as it is written. -/
theorem numeral?_chars (plus : Bool) {n : Numeral} (h : isWhole n.whole = true) :
    numeral? (n.chars plus) = some n := by
  have hspan := Digits.span_chars_append n.whole (ofChar?_head_fractionPart plus n)
  have hfraction := fraction?_fractionPart plus n
  have hexponent := exponent?_exponentPart plus n
  rw [chars_eq]
  obtain ⟨negative, whole, fraction, exponent⟩ := n
  cases negative with
  | true =>
    rw [if_pos rfl, List.singleton_append, numeral?]
    simp only [hspan, hfraction, hexponent, Option.bind_eq_bind, Option.bind_some]
    rw [if_pos h]
  | false =>
    obtain ⟨d, cs, hcs⟩ := exists_chars_eq (ne_nil_of_isWhole h)
    rw [if_neg Bool.false_ne_true, List.nil_append, numeral?]
    · simp only [hspan, hfraction, hexponent, Option.bind_eq_bind, Option.bind_some]
      rw [if_pos h]
    · intro r hr
      simp only [hcs, List.cons_append, List.cons.injEq] at hr
      exact (charOf_ne d).1 hr.1

/-- Whether a token is written as a word, so that no other word may follow it at once. -/
def isWord : Token → Bool
  | null | bool _ | number _ => true
  | openArray | closeArray | openObject | closeObject | comma | colon | string _ => false

/-- A token that can be written: no leading zeros, and only proper escapes. -/
def IsWritten : Token → Prop
  | number n => isWhole n.whole = true
  | string body => Body.isWritten body = true
  | _ => True

theorem head_chars_number {n : Numeral} (h : isWhole n.whole = true) :
    ∃ c cs, n.chars true = c :: cs ∧ c ≠ 'n' ∧ c ≠ 't' ∧ c ≠ 'f' := by
  obtain ⟨d, cs, hcs⟩ := exists_chars_eq (ne_nil_of_isWhole h)
  rw [chars_eq, hcs]
  cases n.negative with
  | true => exact ⟨'-', _, rfl, by decide, by decide, by decide⟩
  | false => exact ⟨_, _, rfl, (charOf_ne d).2.2⟩

theorem ofWord?_chars {t : Token} (hword : t.isWord = true) (h : t.IsWritten) :
    ofWord? t.chars = some t := by
  cases t with
  | null => rfl
  | bool b => cases b <;> rfl
  | number n =>
    obtain ⟨c, cs, hcs, hn, ht, hf⟩ := head_chars_number h
    have hread := numeral?_chars true h
    rw [chars, ofWord?, hread, hcs, if_neg, if_neg, if_neg]
    · rfl
    · exact fun heq => hf (List.cons.inj heq).1
    · exact fun heq => ht (List.cons.inj heq).1
    · exact fun heq => hn (List.cons.inj heq).1
  | _ => cases hword

theorem mem_chars_numeral {plus : Bool} {n : Numeral} {c : Char} (h : c ∈ n.chars plus) :
    c ∈ ['-', '+', '.', 'e'] ∨ ∃ d, Digits.charOf d = c := by
  have hdigits {ds : Digits} (h : c ∈ Digits.chars ds) : ∃ d, Digits.charOf d = c := by
    obtain ⟨d, -, hd⟩ := List.mem_map.1 h
    exact ⟨d, hd⟩
  rw [chars_eq, fractionPart, exponentPart] at h
  simp only [List.mem_append] at h
  rcases h with h | h | h | h
  · split at h
    · exact .inl (by simp_all)
    · cases h
  · exact .inr (hdigits h)
  · split at h
    · cases h
    · rcases List.mem_cons.1 h with rfl | h
      · exact .inl (by decide)
      · exact .inr (hdigits h)
  · split at h
    · cases h
    · rcases List.mem_cons.1 h with rfl | h
      · exact .inl (by decide)
      · rw [Numeral.exponentChars, List.mem_append] at h
        rcases h with h | h
        · split at h <;> simp_all
        · exact .inr (hdigits h)

theorem endsWord_of_mem_chars {t : Token} (hword : t.isWord = true) {c : Char}
    (h : c ∈ t.chars) : endsWord c = false := by
  cases t with
  | null =>
    have hall : (chars .null).all (fun c => !endsWord c) = true := by decide
    simpa using List.all_eq_true.1 hall c h
  | bool b =>
    have hall : (chars (.bool b)).all (fun c => !endsWord c) = true := by cases b <;> decide
    simpa using List.all_eq_true.1 hall c h
  | number n =>
    rcases mem_chars_numeral h with hc | ⟨d, rfl⟩
    · have hall : ['-', '+', '.', 'e'].all (fun c => !endsWord c) = true := by decide
      simpa using List.all_eq_true.1 hall c hc
    · exact endsWord_charOf d
  | _ => cases hword

end TroughTrader.Json.Token
