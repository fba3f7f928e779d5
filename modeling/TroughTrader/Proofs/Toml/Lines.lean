import TroughTrader.Proofs.Toml.Words
import TroughTrader.Toml.Document

/-!
# Lines of TOML

A `Scalar` is a value without brackets. The line of a name and a scalar is read as a key of one part
and the value (`line?_lineChars`), whatever the name is: it stands between quotes unless it can do
without them. So a document of such lines is read as its names and values, and no name may come
again (`ofText?_documentText`).
-/

namespace TroughTrader.Toml

open Decimal

/-- A value that is written in one word or between quotes. -/
inductive Scalar where
  | boolean (b : Bool)
  | integer (n : Int) (low : Int64.minValue.toInt ≤ n) (high : n ≤ Int64.maxValue.toInt)
  | real (x : Float) (isFinite : x.isFinite = true)
  | string (s : String)

section Quoted

/-- A character between quotes, as in JSON but for the last control character of ASCII. -/
def escapeChar (c : Char) : List Char :=
  if c.toNat = 127 then ['\\', 'u', '0', '0', '7', 'f'] else Json.Body.escapeChar c

def quotedChars (s : String) : List Char := '"' :: (s.toList.flatMap escapeChar ++ ['"'])

section Escapes

variable {c : Char} (cs : List Char)

theorem basic?_letter {e : Char} (hu : e ≠ 'u') (hlong : e ≠ 'U') (h : letter? e = some c) :
    basic? ('\\' :: e :: cs) = prepend c (basic? cs) := by
  rw [basic?, h]
  · rfl
  · exact fun _ _ _ _ _ heq _ => hu heq
  · exact fun _ _ _ _ _ _ _ _ _ heq _ => hlong heq

theorem basic?_code {high low : Nat} (hhigh : high < 16) (hlow : low < 16)
    (h : 16 * high + low = c.toNat) :
    basic? ('\\' :: 'u' :: '0' :: '0' :: Hexadecimal.digit high :: Hexadecimal.digit low :: cs) =
      prepend c (basic? cs) := by
  have hzero : Hexadecimal.value? '0' = some 0 := by decide
  have hvalid : c.toNat.isValidChar := c.valid
  have hscalar : scalar? ['0', '0', Hexadecimal.digit high, Hexadecimal.digit low] = some c := by
    simp [scalar?, hzero, Hexadecimal.value?_digit hhigh, Hexadecimal.value?_digit hlow, h, hvalid]
  rw [basic?, hscalar]
  rfl

end Escapes

theorem basic?_escapeChar_append (c : Char) (cs : List Char) :
    basic? (escapeChar c ++ cs) = prepend c (basic? cs) := by
  have hletter {n : Nat} {d e : Char} (hn : c.toNat = n) (hd : Char.ofNat n = d)
      (hu : e ≠ 'u' ∧ e ≠ 'U') (h : letter? e = some d) :
      basic? ('\\' :: e :: cs) = prepend c (basic? cs) := by
    rw [← Char.ofNat_toNat c, hn, hd]
    exact basic?_letter cs hu.1 hu.2 h
  by_cases hdelete : c.toNat = 127
  · have hseven : '7' = Hexadecimal.digit 7 := by decide
    have hlast : 'f' = Hexadecimal.digit 15 := by decide
    rw [escapeChar, if_pos hdelete, hseven, hlast]
    have hcode : 16 * 7 + 15 = c.toNat := hdelete.symm
    exact basic?_code cs (by decide) (by decide) hcode
  rw [escapeChar, if_neg hdelete, Json.Body.escapeChar]
  split
  case isTrue h => subst h; exact basic?_letter cs (by decide) (by decide) rfl
  split
  case isTrue h => subst h; exact basic?_letter cs (by decide) (by decide) rfl
  split
  case isTrue h => exact hletter h rfl (by decide) rfl
  split
  case isTrue h => exact hletter h rfl (by decide) rfl
  split
  case isTrue h => exact hletter h rfl (by decide) rfl
  split
  case isTrue h => exact hletter h rfl (by decide) rfl
  split
  case isTrue h => exact hletter h rfl (by decide) rfl
  split
  case isTrue h => exact basic?_code cs (by omega) (by omega) (by omega)
  case isFalse hquote hbackslash _ _ _ _ _ hcontrol =>
    have hplain : isPlain c = true := by
      rw [isPlain]
      simp only [Bool.or_eq_true, Bool.and_eq_true, decide_eq_true_iff]
      exact .inr ⟨by omega, hdelete⟩
    rw [List.singleton_append, basic?, if_pos hplain]
    · exact hquote
    all_goals intros; simp_all

theorem basic?_flatMap_escapeChar (content rest : List Char) :
    basic? (content.flatMap escapeChar ++ '"' :: rest) = some (content, rest) := by
  induction content with
  | nil => rfl
  | cons c content ih =>
    rw [List.flatMap_cons, List.append_assoc, basic?_escapeChar_append, ih]
    rfl

theorem exists_escapeChar_eq (c : Char) : ∃ d ds, escapeChar c = d :: ds ∧ d ≠ '"' := by
  rw [escapeChar]
  split
  · exact ⟨_, _, rfl, by decide⟩
  · rw [Json.Body.escapeChar]
    split
    · exact ⟨_, _, rfl, by decide⟩
    · rename_i hquote
      repeat
        split
        · exact ⟨_, _, rfl, by decide⟩
      exact ⟨c, [], rfl, hquote⟩

theorem quotedChars_append (s : String) (rest : List Char) :
    quotedChars s ++ rest = '"' :: (s.toList.flatMap escapeChar ++ '"' :: rest) := by
  rw [quotedChars, List.cons_append, List.append_assoc, List.singleton_append]

theorem quoted?_quotedChars (s : String) {rest : List Char} (h : ∀ c ∈ rest.head?, c ≠ '"') :
    quoted? (quotedChars s ++ rest) = some (s.toList, rest) := by
  have hread := basic?_flatMap_escapeChar s.toList rest
  rw [quotedChars_append, quoted?]
  · exact hread
  · -- three quotes would take a quote behind an empty string, or at the head of an escape
    intro tail heq
    cases hs : s.toList with
    | nil =>
      rw [hs] at heq
      exact h '"' (by rw [(List.cons.inj heq).2]; rfl) rfl
    | cons c content =>
      obtain ⟨d, ds, hd, hne⟩ := exists_escapeChar_eq c
      rw [hs, List.flatMap_cons, hd] at heq
      exact hne (List.cons.inj heq).1

end Quoted

namespace Scalar

def value : Scalar → Toml
  | boolean b => .boolean b
  | integer n _ _ => .integer n
  | real x _ => .real x
  | string s => .string s

def chars : Scalar → List Char
  | boolean b => (Json.Token.bool b).chars
  | integer n _ _ => Numeral.chars true ⟨n < 0, Digits.ofNat n.natAbs, [], none⟩
  | real x _ => (Layout.json.numeral x).chars true
  | string s => quotedChars s

theorem ne_nil_of_ofWord? {word : List Char} {v : Toml} (h : ofWord? word = some v) :
    word ≠ [] := by
  rintro rfl
  cases h

/-- A word is read as a value where something else than a word follows it. -/
theorem value?_word {word : List Char} {v : Toml} (hread : ofWord? word = some v)
    (hword : ∀ c ∈ word, isWordChar c = true) (fuel : Nat) {rest : List Char}
    (hrest : ∀ c ∈ rest.head?, isWordChar c = false) :
    value? (fuel + 1) (word ++ rest) = some (v, rest) := by
  obtain ⟨htake, hdrop⟩ := span_append hword hrest
  rw [value?, htake, hdrop, hread]
  · rfl
  all_goals exact append_ne_cons (ne_nil_of_ofWord? hread) hword (by decide) rest

theorem isWordChar_of_mem_numeral {n : Numeral} {c : Char} (h : c ∈ n.chars true) :
    isWordChar c = true := by
  rcases Json.Token.mem_chars_numeral h with hsign | ⟨d, rfl⟩
  · exact List.all_eq_true.1 (by decide : ['-', '+', '.', 'e'].all isWordChar = true) c hsign
  · have hall : ∀ d, isWordChar (Digits.charOf d) = true := by decide
    exact hall d

theorem isWord_chars (v : Scalar) : (∃ s, v = string s) ∨
    (ofWord? v.chars = some v.value ∧ ∀ c ∈ v.chars, isWordChar c = true) := by
  cases v with
  | boolean b =>
    have hword : (Json.Token.bool b).chars.all isWordChar = true := by cases b <;> decide
    exact .inr ⟨by cases b <;> rfl, List.all_eq_true.1 hword⟩
  | integer n low high =>
    exact .inr ⟨ofWord?_integer low high, fun _ => isWordChar_of_mem_numeral⟩
  | real x isFinite => exact .inr ⟨ofWord?_numeral isFinite, fun _ => isWordChar_of_mem_numeral⟩
  | string s => exact .inl ⟨s, rfl⟩

theorem chars_append_ne_cons (v : Scalar) {d : Char} (hquote : d ≠ '"')
    (hword : isWordChar d = false) (rest tail : List Char) : v.chars ++ rest ≠ d :: tail := by
  rcases v.isWord_chars with ⟨s, rfl⟩ | ⟨hread, hchars⟩
  · rw [chars, quotedChars_append]
    exact fun heq => hquote (List.cons.inj heq).1.symm
  · exact append_ne_cons (ne_nil_of_ofWord? hread) hchars hword rest tail

theorem value?_chars (v : Scalar) (fuel : Nat) (tail : List Char) :
    value? (fuel + 1) (v.chars ++ '\n' :: tail) = some (v.value, '\n' :: tail) := by
  rcases v.isWord_chars with ⟨s, rfl⟩ | ⟨hread, hchars⟩
  · have hread : quoted? (quotedChars s ++ '\n' :: tail) = some (s.toList, '\n' :: tail) := by
      apply quoted?_quotedChars
      rintro c ⟨⟩
      decide
    rw [quotedChars_append] at hread
    rw [chars, quotedChars_append, value?, hread, Option.map_some]
    simp only [String.ofList_toList]
    rfl
  · apply value?_word hread hchars
    rintro c ⟨⟩
    decide

end Scalar

section Keys

/-- A name as a key: bare where it can be, or between quotes. -/
def keyChars (name : String) : List Char :=
  if name.toList ≠ [] ∧ name.toList.all isBareKeyChar then name.toList else quotedChars name

theorem keyChars_append_ne_cons (name : String) {d : Char} (hquote : d ≠ '"')
    (hbare : isBareKeyChar d = false) (rest tail : List Char) :
    keyChars name ++ rest ≠ d :: tail := by
  rw [keyChars]
  split
  · rename_i h
    exact append_ne_cons h.1 (List.all_eq_true.1 h.2) hbare rest tail
  · rw [quotedChars_append]
    exact fun heq => hquote (List.cons.inj heq).1.symm

theorem skipBlanks_of_ne_cons {cs : List Char} (hspace : ∀ tail, cs ≠ ' ' :: tail)
    (htab : ∀ tail, cs ≠ '\t' :: tail) : skipBlanks cs = cs := by
  cases cs with
  | nil => rfl
  | cons c cs =>
    have hc : ¬ (c == ' ' || c == '\t') = true := by
      rw [Bool.or_eq_true, beq_iff_eq, beq_iff_eq]
      rintro (rfl | rfl)
      · exact hspace cs rfl
      · exact htab cs rfl
    exact List.dropWhile_cons_of_neg hc

theorem skipBlanks_keyChars (name : String) (rest : List Char) :
    skipBlanks (keyChars name ++ rest) = keyChars name ++ rest :=
  skipBlanks_of_ne_cons (keyChars_append_ne_cons name (by decide) (by decide) rest)
    (keyChars_append_ne_cons name (by decide) (by decide) rest)

theorem keyPart?_keyChars (name : String) (rest : List Char) :
    keyPart? (keyChars name ++ ' ' :: rest) = some (name, ' ' :: rest) := by
  rw [keyChars]
  split
  · rename_i hbare
    have hend : ∀ c ∈ (' ' :: rest).head?, isBareKeyChar c = false := by
      rintro c ⟨⟩
      decide
    obtain ⟨htake, hdrop⟩ := span_append (List.all_eq_true.1 hbare.2) hend
    have hempty : name.toList.isEmpty = false := by simp [hbare.1]
    rw [keyPart?, htake, hdrop]
    · simp only [hempty, Bool.false_eq_true, if_false, String.ofList_toList]
    all_goals exact append_ne_cons hbare.1 (List.all_eq_true.1 hbare.2) (by decide) _
  · rw [quotedChars_append, keyPart?, basic?_flatMap_escapeChar, Option.map_some]
    simp only [String.ofList_toList]

theorem keyAndEquals?_keyChars (name : String) (rest : List Char) :
    keyAndEquals? (keyChars name ++ ' ' :: '=' :: rest) = some ([name], rest) := by
  have hkey (fuel : Nat) :
      key? (fuel + 1) (keyChars name ++ ' ' :: '=' :: rest) = some ([name], '=' :: rest) := by
    rw [key?, skipBlanks_keyChars, keyPart?_keyChars]
    rfl
  obtain ⟨fuel, hfuel⟩ : ∃ fuel, (keyChars name ++ ' ' :: '=' :: rest).length = fuel + 1 :=
    ⟨_, by rw [List.length_append, List.length_cons, ← Nat.add_assoc]⟩
  rw [keyAndEquals?, hfuel, hkey]
  rfl

end Keys

section Lines

def lineChars (entry : String × Scalar) : List Char :=
  keyChars entry.1 ++ ' ' :: '=' :: ' ' :: (entry.2.chars ++ ['\n'])

theorem lineChars_append (entry : String × Scalar) (tail : List Char) :
    lineChars entry ++ tail =
      keyChars entry.1 ++ ' ' :: '=' :: ' ' :: (entry.2.chars ++ '\n' :: tail) := by
  rw [lineChars, List.append_assoc, List.cons_append, List.cons_append, List.cons_append,
    List.append_assoc, List.singleton_append]

theorem line?_lineChars (ms : Members) (entry : String × Scalar) (tail : List Char) :
    Reading.line? ⟨ms, []⟩ (lineChars entry ++ tail) =
      (ms.insert? entry.2.value [entry.1]).map fun ms => (⟨ms, []⟩, tail) := by
  have hvalue : skipBlanks (' ' :: (entry.2.chars ++ '\n' :: tail)) =
      entry.2.chars ++ '\n' :: tail :=
    skipBlanks_of_ne_cons (entry.2.chars_append_ne_cons (by decide) (by decide) _)
      (entry.2.chars_append_ne_cons (by decide) (by decide) _)
  have hend : lineEnd? ('\n' :: tail) = some tail := rfl
  rw [lineChars_append, Reading.line?]
  · rw [Reading.keyValue?, keyAndEquals?_keyChars]
    simp only [Option.bind_eq_bind, Option.bind_some, hvalue, List.length_cons,
      Scalar.value?_chars, hend, Members.modifyAt?]
    cases ms.insert? entry.2.value [entry.1] <;> rfl
  all_goals exact fun _ => keyChars_append_ne_cons entry.1 (by decide) (by decide) _ _

theorem lineChars_ne_nil (entry : String × Scalar) : lineChars entry ≠ [] := by
  rw [lineChars]
  exact List.append_ne_nil_of_right_ne_nil _ (List.cons_ne_nil _ _)

/-- The lines of names and values add the values one after the other. -/
theorem lines?_flatMap_lineChars (entries : List (String × Scalar)) {fuel : Nat}
    (hfuel : entries.length ≤ fuel) (ms : Members) :
    Reading.lines? fuel ⟨ms, []⟩ (entries.flatMap lineChars) =
      entries.foldlM (fun ms entry => ms.insert? entry.2.value [entry.1]) ms := by
  -- a line takes one step of the reader, whatever its length
  induction entries generalizing fuel ms with
  | nil =>
    rw [List.flatMap_nil, Reading.lines?.eq_def]
    rfl
  | cons entry entries ih =>
    obtain ⟨fuel, rfl⟩ := Nat.exists_eq_succ_of_ne_zero (Nat.ne_zero_of_lt hfuel)
    have hline := line?_lineChars ms entry (entries.flatMap lineChars)
    have hskip : skipBlanks (lineChars entry ++ entries.flatMap lineChars) =
        lineChars entry ++ entries.flatMap lineChars := by
      rw [lineChars_append]
      exact skipBlanks_keyChars entry.1 _
    obtain ⟨c, cs, hcs⟩ := List.exists_cons_of_ne_nil
      (List.append_ne_nil_of_left_ne_nil (lineChars_ne_nil entry) (entries.flatMap lineChars))
    rw [hcs] at hline hskip
    rw [List.flatMap_cons, hcs, Reading.lines?.eq_def]
    simp only [hskip, hline, List.foldlM_cons]
    cases ms.insert? entry.2.value [entry.1] with
    | none => rfl
    | some ms => exact ih (Nat.le_of_succ_le_succ hfuel) ms

end Lines

section Documents

variable (entries : List (String × Scalar))

def members : Members := entries.map fun entry => (entry.1, entry.2.value)

theorem map_fst_members : (members entries).map Prod.fst = entries.map Prod.fst := by
  rw [members, List.map_map]
  rfl

/-- Names that are new and different are all added, and one that comes again is refused. -/
theorem foldlM_insert? {ms : Members} (h : (ms.map Prod.fst).Nodup) :
    entries.foldlM (fun ms entry => ms.insert? entry.2.value [entry.1]) ms =
      if ((ms ++ members entries).map Prod.fst).Nodup then some (ms ++ members entries)
      else none := by
  induction entries generalizing ms with
  | nil =>
    rw [members, List.map_nil, List.append_nil, if_pos h]
    rfl
  | cons entry entries ih =>
    have hmembers : ms ++ members (entry :: entries) =
        (ms ++ [(entry.1, entry.2.value)]) ++ members entries := by
      rw [List.append_assoc]
      rfl
    have hknown : (ms.lookup entry.1).isSome = true ↔ entry.1 ∈ ms.map Prod.fst := by
      rw [List.lookup_isSome_iff, List.mem_map]
      simp only [beq_iff_eq, eq_comm (a := entry.1)]
    have hnames : ((ms ++ [(entry.1, entry.2.value)]).map Prod.fst).Nodup ↔
        entry.1 ∉ ms.map Prod.fst := by
      rw [List.map_append, List.nodup_append_comm, List.map_singleton, List.singleton_append,
        List.nodup_cons]
      exact and_iff_left h
    rw [List.foldlM_cons, Members.insert?, hmembers]
    by_cases hagain : entry.1 ∈ ms.map Prod.fst
    · rw [if_pos (hknown.2 hagain), if_neg]
      · rfl
      · intro hnodup
        rw [List.map_append] at hnodup
        exact hnames.1 hnodup.of_append_left hagain
    · rw [if_neg (mt hknown.1 hagain)]
      exact ih (hnames.2 hagain)

def documentText : String := String.ofList (entries.flatMap lineChars)

theorem length_le_length_flatMap_lineChars :
    entries.length ≤ (entries.flatMap lineChars).length := by
  induction entries with
  | nil => exact Nat.le_refl 0
  | cons entry entries ih =>
    have hpos := List.length_pos_iff.2 (lineChars_ne_nil entry)
    rw [List.flatMap_cons, List.length_append, List.length_cons]
    omega

/-- A document of names and values is read as they are, if no name comes again. -/
theorem ofText?_documentText : ofText? (documentText entries) =
    if (entries.map Prod.fst).Nodup then some (members entries) else none := by
  have hempty : (([] : Members).map Prod.fst).Nodup := List.nodup_nil
  have hlines := lines?_flatMap_lineChars entries (length_le_length_flatMap_lineChars entries) []
  rw [foldlM_insert? entries hempty, List.nil_append, map_fst_members] at hlines
  rw [ofText?, documentText, String.toList_ofList, ofChars?]
  · exact hlines
  · intro tail heq
    cases entries with
    | nil => cases heq
    | cons entry entries =>
      rw [List.flatMap_cons, lineChars_append] at heq
      exact keyChars_append_ne_cons entry.1 (by decide) (by decide) _ _ heq

end Documents

end TroughTrader.Toml
