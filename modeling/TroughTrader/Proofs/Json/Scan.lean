import Mathlib.Data.List.Chain
import TroughTrader.Proofs.Json.Words

/-!
# Scanning what is written

Tokens that can be written, of which no two words follow each other, are scanned back from their
characters (`scan?_flatMap_chars`). A word is only complete when the next token, or the end of the
text, ends it; `scanned` is the state between two tokens.
-/

namespace TroughTrader.Json

section Fold

variable {σ τ : Type} {step : σ → τ → Option σ} {s s' : σ}

theorem foldlM_cons_of_eq_some {t : τ} (h : step s t = some s') (ts : List τ) :
    (t :: ts).foldlM step s = ts.foldlM step s' := by
  rw [List.foldlM_cons, h]
  rfl

theorem foldlM_append_of_eq_some {ts : List τ} (h : ts.foldlM step s = some s') (us : List τ) :
    (ts ++ us).foldlM step s = us.foldlM step s' := by
  rw [List.foldlM_append, h]
  rfl

end Fold

namespace Token

/-- Two tokens that may follow each other without a blank. -/
def Apart (s t : Token) : Prop := ¬ (s.isWord = true ∧ t.isWord = true)

theorem Apart.symm {s t : Token} (h : Apart s t) : Apart t s := fun h' => h ⟨h'.2, h'.1⟩

/-- What has been read after some tokens, which are given last first. -/
def scanned : List Token → List Token × Mode
  | [] => ([], .between)
  | t :: before => if t.isWord then (before, .word t.chars.reverse) else (t :: before, .between)

section Chars

variable {before : List Token}

theorem start_of_endsWord {c : Char} (h : endsWord c = false) : start c = ([], .word [c]) := by
  simp only [endsWord, Bool.or_eq_false_iff, Option.isSome_eq_false_iff, Option.isNone_iff_eq_none,
    beq_eq_false_iff_ne] at h
  obtain ⟨⟨hblank, hquote⟩, hpunctuation⟩ := h
  rw [start, if_neg (by rw [hblank]; exact Bool.false_ne_true), if_neg hquote, hpunctuation]

theorem foldlM_step?_word {cs : List Char} (h : ∀ c ∈ cs, endsWord c = false) (seen : List Char) :
    cs.foldlM step? (before, .word seen) = some (before, .word (cs.reverse ++ seen)) := by
  induction cs generalizing seen with
  | nil => rfl
  | cons c cs ih =>
    have hstep : step? (before, .word seen) c = some (before, .word (c :: seen)) := by
      rw [step?, advance?, if_neg (by rw [h c List.mem_cons_self]; exact Bool.false_ne_true)]
      rfl
    rw [foldlM_cons_of_eq_some hstep, ih (fun c' hc' => h c' (List.mem_cons_of_mem _ hc')),
      List.reverse_cons, List.append_assoc]
    rfl

theorem foldlM_step?_plain {c : Char} (hquote : c ≠ '"') (hbackslash : c ≠ '\\')
    (seen cs : List Char) :
    (c :: cs).foldlM step? (before, .string seen) =
      cs.foldlM step? (before, .string (c :: seen)) := by
  refine foldlM_cons_of_eq_some ?_ cs
  rw [step?, advance?, if_neg hquote, if_neg hbackslash]
  rfl

theorem foldlM_step?_escape (c : Char) (seen cs : List Char) :
    ('\\' :: c :: cs).foldlM step? (before, .string seen) =
      cs.foldlM step? (before, .string (c :: '\\' :: seen)) := rfl

theorem ne_of_hexadecimal {c : Char} {n : Nat} (h : Hexadecimal.value? c = some n) :
    c ≠ '"' ∧ c ≠ '\\' := by
  have hquote : Hexadecimal.value? '"' = none := by decide
  have hbackslash : Hexadecimal.value? '\\' = none := by decide
  constructor
  · rintro rfl
    rw [hquote] at h
    cases h
  · rintro rfl
    rw [hbackslash] at h
    cases h

theorem exists_of_hex4? {a b c d : Char} {code : Nat} (h : Body.hex4? a b c d = some code) :
    (∃ i, Hexadecimal.value? a = some i) ∧ (∃ j, Hexadecimal.value? b = some j) ∧
      (∃ k, Hexadecimal.value? c = some k) ∧ ∃ l, Hexadecimal.value? d = some l := by
  simp only [Body.hex4?, Option.bind_eq_bind, Option.bind_eq_some_iff] at h
  obtain ⟨i, hi, j, hj, k, hk, l, hl, -⟩ := h
  exact ⟨⟨i, hi⟩, ⟨j, hj⟩, ⟨k, hk⟩, ⟨l, hl⟩⟩

/-- The body of a string is read to its end: its escapes hide the quotes in it. -/
theorem foldlM_step?_body {body : Body} (h : Body.isWritten body = true) (seen : List Char) :
    body.foldlM step? (before, .string seen) = some (before, .string (body.reverse ++ seen)) := by
  rw [Body.isWritten] at h
  fun_induction Body.codes? body generalizing seen with
  | case1 => rfl
  | case2 a b c d rest ih =>
    obtain ⟨codes, hcodes⟩ := Option.isSome_iff_exists.1 h
    simp only [Option.bind_eq_bind, Option.bind_eq_some_iff] at hcodes
    obtain ⟨code, hcode, tail, htail, -⟩ := hcodes
    obtain ⟨⟨i, hi⟩, ⟨j, hj⟩, ⟨k, hk⟩, ⟨l, hl⟩⟩ := exists_of_hex4? hcode
    rw [foldlM_step?_escape, foldlM_step?_plain (ne_of_hexadecimal hi).1 (ne_of_hexadecimal hi).2,
      foldlM_step?_plain (ne_of_hexadecimal hj).1 (ne_of_hexadecimal hj).2,
      foldlM_step?_plain (ne_of_hexadecimal hk).1 (ne_of_hexadecimal hk).2,
      foldlM_step?_plain (ne_of_hexadecimal hl).1 (ne_of_hexadecimal hl).2,
      ih (by rw [htail]; rfl)]
    simp
  | case3 e rest _ ih =>
    obtain ⟨codes, hcodes⟩ := Option.isSome_iff_exists.1 h
    simp only [Option.bind_eq_bind, Option.bind_eq_some_iff] at hcodes
    obtain ⟨code, hcode, tail, htail, -⟩ := hcodes
    rw [foldlM_step?_escape, ih (by rw [htail]; rfl)]
    simp
  | case4 => cases h
  | case5 c rest _ _ hplain ih =>
    rw [Option.isSome_map] at h
    rw [foldlM_step?_plain (fun heq => hplain (.inr (.inl heq))) (fun heq => hplain (.inl heq)),
      ih h]
    simp

theorem exists_chars_of_isWord {t : Token} (hword : t.isWord = true) (h : t.IsWritten) :
    ∃ c cs, t.chars = c :: cs := by
  cases t with
  | null => exact ⟨_, _, rfl⟩
  | bool b => cases b <;> exact ⟨_, _, rfl⟩
  | number n =>
    obtain ⟨c, cs, hcs, -⟩ := head_chars_number h
    exact ⟨c, cs, hcs⟩
  | _ => cases hword

theorem foldlM_step?_chars_of_isWord {t : Token} (hword : t.isWord = true) (h : t.IsWritten) :
    t.chars.foldlM step? (before, .between) = some (scanned (t :: before)) := by
  obtain ⟨c, cs, hcs⟩ := exists_chars_of_isWord hword h
  have hends : ∀ d ∈ c :: cs, endsWord d = false := fun d hd =>
    endsWord_of_mem_chars hword (hcs ▸ hd)
  have hstart : step? (before, .between) c = some (before, .word [c]) := by
    rw [step?, advance?, start_of_endsWord (hends c List.mem_cons_self)]
    rfl
  have hrest : cs.foldlM step? (before, .word [c]) = some (before, .word (cs.reverse ++ [c])) :=
    foldlM_step?_word (fun d hd => hends d (List.mem_cons_of_mem c hd)) [c]
  rw [hcs, foldlM_cons_of_eq_some hstart, hrest, scanned, if_pos hword, hcs, List.reverse_cons]

/-- A token that can be written is scanned from its characters, from between two tokens. -/
theorem foldlM_step?_chars {t : Token} (h : t.IsWritten) :
    t.chars.foldlM step? (before, .between) = some (scanned (t :: before)) := by
  cases t with
  | null | bool | number => exact foldlM_step?_chars_of_isWord rfl h
  | string body =>
    have hopen : step? (before, .between) '"' = some (before, .string []) := rfl
    have hclose : step? (before, .string (body.reverse ++ [])) '"' =
        some (.string body :: before, .between) := by
      rw [List.append_nil, step?, advance?, if_pos rfl, List.reverse_reverse,
        if_pos (show Body.isWritten body = true from h)]
      rfl
    rw [chars, List.cons_append, foldlM_cons_of_eq_some hopen,
      foldlM_append_of_eq_some (foldlM_step?_body h []), foldlM_cons_of_eq_some hclose]
    rfl
  | _ => rfl

end Chars

theorem step?_after_word {w : Token} (hword : w.isWord = true) (h : w.IsWritten)
    (before : List Token) {c : Char} (hc : endsWord c = true) :
    step? (before, .word w.chars.reverse) c = step? (w :: before, .between) c := by
  rw [step?, advance?, if_pos hc, List.reverse_reverse, ofWord?_chars hword h]
  rfl

theorem exists_chars_of_not_isWord {t : Token} (h : t.isWord = false) :
    ∃ c cs, t.chars = c :: cs ∧ endsWord c = true := by
  cases t with
  | null | bool | number => cases h
  | _ => exact ⟨_, _, rfl, rfl⟩

theorem foldlM_step?_tokens {tokens : List Token} (hwritten : ∀ t ∈ tokens, t.IsWritten)
    (hchain : tokens.IsChain Apart) :
    (tokens.reverse.flatMap chars).foldlM step? ([], .between) = some (scanned tokens) := by
  induction tokens with
  | nil => rfl
  | cons t before ih =>
    have ht : t.IsWritten := hwritten t List.mem_cons_self
    have hbefore := ih (fun s hs => hwritten s (List.mem_cons_of_mem t hs)) hchain.tail
    rw [List.reverse_cons, List.flatMap_append, List.flatMap_singleton,
      foldlM_append_of_eq_some hbefore]
    cases before with
    | nil => exact foldlM_step?_chars ht
    | cons w earlier =>
      have hapart : Apart t w := List.isChain_cons_cons.1 hchain |>.1
      cases hword : w.isWord with
      | false =>
        rw [scanned, if_neg (by rw [hword]; exact Bool.false_ne_true)]
        exact foldlM_step?_chars ht
      | true =>
        -- The word before is only complete now, at the first character of this token.
        have hother : t.isWord = false := by
          cases h : t.isWord with
          | false => rfl
          | true => exact absurd ⟨h, hword⟩ hapart
        obtain ⟨c, cs, hcs, hends⟩ := exists_chars_of_not_isWord hother
        have hw : w.IsWritten := hwritten w (List.mem_cons_of_mem t List.mem_cons_self)
        have hread : t.chars.foldlM step? (w :: earlier, .between) =
            some (scanned (t :: w :: earlier)) := foldlM_step?_chars ht
        rw [scanned, if_pos hword, hcs, List.foldlM_cons, step?_after_word hword hw earlier hends,
          ← List.foldlM_cons, ← hcs, hread]

theorem finish?_scanned {tokens : List Token} (hwritten : ∀ t ∈ tokens, t.IsWritten) :
    ∃ last, finish? (scanned tokens).2 = some last ∧
      (scanned tokens).1.reverseAux last = tokens.reverse := by
  cases tokens with
  | nil => exact ⟨[], rfl, rfl⟩
  | cons t before =>
    rw [scanned, List.reverse_cons]
    split
    · next hword =>
      refine ⟨[t], ?_, List.reverseAux_eq⟩
      rw [finish?, List.reverse_reverse, ofWord?_chars hword (hwritten t List.mem_cons_self)]
      rfl
    · exact ⟨[], rfl, (List.reverseAux_eq).trans (by rw [List.append_nil, List.reverse_cons])⟩

/-- What is written is scanned back, if no two words follow each other. -/
theorem scan?_flatMap_chars {tokens : List Token} (hwritten : ∀ t ∈ tokens, t.IsWritten)
    (hchain : tokens.IsChain Apart) : scan? (tokens.flatMap chars) = some tokens := by
  have hreversed : ∀ t ∈ tokens.reverse, t.IsWritten := fun t ht =>
    hwritten t (List.mem_reverse.1 ht)
  have hread := foldlM_step?_tokens hreversed
    (List.isChain_reverse.2 (hchain.imp fun _ _ h => h.symm))
  obtain ⟨last, hlast, htokens⟩ := finish?_scanned hreversed
  rw [List.reverse_reverse] at hread htokens
  simp only [scan?, hread, hlast, Option.bind_eq_bind, Option.bind_some, htokens]
  rfl

end Token
end TroughTrader.Json
