import TroughTrader.Json.Text
import TroughTrader.Proofs.Json.Scan

/-!
# Reading a written value back

A JSON value whose numbers have no leading zeros and whose strings are properly escaped is read back
from its text (`ofText?_text`). Commas, colons and brackets keep the words of a value apart, so that
its characters are scanned as its tokens; the reader then follows the value that was written, with
one frame for each bracket that is open around it.
-/

namespace TroughTrader.Json

open Token

/-- A value that can be written: its numbers have no leading zeros, and its strings are properly
escaped. -/
def IsWritten (v : Json) : Prop := ∀ t ∈ v.tokens, t.IsWritten

section Chain

theorem apart_left {s : Token} (h : s.isWord = false) (t : Token) : Apart s t := by
  rintro ⟨hs, -⟩
  rw [h] at hs
  cases hs

theorem apart_right (s : Token) {t : Token} (h : t.isWord = false) : Apart s t :=
  (apart_left h s).symm

theorem isChain_cons_of_not_isWord {s : Token} (h : s.isWord = false) {ts : List Token}
    (hts : ts.IsChain Apart) : (s :: ts).IsChain Apart :=
  List.isChain_cons.2 ⟨fun t _ => apart_left h t, hts⟩

theorem isChain_append_cons {s : Token} (h : s.isWord = false) {ts us : List Token}
    (hts : ts.IsChain Apart) (hus : us.IsChain Apart) : (ts ++ s :: us).IsChain Apart := by
  refine List.isChain_append.2 ⟨hts, isChain_cons_of_not_isWord h hus, ?_⟩
  intro t _ t' ht'
  cases ht'
  exact apart_right t h

mutual

theorem isChain_tokens : (v : Json) → v.tokens.IsChain Apart
  | .null | .bool _ | .number _ | .string _ => List.isChain_singleton _
  | .array items =>
    isChain_append_cons rfl (isChain_cons_of_not_isWord rfl (isChain_itemTokens items)) .nil
  | .object members =>
    isChain_append_cons rfl (isChain_cons_of_not_isWord rfl (isChain_memberTokens members)) .nil

theorem isChain_itemTokens : (items : List Json) → (itemTokens items).IsChain Apart
  | [] => .nil
  | [v] => isChain_tokens v
  | v :: w :: rest => isChain_append_cons rfl (isChain_tokens v) (isChain_itemTokens (w :: rest))

theorem isChain_memberTokens :
    (members : List (Body × Json)) → (memberTokens members).IsChain Apart
  | [] => .nil
  | [(_, v)] =>
    isChain_cons_of_not_isWord rfl (isChain_cons_of_not_isWord rfl (isChain_tokens v))
  | (_, v) :: next :: rest =>
    isChain_append_cons rfl
      (isChain_cons_of_not_isWord rfl (isChain_cons_of_not_isWord rfl (isChain_tokens v)))
      (isChain_memberTokens (next :: rest))

end

end Chain

namespace Progress

mutual

theorem foldlM_tokens (v : Json) {place : Place} (hplace : place = .value ∨ place = .firstItem)
    (frames : List Frame) (done : Option Json) :
    v.tokens.foldlM step? ⟨place, frames, done⟩ = some (complete v frames) := by
  cases v with
  | null | bool | number | string => rcases hplace with rfl | rfl <;> rfl
  | array items =>
    have hopen : step? ⟨place, frames, done⟩ .openArray =
        some ⟨.firstItem, .array [] :: frames, none⟩ := by
      rcases hplace with rfl | rfl <;> rfl
    rw [tokens, List.cons_append, foldlM_cons_of_eq_some hopen]
    cases items with
    | nil => rfl
    | cons v rest => exact foldlM_itemTokens v rest (.inr rfl) [] frames
  | object members =>
    have hopen : step? ⟨place, frames, done⟩ .openObject =
        some ⟨.firstKey, .object [] [] :: frames, none⟩ := by
      rcases hplace with rfl | rfl <;> rfl
    rw [tokens, List.cons_append, foldlM_cons_of_eq_some hopen]
    cases members with
    | nil => rfl
    | cons member rest => exact foldlM_memberTokens member rest (.inr rfl) [] [] frames
termination_by sizeOf v

/-- The items of an array are read to its closing bracket, after those that were read before. -/
theorem foldlM_itemTokens (v : Json) (rest : List Json) {place : Place}
    (hplace : place = .value ∨ place = .firstItem) (before : List Json) (frames : List Frame) :
    (itemTokens (v :: rest) ++ [closeArray]).foldlM step? ⟨place, .array before :: frames, none⟩ =
      some (complete (.array (before.reverse ++ v :: rest)) frames) := by
  cases rest with
  | nil =>
    rw [itemTokens, foldlM_append_of_eq_some (foldlM_tokens v hplace _ _)]
    exact congrArg (fun items => some (complete (.array items) frames)) (List.reverse_cons)
  | cons w rest =>
    have hcomma : step? (complete v (.array before :: frames)) .comma =
        some ⟨.value, .array (v :: before) :: frames, none⟩ := rfl
    rw [itemTokens, List.append_assoc, List.cons_append,
      foldlM_append_of_eq_some (foldlM_tokens v hplace _ _), foldlM_cons_of_eq_some hcomma,
      foldlM_itemTokens w rest (.inl rfl), List.reverse_cons, List.append_assoc]
    rfl
termination_by sizeOf (v :: rest)

theorem foldlM_memberTokens (member : Body × Json) (rest : List (Body × Json)) {place : Place}
    (hplace : place = .key ∨ place = .firstKey) (before : List (Body × Json)) (last : Body)
    (frames : List Frame) :
    (memberTokens (member :: rest) ++ [closeObject]).foldlM step?
        ⟨place, .object before last :: frames, none⟩ =
      some (complete (.object (before.reverse ++ member :: rest)) frames) := by
  obtain ⟨key, v⟩ := member
  -- The frame keeps the key that was read last; a closing bracket does not look at it.
  have hkey : step? ⟨place, .object before last :: frames, none⟩ (.string key) =
      some ⟨.colon key, .object before last :: frames, none⟩ := by
    rcases hplace with rfl | rfl <;> rfl
  have hcolon : step? ⟨.colon key, .object before last :: frames, none⟩ .colon =
      some ⟨.value, .object before key :: frames, none⟩ := rfl
  cases rest with
  | nil =>
    rw [memberTokens, List.cons_append, List.cons_append, foldlM_cons_of_eq_some hkey,
      foldlM_cons_of_eq_some hcolon, foldlM_append_of_eq_some (foldlM_tokens v (.inl rfl) _ _)]
    exact congrArg (fun members => some (complete (.object members) frames)) (List.reverse_cons)
  | cons next rest =>
    have hcomma : step? (complete v (.object before key :: frames)) .comma =
        some ⟨.key, .object ((key, v) :: before) key :: frames, none⟩ := rfl
    rw [memberTokens, List.append_assoc, List.cons_append, List.cons_append, List.cons_append,
      foldlM_cons_of_eq_some hkey, foldlM_cons_of_eq_some hcolon,
      foldlM_append_of_eq_some (foldlM_tokens v (.inl rfl) _ _), foldlM_cons_of_eq_some hcomma,
      foldlM_memberTokens next rest (.inl rfl), List.reverse_cons, List.append_assoc]
    rfl
termination_by sizeOf (member :: rest)

end

end Progress

theorem ofTokens?_tokens (v : Json) : ofTokens? v.tokens = some v := by
  rw [ofTokens?, Progress.initial, Progress.foldlM_tokens v (.inl rfl)]
  rfl

/-- A value that can be written is read back from its text. -/
theorem ofText?_text {v : Json} (h : v.IsWritten) : ofText? v.text = some v := by
  rw [ofText?, text, String.toList_ofList, ofChars?, scan?_flatMap_chars h (isChain_tokens v)]
  exact ofTokens?_tokens v

end TroughTrader.Json
