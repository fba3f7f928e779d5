import TroughTrader.Proofs.Calendar.Written
import TroughTrader.Proofs.Json.ReadBack
import TroughTrader.Record.JsonFields

/-!
# Fields that are written are read back

`ReadsBack` ties a writer of JSON to a reader: what is written has a text, values that are fit to be
written are read back, and only such values are read. Counts, truth values, dates and names are
always fit, and prices are when they are finite. The fields of a record with distinct names are
found again in their slots (`openSlots?_ofFields`, `closedSlots?_ofFields`), and on the level of
texts writing and reading are inverse to each other (`ReadsBack.isInverse`).
-/

namespace TroughTrader

namespace Json

open Decimal Record

section Whole

open Token

theorem isWhole_of_length_eq_one {ds : Digits} (h : ds.length = 1) : isWhole ds = true := by
  obtain ⟨d, rfl⟩ := List.length_eq_one_iff.1 h
  simp [isWhole]

theorem isWhole_of_head? {ds : Digits} (hne : ds ≠ []) (h : ds.head? ≠ some Digits.zero) :
    isWhole ds = true := by
  simp [isWhole, hne, h]

theorem isWhole_ofNat (n : Nat) : isWhole (Digits.ofNat n) = true := by
  rcases Nat.eq_zero_or_pos n with rfl | hpos
  · exact isWhole_of_length_eq_one (by rw [Digits.ofNat]; rfl)
  · exact isWhole_of_head? (Digits.ofNat_ne_nil n) (Digits.head?_ofNat hpos)

/-- The whole part of a number is a zero or begins with its first significant digit. -/
theorem isWhole_numeral (l : Layout) {x : Float} (hx : x.isFinite = true) :
    isWhole (l.numeral x).whole = true := by
  rcases l.numeral_cases x with ⟨-, h⟩ | ⟨hne, h⟩
  · rw [h]
    rfl
  have hpos := Layout.coefficient_shortest_pos l.tie hx hne
  have hhead := Digits.head?_ofNat hpos
  have hdigits := Digits.ofNat_ne_nil (Scaled.shortest l.tie x).coefficient
  rcases h with h | h
  · rw [h, Layout.scientific]
    apply isWhole_of_length_eq_one
    rw [List.length_take]
    have := List.length_pos_iff.2 hdigits
    omega
  · rw [h, Layout.positional]
    simp only
    split
    · apply isWhole_of_head?
      · simp [hdigits]
      · rwa [List.head?_append_of_ne_nil _ hdigits]
    · split
      · rfl
      · rename_i hlong
        apply isWhole_of_head?
        · rw [← List.length_pos_iff, List.length_take]
          omega
        · rwa [List.head?_take, if_neg (by omega)]

end Whole

section Written

theorem isWritten_null : IsWritten .null := by simp [IsWritten, tokens, Token.IsWritten]

@[simp]
theorem isWritten_bool (b : Bool) : IsWritten (.bool b) := by
  simp [IsWritten, tokens, Token.IsWritten]

theorem isWritten_number {n : Numeral} (h : Token.isWhole n.whole = true) :
    IsWritten (.number n) := by
  simpa [IsWritten, tokens, Token.IsWritten] using h

@[simp]
theorem isWritten_ofText (s : String) : (ofText s).IsWritten := by
  simp [IsWritten, ofText, tokens, Token.IsWritten, Body.isWritten, Body.codes?_ofText]

@[simp]
theorem isWritten_ofCount (n : UInt64) : (ofCount n).IsWritten :=
  isWritten_number (isWhole_ofNat n.toNat)

@[simp]
theorem isWritten_ofDate (d : Date) : (ofDate d).IsWritten := isWritten_ofText d.text

@[simp]
theorem isWritten_ofPrice (x : Float) : (ofPrice x).IsWritten := by
  rw [ofPrice]
  split
  · rename_i hx
    exact isWritten_number (isWhole_numeral .json hx)
  · exact isWritten_null

theorem isWritten_ofOption {α : Type} {write : α → Json} (h : ∀ x, (write x).IsWritten)
    (o : Option α) : (ofOption write o).IsWritten := by
  cases o with
  | none => exact isWritten_null
  | some x => exact h x

theorem isWritten_itemTokens {items : List Json} (h : ∀ v ∈ items, v.IsWritten) :
    ∀ t ∈ itemTokens items, t.IsWritten := by
  induction items with
  | nil => simp [itemTokens]
  | cons v rest ih =>
    have hv : v.IsWritten := h v List.mem_cons_self
    have hrest := ih fun w hw => h w (List.mem_cons_of_mem v hw)
    intro t ht
    cases rest with
    | nil => exact hv t ht
    | cons w rest =>
      rw [itemTokens, List.mem_append, List.mem_cons] at ht
      rcases ht with ht | rfl | ht
      · exact hv t ht
      · trivial
      · exact hrest t ht

theorem isWritten_array {items : List Json} (h : ∀ v ∈ items, v.IsWritten) :
    IsWritten (.array items) := by
  intro t ht
  rw [tokens, List.cons_append, List.mem_cons, List.mem_append, List.mem_singleton] at ht
  rcases ht with rfl | ht | rfl
  · trivial
  · exact isWritten_itemTokens h t ht
  · trivial

theorem isWritten_memberTokens {members : List (Body × Json)}
    (h : ∀ m ∈ members, Body.isWritten m.1 = true ∧ m.2.IsWritten) :
    ∀ t ∈ memberTokens members, t.IsWritten := by
  induction members with
  | nil => simp [memberTokens]
  | cons m rest ih =>
    obtain ⟨hkey, hv⟩ := h m List.mem_cons_self
    have hrest := ih fun n hn => h n (List.mem_cons_of_mem m hn)
    intro t ht
    cases rest with
    | nil =>
      rw [memberTokens, List.mem_cons, List.mem_cons] at ht
      rcases ht with rfl | rfl | ht
      · exact hkey
      · trivial
      · exact hv t ht
    | cons n rest =>
      rw [memberTokens, List.cons_append, List.cons_append, List.mem_cons, List.mem_cons,
        List.mem_append, List.mem_cons] at ht
      rcases ht with rfl | rfl | ht | rfl | ht
      · exact hkey
      · trivial
      · exact hv t ht
      · trivial
      · exact hrest t ht

theorem isWritten_ofFields {fields : List (String × Json)} (h : ∀ f ∈ fields, f.2.IsWritten) :
    (ofFields fields).IsWritten := by
  intro t ht
  rw [ofFields, tokens, List.cons_append, List.mem_cons, List.mem_append,
    List.mem_singleton] at ht
  rcases ht with rfl | ht | rfl
  · trivial
  · refine isWritten_memberTokens ?_ t ht
    intro m hm
    obtain ⟨f, hf, rfl⟩ := List.mem_map.1 hm
    exact ⟨by simp [Body.isWritten, Body.codes?_ofText], h f hf⟩
  · trivial

end Written

section Slots

theorem text?_members (fields : List (String × Json)) :
    ((fields.map fun (name, v) => (Body.ofText name, v)).mapM fun (key, v) =>
      (Body.text? key).map (·, v)) = some fields := by
  induction fields with
  | nil => rfl
  | cons f fields ih =>
    have hname : (Body.text? (Body.ofText f.1)).map (·, f.2) = some f := by
      rw [Body.text?_ofText]
      rfl
    rw [List.map_cons, List.mapM_cons, ih]
    simp only [hname, Option.bind_eq_bind, Option.bind_some]
    rfl

theorem lookup_of_mem {fields : List (String × Json)} (h : (fields.map Prod.fst).Nodup)
    {f : String × Json} (hf : f ∈ fields) : fields.lookup f.1 = some f.2 := by
  induction fields with
  | nil => cases hf
  | cons g fields ih =>
    rw [List.map_cons, List.nodup_cons] at h
    rcases List.mem_cons.1 hf with rfl | hf
    · exact List.lookup_cons_self
    · have hne : f.1 ≠ g.1 := fun heq => h.1 (heq ▸ List.mem_map_of_mem hf)
      rw [List.lookup_cons, beq_false_of_ne hne]
      exact ih h.2 hf

/-- Members with different names, all known, are found in the slots of their names. -/
theorem slots?_of_nodup {σ : Type} (closed : Bool) {names : List String}
    {members : List (String × σ)} (hknown : ∀ m ∈ members, m.1 ∈ names)
    (h : (members.map Prod.fst).Nodup) :
    slots? closed names members = some (names.map fun name => members.lookup name) := by
  have hclosed : (closed && members.any fun m => !names.contains m.1) = false := by
    rw [Bool.and_eq_false_iff, List.any_eq_false]
    refine Or.inr fun m hm => ?_
    simpa using hknown m hm
  have honce : (names.any fun name => 1 < members.countP fun m => m.1 == name) = false := by
    rw [List.any_eq_false]
    intro name _
    have hcount := List.nodup_iff_count_le_one.1 h name
    rw [List.count, List.countP_map] at hcount
    rw [decide_eq_true_iff]
    exact Nat.not_lt.2 hcount
  rw [slots?, hclosed, honce]
  rfl

/-- A closed record refuses a name that it does not know, and every record one that comes again. -/
theorem slots?_eq_none {σ : Type} {names : List String} {members : List (String × σ)}
    (h : (∃ m ∈ members, m.1 ∉ names) ∨ ¬ (members.map Prod.fst).Nodup) :
    slots? true names members = none := by
  rw [slots?]
  split
  · rfl
  · rename_i hknown
    rw [Bool.true_and, Bool.not_eq_true, List.any_eq_false] at hknown
    have hknown : ∀ m ∈ members, m.1 ∈ names := fun m hm => by simpa using hknown m hm
    rcases h with ⟨m, hm, hnot⟩ | hagain
    · exact absurd (hknown m hm) hnot
    · rw [if_pos]
      rw [List.nodup_iff_count_le_one, not_forall] at hagain
      obtain ⟨name, hname⟩ := hagain
      have hcount := Nat.not_le.1 hname
      obtain ⟨m, hm, rfl⟩ := List.mem_map.1 (List.count_pos_iff.1 (Nat.zero_lt_of_lt hcount))
      rw [List.count, List.countP_map] at hcount
      exact List.any_eq_true.2 ⟨m.1, hknown m hm, decide_eq_true hcount⟩

theorem slots?_self (closed : Bool) {fields : List (String × Json)}
    (h : (fields.map Prod.fst).Nodup) :
    slots? closed (fields.map Prod.fst) fields = some (fields.map fun f => some f.2) := by
  rw [slots?_of_nodup closed (fun f => List.mem_map_of_mem) h, List.map_map]
  exact congrArg some (List.map_congr_left fun f hf => lookup_of_mem h hf)

/-- The members of a record are sorted by their names, as they were before they were escaped. -/
theorem closedSlots?_ofFields_eq (names : List String) (fields : List (String × Json)) :
    (ofFields fields).closedSlots? names = slots? true names fields := by
  rw [ofFields, closedSlots?, text?_members]
  rfl

/-- The fields of an open record are found in the slots of their names. -/
theorem openSlots?_ofFields {fields : List (String × Json)} (h : (fields.map Prod.fst).Nodup) :
    (ofFields fields).openSlots? (fields.map Prod.fst) = some (fields.map fun f => some f.2) := by
  rw [ofFields, openSlots?, text?_members]
  exact slots?_self false h

theorem closedSlots?_ofFields {fields : List (String × Json)} (h : (fields.map Prod.fst).Nodup) :
    (ofFields fields).closedSlots? (fields.map Prod.fst) =
      some (fields.map fun f => some f.2) := by
  rw [closedSlots?_ofFields_eq]
  exact slots?_self true h

end Slots

/-- A writer of values and a reader of them. Whatever is written has a text; a value that is fit to
be written is read back, and whatever is read is fit. -/
structure ReadsBack {α : Type} (write : α → Json) (read? : Json → Option α) (IsFit : α → Prop) :
    Prop where
  isWritten : ∀ x, (write x).IsWritten
  read?_write : ∀ {x}, IsFit x → read? (write x) = some x
  of_read? : ∀ {v x}, read? v = some x → IsFit x

namespace ReadsBack

theorem count : ReadsBack ofCount count? fun _ => True where
  isWritten := isWritten_ofCount
  read?_write {n} _ := Numeral.toCount?_ofNat n
  of_read? _ := trivial

theorem price : ReadsBack ofPrice price? fun x => x.isFinite = true where
  isWritten := isWritten_ofPrice
  read?_write {x} hx := by
    rw [ofPrice, if_pos hx, price?]
    simp only [Layout.toFloat_numeral .json hx]
    exact if_pos hx
  of_read? {v x} h := by
    cases v with
    | number n =>
      simp only [price?] at h
      split at h
      · cases h
        assumption
      · cases h
    | _ => cases h

theorem bool : ReadsBack Json.bool bool? fun _ => True where
  isWritten := isWritten_bool
  read?_write _ := rfl
  of_read? _ := trivial

theorem date : ReadsBack ofDate date? fun _ => True where
  isWritten := isWritten_ofDate
  read?_write {d} _ := by
    rw [date?, ofDate, ofText, text?, Body.text?_ofText]
    exact Date.ofText?_text d
  of_read? _ := trivial

/-- A choice is written as its name. -/
theorem choice {α : Type} {name : α → String} {ofName? : String → Option α}
    (h : ∀ x, ofName? (name x) = some x) :
    ReadsBack (fun x => ofText (name x)) (fun v => v.name?.bind ofName?) fun _ => True where
  isWritten x := isWritten_ofText (name x)
  read?_write {x} _ := by
    simp only [ofText, name?, Body.text?_ofText, Option.bind_some]
    exact h x
  of_read? _ := trivial

variable {α : Type} {write : α → Json} {read? : Json → Option α} {IsFit : α → Prop}

theorem write_ne_null (h : ReadsBack write read? IsFit) (hnull : read? .null = none) {x : α}
    (hx : IsFit x) : write x ≠ .null := by
  intro heq
  have hread := h.read?_write hx
  rw [heq, hnull] at hread
  cases hread

theorem option?_of_ne_null {v : Json} (h : v ≠ .null) : option? read? v = (read? v).map some := by
  rw [option?]
  exact h

/-- A value that may be missing is null when it is, which no value is. -/
theorem option (h : ReadsBack write read? IsFit) (hnull : read? .null = none) :
    ReadsBack (ofOption write) (option? read?) fun o => ∀ x ∈ o, IsFit x where
  isWritten := isWritten_ofOption h.isWritten
  read?_write {o} ho := by
    cases o with
    | none => rfl
    | some x =>
      have hx : IsFit x := ho x rfl
      rw [ofOption, option?_of_ne_null (h.write_ne_null hnull hx), h.read?_write hx]
      rfl
  of_read? {v o} hread := by
    by_cases hv : v = .null
    · rw [hv] at hread
      cases hread
      simp
    · rw [option?_of_ne_null hv, Option.map_eq_some_iff] at hread
      obtain ⟨x, hx, rfl⟩ := hread
      intro y hy
      cases hy
      exact h.of_read? hx

theorem of_required (h : ReadsBack write read? IsFit) {slot : Option Json} {x : α}
    (hread : required read? slot = some x) : IsFit x := by
  rw [required, Option.bind_eq_some_iff] at hread
  obtain ⟨v, -, hv⟩ := hread
  exact h.of_read? hv

theorem of_optional (h : ReadsBack write read? IsFit) (hnull : read? .null = none)
    {slot : Option Json} {o : Option α} (hread : optional read? slot = some o) :
    ∀ x ∈ o, IsFit x := by
  cases slot with
  | none =>
    cases hread
    simp
  | some v => exact (h.option hnull).of_read? hread

theorem of_orDefault (h : ReadsBack write read? IsFit) {default x : α} (hdefault : IsFit default)
    {slot : Option Json} (hread : orDefault default read? slot = some x) : IsFit x := by
  cases slot with
  | none =>
    cases hread
    exact hdefault
  | some v => exact h.of_read? hread

end ReadsBack

def fromText? {α : Type} (read? : Json → Option α) (s : String) : Option α :=
  (ofText? s).bind read?

/-- Writing as text and reading from text are inverse to each other on the values that are fit:
they are read back from what is written, nothing else is ever read, and what has been read is
written to a text from which the same value is read, and which that value is written as again. -/
structure IsInverse {α : Type} (write : α → Json) (read? : Json → Option α) (IsFit : α → Prop) :
    Prop where
  read_text : ∀ x, IsFit x → fromText? read? (write x).text = some x
  isFit_of_read : ∀ s x, fromText? read? s = some x → IsFit x
  read_again : ∀ s x, fromText? read? s = some x →
    ∃ y, fromText? read? (write x).text = some y ∧ y = x ∧ (write y).text = (write x).text

theorem ReadsBack.isInverse {α : Type} {write : α → Json} {read? : Json → Option α}
    {IsFit : α → Prop} (h : ReadsBack write read? IsFit) : IsInverse write read? IsFit := by
  have read_text (x : α) (hx : IsFit x) : fromText? read? (write x).text = some x := by
    rw [fromText?, ofText?_text (h.isWritten x), Option.bind_some, h.read?_write hx]
  have isFit_of_read (s : String) (x : α) (hx : fromText? read? s = some x) : IsFit x := by
    rw [fromText?, Option.bind_eq_some_iff] at hx
    obtain ⟨v, -, hv⟩ := hx
    exact h.of_read? hv
  exact ⟨read_text, isFit_of_read, fun s x hx =>
    ⟨x, read_text x (isFit_of_read s x hx), rfl, rfl⟩⟩

end Json
end TroughTrader
