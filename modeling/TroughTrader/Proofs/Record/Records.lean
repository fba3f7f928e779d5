import TroughTrader.Proofs.Record.Fields
import TroughTrader.Proofs.Trade.Flight
import TroughTrader.Record.JsonForms

/-!
# Records that are written are read back

Each record that leaves the library is read back from its JSON form if its prices are finite, and
only such records are read, from an object as from an array. So writing and reading are inverse to
each other on all of them (`Record.forms_isInverse`), and the journal of a run is read back entry by
entry.
-/

namespace TroughTrader

open Json Record

theorem OrderId.readsBack : ReadsBack toJson ofJson? fun _ => True where
  isWritten id := ReadsBack.count.isWritten id.number
  read?_write {id} _ := by
    rw [ofJson?, toJson, ReadsBack.count.read?_write trivial]
    rfl
  of_read? _ := trivial

theorem Side.readsBack : ReadsBack toJson ofJson? fun _ => True :=
  .choice fun s => by cases s <;> decide

theorem OrderStatus.readsBack : ReadsBack toJson ofJson? fun _ => True :=
  .choice ofName?_name

theorem Exposure.readsBack : ReadsBack toJson ofJson? fun _ => True :=
  .choice fun e => by cases e <;> decide

theorem Stage.readsBack : ReadsBack toJson ofJson? fun _ => True :=
  .choice ofName?_name

theorem SmallSize.readsBack : ReadsBack toJson ofJson? fun _ => True :=
  .choice ofKey?_key

namespace Bar

/-- All prices of a bar are finite. -/
structure IsFinite (b : Bar) : Prop where
  opening : b.opening.isFinite = true
  high : b.high.isFinite = true
  low : b.low.isFinite = true
  close : b.close.isFinite = true

theorem openSlots?_toJson (b : Bar) : b.toJson.openSlots? fields =
    some [some (Json.ofCount b.index), some (Json.ofDate b.date), some (Json.ofPrice b.opening),
      some (Json.ofPrice b.high), some (Json.ofPrice b.low), some (Json.ofPrice b.close)] :=
  openSlots?_ofFields (show fields.Nodup by decide)

theorem readsBack : ReadsBack toJson ofJson? IsFinite where
  isWritten b := by
    apply isWritten_ofFields
    simp
  read?_write {b} hb := by
    simp only [ofJson?, openSlots?_toJson, required, Option.bind_eq_bind, Option.bind_some,
      ReadsBack.count.read?_write trivial, ReadsBack.date.read?_write trivial,
      ReadsBack.price.read?_write hb.opening, ReadsBack.price.read?_write hb.high,
      ReadsBack.price.read?_write hb.low, ReadsBack.price.read?_write hb.close]
    rfl
  of_read? {v b} h := by
    simp only [ofJson?, Option.bind_eq_bind, Option.bind_eq_some_iff] at h
    obtain ⟨slots, -, h⟩ := h
    split at h
    · simp only [Option.bind_eq_some_iff] at h
      obtain ⟨_, -, _, -, _, hopening, _, hhigh, _, hlow, _, hclose, h⟩ := h
      cases h
      exact ⟨ReadsBack.price.of_required hopening, ReadsBack.price.of_required hhigh,
        ReadsBack.price.of_required hlow, ReadsBack.price.of_required hclose⟩
    · cases h

end Bar

namespace OrderReport

/-- The price of a fill is finite, if there is one. -/
def IsFinite (r : OrderReport) : Prop := ∀ x ∈ r.fillPrice, x.isFinite = true

theorem openSlots?_toJson (r : OrderReport) : r.toJson.openSlots? fields =
    some [some r.order.toJson, some r.status.toJson, some (Json.ofOption Json.ofPrice r.fillPrice),
      some (Json.ofCount r.filledSize)] :=
  openSlots?_ofFields (show fields.Nodup by decide)

theorem readsBack : ReadsBack toJson ofJson? IsFinite where
  isWritten r := by
    apply isWritten_ofFields
    simp [OrderId.readsBack.isWritten, OrderStatus.readsBack.isWritten,
      isWritten_ofOption isWritten_ofPrice]
  read?_write {r} hr := by
    have hprice : optional price? (some (Json.ofOption Json.ofPrice r.fillPrice)) =
        some r.fillPrice := (ReadsBack.price.option rfl).read?_write hr
    simp only [ofJson?, openSlots?_toJson, required, Option.bind_eq_bind, Option.bind_some,
      OrderId.readsBack.read?_write trivial, OrderStatus.readsBack.read?_write trivial, hprice,
      ReadsBack.count.read?_write trivial]
    rfl
  of_read? {v r} h := by
    simp only [ofJson?, Option.bind_eq_bind, Option.bind_eq_some_iff] at h
    obtain ⟨slots, -, h⟩ := h
    split at h
    · simp only [Option.bind_eq_some_iff] at h
      obtain ⟨_, -, _, -, _, hprice, _, -, h⟩ := h
      cases h
      exact ReadsBack.price.of_optional rfl hprice
    · cases h

end OrderReport

namespace BottomAnswers

theorem openSlots?_toJson (a : BottomAnswers) : a.toJson.openSlots? fields =
    some [some (.bool a.dips), some (.bool a.crossed), some (.bool a.spaced)] :=
  openSlots?_ofFields (show fields.Nodup by decide)

theorem readsBack : ReadsBack toJson ofJson? fun _ => True where
  isWritten a := by
    apply isWritten_ofFields
    simp
  read?_write {a} _ := by
    simp only [ofJson?, openSlots?_toJson, required, Option.bind_eq_bind, Option.bind_some,
      ReadsBack.bool.read?_write trivial]
    rfl
  of_read? _ := trivial

end BottomAnswers

namespace Bottom

/-- All prices of a bottom are finite. -/
structure IsFinite (b : Bottom) : Prop where
  close : b.close.isFinite = true
  low : b.low.isFinite = true
  lowerEnvelope : b.lowerEnvelope.isFinite = true

theorem openSlots?_toJson (b : Bottom) : b.toJson.openSlots? fields =
    some [some (Json.ofCount b.barIndex), some (Json.ofDate b.date), some (Json.ofPrice b.close),
      some (Json.ofPrice b.low), some (Json.ofPrice b.lowerEnvelope)] :=
  openSlots?_ofFields (show fields.Nodup by decide)

theorem readsBack : ReadsBack toJson ofJson? IsFinite where
  isWritten b := by
    apply isWritten_ofFields
    simp
  read?_write {b} hb := by
    simp only [ofJson?, openSlots?_toJson, required, Option.bind_eq_bind, Option.bind_some,
      ReadsBack.count.read?_write trivial, ReadsBack.date.read?_write trivial,
      ReadsBack.price.read?_write hb.close, ReadsBack.price.read?_write hb.low,
      ReadsBack.price.read?_write hb.lowerEnvelope]
    rfl
  of_read? {v b} h := by
    simp only [ofJson?, Option.bind_eq_bind, Option.bind_eq_some_iff] at h
    obtain ⟨slots, -, h⟩ := h
    split at h
    · simp only [Option.bind_eq_some_iff] at h
      obtain ⟨_, -, _, -, _, hclose, _, hlow, _, henvelope, h⟩ := h
      cases h
      exact ⟨ReadsBack.price.of_required hclose, ReadsBack.price.of_required hlow,
        ReadsBack.price.of_required henvelope⟩
    · cases h

end Bottom

namespace JournalEntry

/-- The prices of an entry and of its stop are finite, if there are any. -/
structure IsFinite (e : JournalEntry) : Prop where
  entryPrice : ∀ x ∈ e.entryPrice, x.isFinite = true
  stopPrice : ∀ x ∈ e.stopPrice, x.isFinite = true

instance (e : JournalEntry) : Decidable e.IsFinite :=
  decidable_of_iff
    ((∀ x ∈ e.entryPrice, x.isFinite = true) ∧ ∀ x ∈ e.stopPrice, x.isFinite = true)
    ⟨fun h => ⟨h.1, h.2⟩, fun h => ⟨h.1, h.2⟩⟩

theorem openSlots?_toJson (e : JournalEntry) : e.toJson.openSlots? fields =
    some [some (Json.ofCount e.barIndex), some (Json.ofDate e.date), some e.stage.toJson,
      some (Json.ofOption Json.ofPrice e.entryPrice), some (Json.ofOption Json.ofPrice e.stopPrice),
      some (Json.ofOption Json.ofCount e.lastEntry), some (.bool e.wasBottom)] :=
  openSlots?_ofFields (show fields.Nodup by decide)

theorem readsBack : ReadsBack toJson ofJson? IsFinite where
  isWritten e := by
    apply isWritten_ofFields
    simp [Stage.readsBack.isWritten, isWritten_ofOption isWritten_ofPrice,
      isWritten_ofOption isWritten_ofCount]
  read?_write {e} he := by
    have hentry : optional price? (some (Json.ofOption Json.ofPrice e.entryPrice)) =
        some e.entryPrice := (ReadsBack.price.option rfl).read?_write he.entryPrice
    have hstop : optional price? (some (Json.ofOption Json.ofPrice e.stopPrice)) =
        some e.stopPrice := (ReadsBack.price.option rfl).read?_write he.stopPrice
    have hlast : optional count? (some (Json.ofOption Json.ofCount e.lastEntry)) =
        some e.lastEntry := (ReadsBack.count.option rfl).read?_write fun _ _ => trivial
    simp only [ofJson?, openSlots?_toJson, required, Option.bind_eq_bind, Option.bind_some,
      ReadsBack.count.read?_write trivial, ReadsBack.date.read?_write trivial,
      Stage.readsBack.read?_write trivial, hentry, hstop, hlast,
      ReadsBack.bool.read?_write trivial]
    rfl
  of_read? {v e} h := by
    simp only [ofJson?, Option.bind_eq_bind, Option.bind_eq_some_iff] at h
    obtain ⟨slots, -, h⟩ := h
    split at h
    · simp only [Option.bind_eq_some_iff] at h
      obtain ⟨_, -, _, -, _, -, _, hentry, _, hstop, _, -, _, -, h⟩ := h
      cases h
      exact ⟨ReadsBack.price.of_optional rfl hentry, ReadsBack.price.of_optional rfl hstop⟩
    · cases h

theorem mapM_ofJson? {entries : List JournalEntry} (h : ∀ e ∈ entries, e.IsFinite) :
    (entries.map toJson).mapM ofJson? = some entries := by
  induction entries with
  | nil => rfl
  | cons e entries ih =>
    rw [List.map_cons, List.mapM_cons, readsBack.read?_write (h e List.mem_cons_self),
      ih fun e' he' => h e' (List.mem_cons_of_mem e he')]
    rfl

theorem isFinite_of_mapM_ofJson? {items : List Json} {entries : List JournalEntry}
    (h : items.mapM ofJson? = some entries) : ∀ e ∈ entries, e.IsFinite := by
  induction items generalizing entries with
  | nil =>
    cases h
    simp
  | cons v items ih =>
    simp only [List.mapM_cons, Option.bind_eq_bind, Option.bind_eq_some_iff] at h
    obtain ⟨e, he, rest, hrest, h⟩ := h
    cases h
    rw [List.forall_mem_cons]
    exact ⟨readsBack.of_read? he, ih hrest⟩

theorem journal_readsBack :
    ReadsBack journalJson journalOfJson? fun entries => ∀ e ∈ entries, e.IsFinite where
  isWritten entries := by
    apply isWritten_array
    intro v hv
    obtain ⟨e, -, rfl⟩ := List.mem_map.1 hv
    exact readsBack.isWritten e
  read?_write h := mapM_ofJson? h
  of_read? {v entries} h := by
    cases v with
    | array items => exact isFinite_of_mapM_ofJson? h
    | _ => cases h

end JournalEntry

namespace Settings

/-- All settings that are real numbers are finite. -/
structure IsFinite (s : Settings) : Prop where
  envelopePct : s.envelopePct.isFinite = true
  minSpaceFrac : s.minSpaceFrac.isFinite = true
  riskPct : s.riskPct.isFinite = true
  maxRiskPct : s.maxRiskPct.isFinite = true

theorem isFinite_standard : standard.IsFinite :=
  ⟨by decide +kernel, by decide +kernel, by decide +kernel, by decide +kernel⟩

theorem closedSlots?_toJson (s : Settings) : s.toJson.closedSlots? keys =
    some (Setting.all.map fun f => some (s.valueJson f)) :=
  closedSlots?_ofFields (show keys.Nodup by decide)

theorem readsBack : ReadsBack toJson ofJson? IsFinite where
  isWritten s := by
    apply isWritten_ofFields
    intro f hf
    obtain ⟨setting, -, rfl⟩ := List.mem_map.1 hf
    cases setting <;> simp [valueJson, SmallSize.readsBack.isWritten]
  read?_write {s} hs := by
    simp only [ofJson?, closedSlots?_toJson, Setting.all, List.map_cons, List.map_nil, valueJson,
      ofSlots?, orDefault, Option.bind_eq_bind, Option.bind_some,
      ReadsBack.count.read?_write trivial, ReadsBack.price.read?_write hs.envelopePct,
      ReadsBack.price.read?_write hs.minSpaceFrac, ReadsBack.price.read?_write hs.riskPct,
      ReadsBack.price.read?_write hs.maxRiskPct, SmallSize.readsBack.read?_write trivial]
    rfl
  of_read? {v s} h := by
    simp only [ofJson?, Option.bind_eq_bind, Option.bind_eq_some_iff] at h
    obtain ⟨slots, -, h⟩ := h
    rw [ofSlots?.eq_def] at h
    split at h
    · simp only [Option.bind_eq_bind, Option.bind_eq_some_iff] at h
      obtain ⟨_, -, _, henvelope, _, -, _, hspace, _, hrisk, _, hmax, _, -, h⟩ := h
      cases h
      -- A setting may be missing, but then it has its standard value.
      exact ⟨ReadsBack.price.of_orDefault isFinite_standard.envelopePct henvelope,
        ReadsBack.price.of_orDefault isFinite_standard.minSpaceFrac hspace,
        ReadsBack.price.of_orDefault isFinite_standard.riskPct hrisk,
        ReadsBack.price.of_orDefault isFinite_standard.maxRiskPct hmax⟩
    · cases h

end Settings

/-- Every record has a JSON text from which it is read back unchanged, if its prices are finite, and
no other record is ever read. This holds for identifiers and for choices without any condition, and
the journal of a run is read back if the prices that it records are finite. -/
theorem Record.forms_isInverse :
    IsInverse Bar.toJson Bar.ofJson? Bar.IsFinite ∧
      IsInverse OrderId.toJson OrderId.ofJson? (fun _ => True) ∧
      IsInverse Side.toJson Side.ofJson? (fun _ => True) ∧
      IsInverse OrderStatus.toJson OrderStatus.ofJson? (fun _ => True) ∧
      IsInverse OrderReport.toJson OrderReport.ofJson? OrderReport.IsFinite ∧
      IsInverse Exposure.toJson Exposure.ofJson? (fun _ => True) ∧
      IsInverse Settings.toJson Settings.ofJson? Settings.IsFinite ∧
      IsInverse SmallSize.toJson SmallSize.ofJson? (fun _ => True) ∧
      IsInverse BottomAnswers.toJson BottomAnswers.ofJson? (fun _ => True) ∧
      IsInverse Bottom.toJson Bottom.ofJson? Bottom.IsFinite ∧
      IsInverse Stage.toJson Stage.ofJson? (fun _ => True) ∧
      IsInverse JournalEntry.toJson JournalEntry.ofJson? JournalEntry.IsFinite ∧
      ∀ (settings : SoundSettings) (sizer : Sizer) (events : List Event),
        let journal := ((Strategy.start settings sizer).readAll events).journal.toList
        (∀ e ∈ journal, e.IsFinite) →
          fromText? JournalEntry.journalOfJson? (JournalEntry.journalJson journal).text =
            some journal :=
  ⟨Bar.readsBack.isInverse, OrderId.readsBack.isInverse, Side.readsBack.isInverse,
    OrderStatus.readsBack.isInverse, OrderReport.readsBack.isInverse,
    Exposure.readsBack.isInverse, Settings.readsBack.isInverse, SmallSize.readsBack.isInverse,
    BottomAnswers.readsBack.isInverse, Bottom.readsBack.isInverse, Stage.readsBack.isInverse,
    JournalEntry.readsBack.isInverse,
    fun _ _ _ hfinite => JournalEntry.journal_readsBack.isInverse.read_text _ hfinite⟩

/-- A leap day before the year zero, the largest index, a negative zero, the least and the largest
magnitude; and the journal of a run that sends a buy. -/
theorem Record.forms_isInverse_extreme :
    let bar : Bar := ⟨18446744073709551615, ⟨-4, 2, 29, by decide⟩, -0.0, Float.ofBits 1,
      Float.ofBits 0x7fefffffffffffff, 100.0⟩
    let journal := ((Strategy.start .brief SoundSettings.brief.riskBudget.sizer).readAll
      [.bar (.quote 0 90 100) (.ofOrder 7), .bar (.quote 1 90 100) (.ofOrder 7),
        .bar (.quote 2 90 101) (.ofOrder 7)]).journal.toList
    bar.IsFinite ∧ fromText? Bar.ofJson? bar.toJson.text = some bar ∧
      journal.map (fun e => (e.stage, e.entryPrice)) =
        [(.flat, none), (.pendingEntry, some 101)] ∧
      (∀ e ∈ journal, e.IsFinite) ∧
      fromText? JournalEntry.journalOfJson? (JournalEntry.journalJson journal).text =
        some journal := by
  intro bar journal
  have hbar : bar.IsFinite :=
    ⟨by decide +kernel, by decide +kernel, by decide +kernel, by decide +kernel⟩
  have hjournal : ∀ e ∈ journal, e.IsFinite := by decide +kernel
  refine ⟨hbar, forms_isInverse.1.read_text bar hbar, by decide +kernel, hjournal, ?_⟩
  exact forms_isInverse.2.2.2.2.2.2.2.2.2.2.2.2 _ _ _ hjournal

end TroughTrader
