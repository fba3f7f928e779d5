import Mathlib.Data.List.Sigma
import TroughTrader.Proofs.Record.Records
import TroughTrader.Proofs.Settings.Ranges
import TroughTrader.Proofs.Toml.Lines
import TroughTrader.Settings.Document

/-!
# Settings of which some are given

A document may give some of the settings, in any order, and the others keep their standard values.
Both kinds of documents sort their members by name and then read them in one way, each with its own
values (`ReadsScalars`), so that the settings do not depend on the kind (`ofSlots?_lookup`). They
differ in what comes before and after: a repeated name fails when a line of TOML adds its value, and
when the members of JSON are sorted; and only settings from TOML are checked (`readers_agree`).
-/

namespace TroughTrader

open Record
open Toml (Scalar)

def Toml.Scalar.json : Scalar → Json
  | boolean b => .bool b
  | integer n _ _ => .number ⟨n < 0, Decimal.Digits.ofNat n.natAbs, [], none⟩
  | real x _ => .ofPrice x
  | string s => .ofText s

theorem Toml.Scalar.isWritten_json (v : Scalar) : v.json.IsWritten := by
  cases v with
  | boolean b => exact Json.isWritten_bool b
  | integer n low high => exact Json.isWritten_number (Json.isWhole_ofNat n.natAbs)
  | real x isFinite => exact Json.isWritten_ofPrice x
  | string s => exact Json.isWritten_ofText s

namespace Setting

theorem key_injective : Function.Injective key := by
  intro f g h
  cases f <;> cases g <;> first | rfl | exact absurd h (by decide)

abbrev Value : Setting → Type
  | cycleLength | confirmBars => { n : UInt64 // n.toNat < 2 ^ 63 }
  | envelopePct | minSpaceFrac | riskPct | maxRiskPct => { x : Float // x.isFinite = true }
  | smallSize => SmallSize

/-- A count that a signed integer of the same size can hold. -/
def count (n : { n : UInt64 // n.toNat < 2 ^ 63 }) : Scalar :=
  .integer n.1.toNat (le_trans (by decide) (Int.natCast_nonneg _))
    (Int.le_of_lt_add_one (Int.ofNat_lt.2 n.2))

def scalar : (f : Setting) → f.Value → Scalar
  | cycleLength, n | confirmBars, n => count n
  | envelopePct, x | minSpaceFrac, x | riskPct, x | maxRiskPct, x => .real x.1 x.2
  | smallSize, p => .string p.key

end Setting

namespace Settings

/-- Settings that are given, each with its value. -/
abbrev Given := List (Σ f : Setting, f.Value)

/-- The settings that are given, and standard ones for those that are not. -/
def ofGiven (given : Given) : Settings where
  cycleLength := (given.dlookup .cycleLength).elim standard.cycleLength Subtype.val
  envelopePct := (given.dlookup .envelopePct).elim standard.envelopePct Subtype.val
  confirmBars := (given.dlookup .confirmBars).elim standard.confirmBars Subtype.val
  minSpaceFrac := (given.dlookup .minSpaceFrac).elim standard.minSpaceFrac Subtype.val
  riskPct := (given.dlookup .riskPct).elim standard.riskPct Subtype.val
  maxRiskPct := (given.dlookup .maxRiskPct).elim standard.maxRiskPct Subtype.val
  smallSize := (given.dlookup .smallSize).elim standard.smallSize id

def entries (given : Given) : List (String × Scalar) :=
  given.map fun g => (g.1.key, g.1.scalar g.2)

theorem nodup_map_fst_entries {given : Given} (h : given.NodupKeys) :
    ((entries given).map Prod.fst).Nodup := by
  rw [entries, List.map_map]
  have hkeys := List.Nodup.map Setting.key_injective h
  rwa [List.keys, List.map_map] at hkeys

theorem key_mem_keys (f : Setting) : f.key ∈ keys := by
  cases f <;> decide

section Slots

variable {σ : Type}

/-- A kind of document in which values that are written are read as what they are. -/
structure ReadsScalars (write : Scalar → σ) (count? : σ → Option UInt64) (real? : σ → Option Float)
    (small? : σ → Option SmallSize) : Prop where
  count? : ∀ n, count? (write (Setting.count n)) = some n.1
  real? : ∀ x : { x : Float // x.isFinite = true }, real? (write (.real x.1 x.2)) = some x.1
  small? : ∀ p : SmallSize, small? (write (.string p.key)) = some p

variable (write : Scalar → σ)

theorem lookup_entries (given : Given) (f : Setting) :
    ((entries given).map fun e => (e.1, write e.2)).lookup f.key =
      (given.dlookup f).map fun v => write (f.scalar v) := by
  induction given with
  | nil => rfl
  | cons g given ih =>
    obtain ⟨f', v⟩ := g
    rw [entries, List.map_cons, List.map_cons, List.lookup_cons]
    by_cases heq : f = f'
    · subst heq
      rw [beq_self_eq_true, List.dlookup_cons_eq]
      rfl
    · have hkey : f.key ≠ f'.key := fun h => heq (Setting.key_injective h)
      rw [beq_false_of_ne hkey, List.dlookup_cons_ne given ⟨f', v⟩ heq]
      exact ih

theorem orDefault_map {α β : Type} {default : β} {read : σ → Option β} {writeValue : α → σ}
    {value : α → β} (h : ∀ a, read (writeValue a) = some (value a)) (o : Option α) :
    orDefault default read (o.map writeValue) = some (o.elim default value) := by
  cases o with
  | none => rfl
  | some a => exact h a

theorem ofSlots?_lookup {count? : σ → Option UInt64} {real? : σ → Option Float}
    {small? : σ → Option SmallSize} (hreads : ReadsScalars write count? real? small?)
    (given : Given) :
    ofSlots? count? real? small? (keys.map fun name =>
      ((entries given).map fun e => (e.1, write e.2)).lookup name) = some (ofGiven given) := by
  simp only [keys, Setting.all, List.map_cons, List.map_nil, lookup_entries, Setting.scalar,
    ofSlots?, orDefault_map hreads.count?, orDefault_map hreads.real?, orDefault_map hreads.small?,
    Option.bind_eq_bind, Option.bind_some]
  rfl

theorem settings_of_nodupKeys {count? : σ → Option UInt64} {real? : σ → Option Float}
    {small? : σ → Option SmallSize} (hreads : ReadsScalars write count? real? small?)
    {given : Given} (h : given.NodupKeys) :
    (slots? true keys ((entries given).map fun e => (e.1, write e.2))).bind
      (ofSlots? count? real? small?) = some (ofGiven given) := by
  rw [Json.slots?_of_nodup, Option.bind_some, ofSlots?_lookup write hreads]
  · intro m hm
    obtain ⟨e, he, rfl⟩ := List.mem_map.1 hm
    obtain ⟨g, -, rfl⟩ := List.mem_map.1 he
    exact key_mem_keys g.1
  · rw [List.map_map]
    exact nodup_map_fst_entries h

end Slots

section Documents

def jsonText (entries : List (String × Scalar)) : String :=
  (Json.ofFields (entries.map fun e => (e.1, e.2.json))).text

theorem readsScalars_json :
    ReadsScalars Scalar.json Json.count? Json.price? SmallSize.ofJson? where
  count? n := by
    have hnonneg : ¬ ((n.1.toNat : Int) < 0) := by omega
    rw [Setting.count, Scalar.json, decide_eq_false hnonneg, Int.natAbs_natCast]
    exact Decimal.Numeral.toCount?_ofNat n.1
  real? x := Json.ReadsBack.price.read?_write x.2
  small? p := SmallSize.readsBack.read?_write trivial

theorem readsScalars_toml :
    ReadsScalars Scalar.value Toml.count? Toml.number? Toml.smallSize? where
  count? n := by
    have hsize := n.1.toNat_lt
    rw [Setting.count, Scalar.value, Toml.count?, Int.toNat_natCast, UInt64.ofNat_toNat]
    exact if_pos ⟨Int.natCast_nonneg _, hsize⟩
  real? _ := rfl
  small? p := SmallSize.ofKey?_key p

theorem fromText?_jsonText (entries : List (String × Scalar)) :
    Json.fromText? ofJson? (jsonText entries) =
      (slots? true keys (entries.map fun e => (e.1, e.2.json))).bind
        (ofSlots? Json.count? Json.price? SmallSize.ofJson?) := by
  have hwritten : (Json.ofFields (entries.map fun e => (e.1, e.2.json))).IsWritten := by
    apply Json.isWritten_ofFields
    intro f hf
    obtain ⟨e, -, rfl⟩ := List.mem_map.1 hf
    exact e.2.isWritten_json
  rw [Json.fromText?, jsonText, Json.ofText?_text hwritten, Option.bind_some, ofJson?,
    Json.closedSlots?_ofFields_eq]
  rfl

theorem ofDocument_documentText (entries : List (String × Scalar)) :
    ofDocument (Toml.documentText entries) =
      match (slots? true keys (Toml.members entries)).bind
        (ofSlots? Toml.count? Toml.number? Toml.smallSize?) with
      | none => .error .malformed
      | some s => s.checked := by
  rw [ofDocument, Toml.ofText?_documentText]
  by_cases hnodup : (entries.map Prod.fst).Nodup
  · rw [if_pos hnodup]
    rfl
  · rw [if_neg hnodup, Json.slots?_eq_none (.inr (by rwa [Toml.map_fst_members]))]
    rfl

theorem checked_of_isWithin {s : Settings} (h : ∀ f, s.IsWithin f) : s.checked = .ok s := by
  rw [checked, s.fault?_eq_none_iff.2 fun f => (s.isInRange_iff f).2 (h f)]

theorem checked_of_isFirstFault {s : Settings} {f : SettingsFault} (h : s.IsFirstFault f) :
    s.checked = .error (.faulty f) := by
  rw [checked, (s.fault?_eq_some_iff f).2 h]

end Documents

/-- Both kinds of documents that give some settings are read as these settings and standard ones,
and those from TOML are then checked: sound ones are what is read, and others are an error that says
which is the first one out of range. With a name that is not one of a setting, or with one that
comes again, neither document is read, whatever the values are. -/
theorem readers_agree :
    (∀ given : Given, given.NodupKeys →
      Json.fromText? ofJson? (jsonText (entries given)) = some (ofGiven given) ∧
      ((∀ f, (ofGiven given).IsWithin f) →
        ofDocument (Toml.documentText (entries given)) = .ok (ofGiven given)) ∧
      ∀ f, (ofGiven given).IsFirstFault f →
        ofDocument (Toml.documentText (entries given)) = .error (.faulty f)) ∧
    ∀ entries : List (String × Scalar),
      ((∃ e ∈ entries, ∀ f : Setting, e.1 ≠ f.key) ∨ ¬ (entries.map Prod.fst).Nodup) →
        Json.fromText? ofJson? (jsonText entries) = none ∧
          ofDocument (Toml.documentText entries) = .error .malformed := by
  constructor
  · intro given h
    have hdocument : ofDocument (Toml.documentText (entries given)) = (ofGiven given).checked := by
      rw [ofDocument_documentText, Toml.members, settings_of_nodupKeys _ readsScalars_toml h]
    rw [fromText?_jsonText, settings_of_nodupKeys _ readsScalars_json h, hdocument]
    exact ⟨rfl, checked_of_isWithin, fun f => checked_of_isFirstFault⟩
  · intro entries h
    have hslots {σ : Type} (write : Scalar → σ) :
        slots? true keys (entries.map fun e => (e.1, write e.2)) = none := by
      apply Json.slots?_eq_none
      rcases h with ⟨e, he, hnot⟩ | hagain
      · refine .inl ⟨_, List.mem_map_of_mem he, fun hkey => ?_⟩
        obtain ⟨f, -, hf⟩ := List.mem_map.1 hkey
        exact hnot f hf.symm
      · right
        rw [List.map_map]
        exact hagain
    rw [fromText?_jsonText, hslots, ofDocument_documentText, Toml.members, hslots]
    exact ⟨rfl, rfl⟩

/-- Three settings out of order, two that are out of range, of which the first one counts, a name
with a blank in it, and a name that comes again. -/
theorem readers_agree_partial :
    let given : Given :=
      [⟨.riskPct, ⟨0.1, by decide⟩⟩, ⟨.cycleLength, ⟨20, by decide⟩⟩, ⟨.smallSize, .skip⟩]
    let faulty : Given := [⟨.maxRiskPct, ⟨0.0, by decide⟩⟩, ⟨.envelopePct, ⟨100.0, by decide⟩⟩]
    let unknown : List (String × Scalar) :=
      [("risk_pct", .string "high"), ("risk pct", .boolean true)]
    let again : List (String × Scalar) :=
      [("risk_pct", .real 0.1 (by decide)), ("risk_pct", .string "")]
    (Toml.documentText (entries given) =
        "risk_pct = 0.1\ncycle_length = 20\nmin_size_policy = \"skip\"\n" ∧
      given.NodupKeys ∧ (∀ f, (ofGiven given).IsWithin f) ∧
      faulty.NodupKeys ∧ (ofGiven faulty).IsFirstFault .envelopePct ∧
      (∃ e ∈ unknown, ∀ f : Setting, e.1 ≠ f.key) ∧ ¬ (again.map Prod.fst).Nodup) ∧
    (∃ s, Json.fromText? ofJson? (jsonText (entries given)) = some s ∧
      ofDocument (Toml.documentText (entries given)) = .ok s) ∧
    ofDocument (Toml.documentText (entries faulty)) = .error (.faulty .envelopePct) ∧
    ofDocument (Toml.documentText unknown) = .error .malformed ∧
    Json.fromText? ofJson? (jsonText again) = none := by
  intro given faulty unknown again
  have hgiven : given.NodupKeys := by
    change given.keys.Nodup
    decide
  have hfaulty : faulty.NodupKeys := by
    change faulty.keys.Nodup
    decide
  have hwithin : ∀ f, (ofGiven given).IsWithin f := fun f =>
    (isInRange_iff _ f).1 (by cases f <;> decide +kernel)
  have hfirst : (ofGiven faulty).IsFirstFault .envelopePct :=
    (fault?_eq_some_iff _ _).1 (by decide +kernel)
  have hunknown : ∃ e ∈ unknown, ∀ f : Setting, e.1 ≠ f.key :=
    ⟨("risk pct", .boolean true), by simp [unknown], fun f => by cases f <;> decide⟩
  have hagain : ¬ (again.map Prod.fst).Nodup := by decide
  obtain ⟨hagree, hrefuse⟩ := readers_agree
  obtain ⟨hjson, htoml, -⟩ := hagree given hgiven
  exact ⟨⟨by decide +kernel, hgiven, hwithin, hfaulty, hfirst, hunknown, hagain⟩,
    ⟨_, hjson, htoml hwithin⟩, (hagree faulty hfaulty).2.2 _ hfirst,
    (hrefuse unknown (.inl hunknown)).2, (hrefuse again (.inr hagain)).1⟩

end Settings

end TroughTrader
