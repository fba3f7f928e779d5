import Mathlib.Data.List.Induction
import TroughTrader.Proofs.Trade.Step

/-!
# The gap between entries

`Strategy.entryIndices` lists the indices of the bars of a run on which a buy was sent. The state
keeps the last of them and nothing else touches it (`lastEntry_read`). Since a bottom keeps the gap
to the last entry, any two entries of a run keep it, in whatever order the bars are numbered
(`entryIndices_spaced`).
-/

namespace TroughTrader

def IsAfter (gap i j : UInt64) : Prop := i.toNat + gap.toNat < j.toNat

namespace Strategy

def entryIndex? (s : Strategy) : Event → Option UInt64
  | .bar bar account =>
    match (s.readBar bar account).outcome with
    | .entrySubmitted _ _ => some bar.index
    | _ => none
  | .report _ => none

/-- The indices of the bars of a run on which a buy was sent, in order. -/
def entryIndices (s : Strategy) : List Event → List UInt64
  | [] => []
  | e :: events => (s.entryIndex? e).toList ++ (s.read e).entryIndices events

theorem entryIndices_concat (s : Strategy) (events : List Event) (e : Event) :
    s.entryIndices (events ++ [e]) =
      s.entryIndices events ++ ((s.readAll events).entryIndex? e).toList := by
  induction events generalizing s with
  | nil => simp [entryIndices, readAll]
  | cons x events ih =>
    rw [List.cons_append, entryIndices, entryIndices, ih, List.append_assoc]
    rfl

end Strategy

theorem BarMove.lastEntry_cases {s : Strategy} {bar : Bar} {account : Account}
    {decision : Decision} {after : State} (move : BarMove s bar account decision after) :
    (∀ order size, decision.outcome ≠ .entrySubmitted order size) ∧
        after.lastEntry = s.state.lastEntry ∨
      (∃ order size, decision.outcome = .entrySubmitted order size) ∧
        after.lastEntry = some bar.index ∧ ∃ bottom, s.bottomOn? bar = some bottom := by
  cases move with
  | idle idle =>
    refine Or.inl ⟨?_, rfl⟩
    rintro order size rfl
    cases idle
  | enter _ bottomOn _ => exact Or.inr ⟨⟨_, _, rfl⟩, rfl, _, bottomOn⟩
  | exit _ _ => exact Or.inl ⟨fun _ _ h => (by cases h), rfl⟩
  | lost _ _ outcome_eq =>
    refine Or.inl ⟨?_, rfl⟩
    rintro order size h
    rcases outcome_eq with rfl | rfl <;> cases h
  | reenter _ _ bottomOn _ => exact Or.inr ⟨⟨_, _, rfl⟩, rfl, _, bottomOn⟩

theorem ReportMove.lastEntry_after {s : Strategy} {report : OrderReport}
    {transitions : List Transition} {after : State}
    (move : ReportMove s report transitions after) : after.lastEntry = s.state.lastEntry := by
  cases move <;> rfl

namespace Strategy

theorem lastEntry_read (s : Strategy) (e : Event) :
    (s.read e).state.lastEntry = (s.entryIndex? e).or s.state.lastEntry ∧
      ∀ i ∈ s.entryIndex? e, ∀ last ∈ s.state.lastEntry, IsAfter s.settings.minGap last i := by
  cases e with
  | report report =>
    refine ⟨(s.reportMove report).lastEntry_after, ?_⟩
    intro i hi
    cases hi
  | bar bar account =>
    rw [entryIndex?, (s.readBar_eq_decisionOn bar account).1]
    obtain ⟨hno, hkeep⟩ | ⟨⟨order, size, hsent⟩, hnew, bottom, hb⟩ :=
      (s.barMove bar account).lastEntry_cases
    · split
      · exact absurd ‹_› (hno _ _)
      · exact ⟨hkeep, by simp⟩
    · rw [hsent]
      refine ⟨hnew, ?_⟩
      intro i hi last hlast
      cases hi
      have hspaced := BottomRule.isSpaced_of_bottom? hb
      rw [Option.mem_def.1 hlast] at hspaced
      simp only [BottomRule.isSpaced, decide_eq_true_eq] at hspaced
      exact hspaced

end Strategy

theorem pairwise_isAfter_concat {gap k : UInt64} {indices : List UInt64}
    (hp : indices.Pairwise (IsAfter gap)) (hk : ∀ last ∈ indices.getLast?, IsAfter gap last k) :
    (indices ++ [k]).Pairwise (IsAfter gap) := by
  rcases List.eq_nil_or_concat indices with rfl | ⟨front, last, rfl⟩
  · simp
  · rw [List.concat_eq_append] at hp hk ⊢
    have hlast : IsAfter gap last k := hk last (by simp)
    refine List.pairwise_append.2 ⟨hp, List.pairwise_singleton _ _, ?_⟩
    intro i hi j hj
    rw [List.mem_singleton.1 hj]
    rcases List.mem_append.1 hi with hfront | hend
    · have hi' : IsAfter gap i last := (List.pairwise_append.1 hp).2.2 i hfront last (by simp)
      unfold IsAfter at *
      omega
    · rwa [List.mem_singleton.1 hend]

namespace Strategy

/-- Any two entries of a run are more than the gap apart, and the state keeps the last one. -/
theorem entryIndices_spaced (settings : SoundSettings) (sizer : Sizer) (events : List Event) :
    ((start settings sizer).entryIndices events).Pairwise
        (fun i j => i.toNat + settings.minGap.toNat < j.toNat) ∧
      ((start settings sizer).readAll events).state.lastEntry =
        ((start settings sizer).entryIndices events).getLast? := by
  induction events using List.reverseRecOn with
  | nil => exact ⟨List.Pairwise.nil, rfl⟩
  | append_singleton events e ih =>
    obtain ⟨hpair, hlast⟩ := ih
    have hread := ((start settings sizer).readAll events).lastEntry_read e
    rw [settings_readAll, hlast] at hread
    rw [entryIndices_concat, readAll_append]
    refine ⟨?_, hread.1.trans ?_⟩
    · cases he : ((start settings sizer).readAll events).entryIndex? e with
      | none => simpa using hpair
      | some k => exact pairwise_isAfter_concat hpair (hread.2 k he)
    · cases ((start settings sizer).readAll events).entryIndex? e <;> simp

end Strategy
end TroughTrader
