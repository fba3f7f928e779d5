import Mathlib.Data.List.Induction
import TroughTrader.Proofs.Trade.Step

/-!
# Orders in flight

`Strategy.lastOrder?` finds the last order of a run together with what was read after it, from the
events alone. `Strategy.inFlight?` is that order as long as no report has closed it, and
`order?_readAll` says that the phase shows just this order, whatever the broker answers. An order is
sent only while none is in flight, and never for nothing (`BarMove.sent_cases`). While one is in
flight, nothing but the report that closes it changes the state (`state_readAll_of_order?`).
-/

namespace TroughTrader

def Event.closes (id : OrderId) : Event → Bool
  | .bar _ _ => false
  | .report told => told.order = id && !told.status.isOpen

namespace Strategy

def sent? (s : Strategy) : Event → Option OrderId
  | .bar bar account => if (s.readBar bar account).orders = [] then none else some account.nextOrder
  | .report _ => none

/-- The identifier of the last order of a run, and what was read after it. -/
def lastOrder? (s : Strategy) : List Event → Option (OrderId × List Event)
  | [] => none
  | e :: events =>
    match (s.read e).lastOrder? events with
    | some last => some last
    | none => (s.sent? e).map fun id => (id, events)

/-- The last order of a run, unless a report after it closed it. -/
def inFlight? (s : Strategy) (events : List Event) : Option OrderId :=
  (s.lastOrder? events).bind fun (id, since) => if since.any (·.closes id) then none else some id

theorem lastOrder?_concat (s : Strategy) (events : List Event) (e : Event) :
    s.lastOrder? (events ++ [e]) =
      match (s.readAll events).sent? e with
      | some id => some (id, [])
      | none => (s.lastOrder? events).map fun (id, since) => (id, since ++ [e]) := by
  induction events generalizing s with
  | nil => cases h : s.sent? e <;> simp [lastOrder?, readAll, h]
  | cons x events ih =>
    have hr : s.readAll (x :: events) = (s.read x).readAll events := rfl
    rw [List.cons_append, lastOrder?, ih, hr]
    cases ((s.read x).readAll events).sent? e with
    | some id => rfl
    | none =>
      rw [lastOrder?]
      cases (s.read x).lastOrder? events with
      | some last => rfl
      | none => cases s.sent? x <;> rfl

theorem inFlight?_concat (s : Strategy) (events : List Event) (e : Event) :
    s.inFlight? (events ++ [e]) =
      match (s.readAll events).sent? e with
      | some id => some id
      | none => (s.inFlight? events).bind fun id => if e.closes id then none else some id := by
  rw [inFlight?, lastOrder?_concat]
  cases (s.readAll events).sent? e with
  | some id => rfl
  | none =>
    rw [inFlight?]
    cases s.lastOrder? events with
    | none => rfl
    | some last =>
      obtain ⟨id, since⟩ := last
      simp only [Option.map_some, Option.bind_some, List.any_append, List.any_cons, List.any_nil,
        Bool.or_false]
      cases since.any (·.closes id) <;> rfl

end Strategy

/-- A bar sends nothing and keeps or gives up what is held, or it sends one order for at least one
unit while none is in flight, and the phase shows it. -/
theorem BarMove.sent_cases {s : Strategy} {bar : Bar} {account : Account} {decision : Decision}
    {after : State} (move : BarMove s bar account decision after) :
    decision.orders = [] ∧ after.phase.order? = s.state.phase.order? ∨
      ∃ order : OrderRequest, decision.orders = [order] ∧ 0 < order.size ∧
        s.state.phase.order? = none ∧ after.phase.order? = some account.nextOrder := by
  cases move with
  | idle _ => exact Or.inl ⟨rfl, rfl⟩
  | enter flat _ size_ne =>
    refine Or.inr ⟨_, rfl, UInt64.pos_iff_ne_zero.2 size_ne, ?_, rfl⟩
    rw [flat, Phase.order?]
  | exit long held =>
    refine Or.inr ⟨_, rfl, UInt64.pos_iff_ne_zero.2 held, ?_, rfl⟩
    rw [long, Phase.order?]
  | lost long _ _ =>
    refine Or.inl ⟨rfl, ?_⟩
    rw [long, Phase.order?, Phase.order?]
  | reenter long _ _ size_ne =>
    refine Or.inr ⟨_, rfl, UInt64.pos_iff_ne_zero.2 size_ne, ?_, rfl⟩
    rw [long, Phase.order?]

theorem ReportMove.order?_after {s : Strategy} {report : OrderReport}
    {transitions : List Transition} {after : State}
    (move : ReportMove s report transitions after) :
    after.phase.order? = s.state.phase.order?.bind fun id =>
      if (Event.report report).closes id then none else some id := by
  cases move with
  | ignored other =>
    cases hp : s.state.phase.order? with
    | none => rfl
    | some id =>
      have hc : (Event.report report).closes id = false := by
        rw [hp] at other
        simp only [Event.closes, Bool.and_eq_false_iff]
        grind
      simp [hc]
  | bought pending closed _ => simp [pending, Phase.order?, Event.closes, closed]
  | buyFailed pending closed _ => simp [pending, Phase.order?, Event.closes, closed]
  | sold pending closed _ => simp [pending, Phase.order?, Event.closes, closed]
  | sellFailed pending closed _ => simp [pending, Phase.order?, Event.closes, closed]

theorem BarMove.eq_of_order? {s : Strategy} {bar : Bar} {account : Account} {decision : Decision}
    {after : State} (move : BarMove s bar account decision after) {id : OrderId}
    (pending : s.state.phase.order? = some id) : after = s.state := by
  cases move with
  | idle _ => rfl
  | enter flat _ _ => rw [flat] at pending; cases pending
  | exit long _ => rw [long] at pending; cases pending
  | lost long _ _ => rw [long] at pending; cases pending
  | reenter long _ _ _ => rw [long] at pending; cases pending

theorem ReportMove.eq_or_closes {s : Strategy} {report : OrderReport}
    {transitions : List Transition} {after : State}
    (move : ReportMove s report transitions after) :
    after = s.state ∨
      ∃ id, s.state.phase.order? = some id ∧ (Event.report report).closes id = true := by
  cases move with
  | ignored _ => exact Or.inl rfl
  | bought pending closed _ =>
    exact Or.inr ⟨_, by rw [pending, Phase.order?], by simp [Event.closes, closed]⟩
  | buyFailed pending closed _ =>
    exact Or.inr ⟨_, by rw [pending, Phase.order?], by simp [Event.closes, closed]⟩
  | sold pending closed _ =>
    exact Or.inr ⟨_, by rw [pending, Phase.order?], by simp [Event.closes, closed]⟩
  | sellFailed pending closed _ =>
    exact Or.inr ⟨_, by rw [pending, Phase.order?], by simp [Event.closes, closed]⟩

namespace Strategy

theorem state_read_of_order? (s : Strategy) {e : Event} {id : OrderId}
    (pending : s.state.phase.order? = some id) (other : e.closes id = false) :
    (s.read e).state = s.state := by
  cases e with
  | bar bar account => exact (s.barMove bar account).eq_of_order? pending
  | report report =>
    rcases (s.reportMove report).eq_or_closes with heq | ⟨id', pending', hcloses⟩
    · exact heq
    · rw [pending] at pending'
      cases pending'
      rw [other] at hcloses
      cases hcloses

theorem state_readAll_of_order? (s : Strategy) {events : List Event} {id : OrderId}
    (pending : s.state.phase.order? = some id) (others : ∀ e ∈ events, e.closes id = false) :
    (s.readAll events).state = s.state := by
  induction events generalizing s with
  | nil => rfl
  | cons e events ih =>
    have hread := s.state_read_of_order? pending (others e List.mem_cons_self)
    have hrest := ih (s.read e) (by rwa [hread]) fun e' he' => others e' (List.mem_cons_of_mem _ he')
    exact hrest.trans hread

theorem order?_read (s : Strategy) (e : Event) :
    (s.read e).state.phase.order? =
      match s.sent? e with
      | some id => some id
      | none => s.state.phase.order?.bind fun id => if e.closes id then none else some id := by
  cases e with
  | report report => exact (s.reportMove report).order?_after
  | bar bar account =>
    rw [sent?, (s.readBar_eq_decisionOn bar account).2.1]
    rcases (s.barMove bar account).sent_cases with ⟨hnil, hkeep⟩ | ⟨order, hone, _, _, hnew⟩
    · rw [if_pos hnil, read, hkeep]
      simp [Event.closes]
    · rw [if_neg (by simp [hone]), read, hnew]

theorem order?_readAll (settings : SoundSettings) (sizer : Sizer) (events : List Event) :
    ((start settings sizer).readAll events).state.phase.order? =
      (start settings sizer).inFlight? events := by
  induction events using List.reverseRecOn with
  | nil => rfl
  | append_singleton events e ih =>
    rw [readAll_append, inFlight?_concat, ← ih]
    exact order?_read _ e

theorem orders_cons (s : Strategy) (e : Event) (events : List Event) :
    s.orders (e :: events) = s.orders [e] ++ (s.read e).orders events := by
  simp [orders, results]

theorem orders_singleton_bar (s : Strategy) (bar : Bar) (account : Account) :
    s.orders [.bar bar account] = (s.decisionOn bar account).orders := by
  rw [← (s.readBar_eq_decisionOn bar account).2.1]
  simp [orders, results, result?]

theorem orders_singleton_cases (s : Strategy) (e : Event) :
    s.orders [e] = [] ∨ ∃ order : OrderRequest, s.orders [e] = [order] ∧ 0 < order.size ∧
      s.state.phase.order? = none := by
  cases e with
  | report report => exact Or.inl rfl
  | bar bar account =>
    rw [orders_singleton_bar]
    rcases (s.barMove bar account).sent_cases with ⟨hnil, _⟩ | ⟨order, hone, hpos, hfree, _⟩
    · exact Or.inl hnil
    · exact Or.inr ⟨order, hone, hpos, hfree⟩

theorem sent?_eq_none (s : Strategy) {e : Event} (h : s.orders [e] = []) : s.sent? e = none := by
  cases e with
  | report report => rfl
  | bar bar account =>
    rw [orders_singleton_bar] at h
    rw [sent?, (s.readBar_eq_decisionOn bar account).2.1, if_pos h]

theorem lastOrder?_eq_none (s : Strategy) {events : List Event} (h : s.orders events = []) :
    s.lastOrder? events = none := by
  induction events generalizing s with
  | nil => rfl
  | cons e events ih =>
    rw [orders_cons, List.append_eq_nil_iff] at h
    rw [lastOrder?, ih _ h.2, s.sent?_eq_none h.1]
    rfl

theorem lastOrder?_append (s : Strategy) (before : List Event) {events : List Event}
    {last : OrderId × List Event} (h : (s.readAll before).lastOrder? events = some last) :
    s.lastOrder? (before ++ events) = some last := by
  induction before generalizing s with
  | nil => exact h
  | cons e before ih =>
    rw [List.cons_append, lastOrder?, ih (s.read e) h]

theorem lastOrder?_of_orders_eq_nil (s : Strategy) {before since : List Event} {e : Event}
    {id : OrderId} (hsent : (s.readAll before).sent? e = some id)
    (hnil : (s.readAll (before ++ [e])).orders since = []) :
    s.lastOrder? (before ++ e :: since) = some (id, since) := by
  apply s.lastOrder?_append
  rw [readAll_append] at hnil
  have hlast : ((s.readAll before).read e).lastOrder? since = none := lastOrder?_eq_none _ hnil
  rw [lastOrder?, hlast, hsent]
  rfl

/-- One order is in flight at most, and none is lost. After every run the phase shows the last order
until a report closes it. The next event asks only for transitions that are allowed, and it sends
one order at most, for at least one unit, after a report has closed the order before it. -/
theorem one_order_in_flight (settings : SoundSettings) (sizer : Sizer) (events : List Event)
    (e : Event) :
    let s := start settings sizer
    let now := s.readAll events
    now.state.phase.order? = s.inFlight? events ∧
      (now.transitions e).foldlM State.after? now.state = some (now.read e).state ∧
      (now.orders [e]).length ≤ 1 ∧ (∀ order ∈ now.orders [e], 0 < order.size) ∧
      ∀ before earlier id between, events = before ++ earlier :: between →
        (s.readAll before).sent? earlier = some id →
        (s.readAll (before ++ [earlier])).orders between = [] →
        now.orders [e] ≠ [] → ∃ told ∈ between, told.closes id = true := by
  intro s now
  have hflight : now.state.phase.order? = s.inFlight? events := order?_readAll settings sizer events
  refine ⟨hflight, now.transitions_allowed e, ?_⟩
  rcases now.orders_singleton_cases e with hnil | ⟨order, hone, hpos, hfree⟩
  · rw [hnil]
    exact ⟨by simp, by simp, fun _ _ _ _ _ _ _ h => absurd rfl h⟩
  · rw [hone]
    refine ⟨by simp, by simpa using hpos, ?_⟩
    rintro before earlier id between rfl hsent hnone -
    rw [hfree, inFlight?, s.lastOrder?_of_orders_eq_nil hsent hnone] at hflight
    simpa using hflight

end Strategy

/-- A cycle of two bars, a crossing on the bar itself, and the least gap between entries. -/
def SoundSettings.brief : SoundSettings :=
  ⟨{ Settings.standard with cycleLength := 2, confirmBars := 0, minSpaceFrac := 0.0 },
    (Settings.fault?_eq_none_iff _).1 (by decide +kernel)⟩

def Bar.quote (index : UInt64) (low close : Float) : Bar :=
  ⟨index, ⟨2024, 1, 2, by decide⟩, close, close, low, close⟩

def Account.ofOrder (number : UInt64) : Account := ⟨10000.0, 0, ⟨number⟩⟩

/-- A rejected buy, and a second buy under the identifier of the first one. -/
theorem Strategy.one_order_in_flight_reused_identifier :
    let s := Strategy.start .brief SoundSettings.brief.riskBudget.sizer
    let before : List Event := [.bar (.quote 0 90 100) (.ofOrder 7), .bar (.quote 1 90 100) (.ofOrder 7)]
    let earlier : Event := .bar (.quote 2 90 101) (.ofOrder 7)
    let between : List Event := [.report (.rejected ⟨7⟩), .bar (.quote 3 90 100) (.ofOrder 7)]
    let now := s.readAll (before ++ earlier :: between)
    let e : Event := .bar (.quote 4 90 102) (.ofOrder 7)
    (s.readAll before).sent? earlier = some ⟨7⟩ ∧
      (s.readAll (before ++ [earlier])).orders between = [] ∧ now.orders [e] ≠ [] ∧
      ∃ told ∈ between, told.closes ⟨7⟩ = true := by
  intro s before earlier between now e
  have hsent : (s.readAll before).sent? earlier = some ⟨7⟩ := by decide +kernel
  have hnone : (s.readAll (before ++ [earlier])).orders between = [] := by decide +kernel
  have horder : now.orders [e] ≠ [] := by decide +kernel
  exact ⟨hsent, hnone, horder,
    (Strategy.one_order_in_flight .brief _ (before ++ earlier :: between) e).2.2.2.2
      before earlier ⟨7⟩ between rfl hsent hnone horder⟩

end TroughTrader
