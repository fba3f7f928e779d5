import TroughTrader.Proofs.Trade.Broker
import TroughTrader.Proofs.Trade.Flight

/-!
# A strategy and its broker

A desk is a strategy together with the broker it trades at. `Desk.Step` is one thing that happens
there: a bar is read, an order is executed in part, a report is sent, or one that was sent is read.
Nothing orders the reading of reports, so every delay, repetition and change of order is a run of
steps. `Desk.agrees_of_reachable` says that strategy and broker never disagree about the position.
-/

namespace TroughTrader

def Sizer.fixed (size : UInt64) : Sizer := ⟨"fixed", fun _ _ _ => size⟩

structure Desk where
  strategy : Strategy
  broker : Broker

namespace Desk

def start (settings : SoundSettings) (sizer : Sizer) : Desk := ⟨.start settings sizer, .initial⟩

def bar (d : Desk) (bar : Bar) (cash : Float) (next : OrderId) : Desk :=
  let result := d.strategy.readBar bar (d.broker.account cash next)
  ⟨result.strategy, d.broker.place next result.orders⟩

def fill (d : Desk) (id : OrderId) (p : Placed) (units : Nat) : Desk :=
  { d with broker := d.broker.fill id p units }

def tell (d : Desk) (report : OrderReport) (p : Placed) : Desk :=
  { d with broker := d.broker.tell report p }

def deliver (d : Desk) (report : OrderReport) : Desk :=
  { d with strategy := d.strategy.readReport report }

/-- One thing that happens: identifiers are fresh, open orders alone are executed, up to their size,
and only true reports are sent. -/
inductive Step : Desk → Desk → Prop
  | bar {d : Desk} (bar : Bar) (cash : Float) (next : OrderId)
      (fresh : (d.strategy.readBar bar (d.broker.account cash next)).orders ≠ [] →
        d.broker.book next = none) :
      Step d (d.bar bar cash next)
  | fill {d : Desk} (id : OrderId) (p : Placed) (units : Nat)
      (placed : d.broker.book id = some p) (hopen : p.ended = false)
      (fits : p.filled + units ≤ p.size.toNat) :
      Step d (d.fill id p units)
  | tell {d : Desk} (report : OrderReport) (p : Placed)
      (placed : d.broker.book report.order = some p) (true_report : p.IsTold report) :
      Step d (d.tell report p)
  | deliver {d : Desk} (report : OrderReport) (sent : report ∈ d.broker.sent) :
      Step d (d.deliver report)

/-- The desks that any number of steps lead to. -/
inductive Reachable (settings : SoundSettings) (sizer : Sizer) : Desk → Prop
  | start : Reachable settings sizer (start settings sizer)
  | step {d d' : Desk} : Reachable settings sizer d → Step d d' → Reachable settings sizer d'

theorem Step.sound {d d' : Desk} (step : Step d d')
    (h : d.broker.Sound d.strategy.state.phase) : d'.broker.Sound d'.strategy.state.phase := by
  cases step with
  | bar bar cash next fresh =>
    rw [(d.strategy.readBar_eq_decisionOn bar _).2.1] at fresh
    rw [Desk.bar, (d.strategy.readBar_eq_decisionOn bar _).2.1]
    exact h.bar (d.strategy.barMove bar _) fresh
  | fill id p units placed hopen fits => exact h.fill placed hopen fits
  | tell report p placed true_report => exact h.tell placed true_report
  | deliver report sent => exact h.deliver sent (d.strategy.reportMove report)

theorem Reachable.sound {settings : SoundSettings} {sizer : Sizer} {d : Desk}
    (h : Reachable settings sizer d) : d.broker.Sound d.strategy.state.phase := by
  induction h with
  | start => exact Broker.sound_initial
  | step _ step ih => exact step.sound ih

end Desk

namespace Broker

theorem Agrees.toNat_position {b : Broker} {phase : Phase} (h : b.Agrees phase) (cash : Float)
    (next : OrderId) : ((b.account cash next).position.toNat : Int) = b.position := by
  have hrange : 0 ≤ b.position ∧ b.position < UInt64.size := by
    cases phase with
    | flat =>
      have hpos : b.position = 0 := h
      exact ⟨by omega, by rw [hpos]; decide⟩
    | pendingEntry id stake =>
      obtain ⟨p, _, _, _, hpos, hle⟩ := h
      have hlt := stake.size.toNat_lt_size
      omega
    | long stake =>
      have hlt := stake.size.toNat_lt_size
      have hpos := h.2
      omega
    | pendingExit id stake =>
      obtain ⟨p, _, _, _, hpos, hle⟩ := h
      have hlt := stake.size.toNat_lt_size
      omega
  have hlt : b.position.toNat < UInt64.size := by omega
  rw [account, UInt64.toNat_ofNat_of_lt' hlt]
  exact Int.toNat_of_nonneg hrange.1

theorem Sound.outcome_ne_reconciled {b : Broker} {s : Strategy} (h : b.Sound s.state.phase)
    (bar : Bar) (cash : Float) (next : OrderId) :
    (s.readBar bar (b.account cash next)).outcome ≠ .reconciled := by
  intro he
  rw [(s.readBar_eq_decisionOn bar _).1] at he
  obtain ⟨after, move⟩ := s.exists_barMove bar (b.account cash next)
  generalize s.decisionOn bar (b.account cash next) = decision at he move
  cases move with
  | idle idle =>
    cases he
    cases idle
  | enter _ _ _ => cases he
  | exit _ _ => cases he
  | lost long gone _ => exact (h.long_position long cash next).2 gone
  | reenter long gone _ _ => exact (h.long_position long cash next).2 gone

end Broker

namespace Desk

/-- However late, mixed up and repeated the reports are read, the position is what the phase says:
the recorded size when no order is in flight, at most the ordered size during a buy, and during a
sell of the recorded size what is left of it. So no bar finds the position gone. -/
theorem agrees_of_reachable {settings : SoundSettings} {sizer : Sizer} {d : Desk}
    (h : Reachable settings sizer d) :
    d.broker.Agrees d.strategy.state.phase ∧
      ∀ bar cash next, ((d.broker.account cash next).position.toNat : Int) = d.broker.position ∧
        (d.strategy.readBar bar (d.broker.account cash next)).outcome ≠ .reconciled :=
  ⟨h.sound.agrees, fun bar cash next =>
    ⟨h.sound.agrees.toNat_position cash next, h.sound.outcome_ne_reconciled bar cash next⟩⟩

/-- A buy of five, of which three are executed before it is cancelled. Both reports are still to be
read. -/
def cancelledBuy : Desk :=
  let ordered := (((start .brief (.fixed 5)).bar (.quote 0 90 100) 0 ⟨1⟩).bar
    (.quote 1 90 100) 0 ⟨1⟩).bar (.quote 2 90 101) 0 ⟨1⟩
  let filled := ordered.fill ⟨1⟩ ⟨.buy, 5, 0, false⟩ 3
  (filled.tell ⟨⟨1⟩, .partiallyFilled, none, 3⟩ ⟨.buy, 5, 3, false⟩).tell
    ⟨⟨1⟩, .cancelled, none, 3⟩ ⟨.buy, 5, 3, false⟩

/-- The later report is read first and again at the end, and the three are being sold. -/
def openSell : Desk :=
  let long := (cancelledBuy.deliver ⟨⟨1⟩, .cancelled, none, 3⟩).deliver
    ⟨⟨1⟩, .partiallyFilled, none, 3⟩
  let selling := (long.bar (.quote 3 90 95) 0 ⟨2⟩).fill ⟨2⟩ ⟨.sell, 3, 0, false⟩ 2
  selling.deliver ⟨⟨1⟩, .cancelled, none, 3⟩

theorem reachable_cancelledBuy : Reachable .brief (.fixed 5) cancelledBuy := by
  have started : Reachable .brief (.fixed 5) (start .brief (.fixed 5)) := .start
  have ordered := ((started.step (.bar (.quote 0 90 100) 0 ⟨1⟩ (by decide +kernel))).step
    (.bar (.quote 1 90 100) 0 ⟨1⟩ (by decide +kernel))).step
    (.bar (.quote 2 90 101) 0 ⟨1⟩ (by decide +kernel))
  have filled := ordered.step
    (.fill ⟨1⟩ ⟨.buy, 5, 0, false⟩ 3 (by decide +kernel) rfl (by decide))
  have told := filled.step (.tell ⟨⟨1⟩, .partiallyFilled, none, 3⟩ ⟨.buy, 5, 3, false⟩
    (by decide +kernel) ⟨Or.inl rfl, nofun⟩)
  exact told.step (.tell ⟨⟨1⟩, .cancelled, none, 3⟩ ⟨.buy, 5, 3, false⟩ (by decide +kernel)
    ⟨Or.inl rfl, nofun⟩)

theorem reachable_openSell : Reachable .brief (.fixed 5) openSell := by
  have bought := reachable_cancelledBuy.step
    (.deliver ⟨⟨1⟩, .cancelled, none, 3⟩ (List.mem_cons_self ..))
  have late := bought.step
    (.deliver ⟨⟨1⟩, .partiallyFilled, none, 3⟩ (List.mem_cons_of_mem _ (List.mem_cons_self ..)))
  have sent := late.step (.bar (.quote 3 90 95) 0 ⟨2⟩ (by decide +kernel))
  have filled := sent.step
    (.fill ⟨2⟩ ⟨.sell, 3, 0, false⟩ 2 (by decide +kernel) rfl (by decide))
  exact filled.step (.deliver ⟨⟨1⟩, .cancelled, none, 3⟩ (List.mem_cons_self ..))

theorem agrees_of_reachable_openSell :
    Reachable .brief (.fixed 5) openSell ∧
      openSell.broker.Agrees openSell.strategy.state.phase ∧
      openSell.strategy.state.phase.stage = .pendingExit ∧ openSell.broker.position = 1 := by
  refine ⟨reachable_openSell, (agrees_of_reachable reachable_openSell).1, ?_, ?_⟩
  · decide +kernel
  · decide +kernel

end Desk
end TroughTrader
