import Mathlib.Logic.Function.Basic
import TroughTrader.Proofs.Trade.Step

/-!
# Trading at a faithful broker

A faithful broker moves its position only by executing the strategy's own orders, says truly how
much of an order was executed, and executes nothing more once it has said that an order is closed.
Its reports wait in `Broker.sent` and may be read late, in any order, more than once or never.
`Broker.Sound` is what ties the phase to the book: orders other than the one in flight are closed,
and the position is what the phase says. A bar, a fill, a report that is sent and one that is read
all keep it (`Sound.bar`, `Sound.fill`, `Sound.tell` and `Sound.deliver`).
-/

namespace TroughTrader

/-- An order in the broker's book: how much of it was executed, and whether the broker has said that
it is closed. -/
structure Placed where
  side : Side
  size : UInt64
  filled : Nat
  ended : Bool
  deriving DecidableEq

namespace Placed

def ofRequest (order : OrderRequest) : Placed := ⟨order.side, order.size, 0, false⟩

def signed (p : Placed) (units : Nat) : Int :=
  match p.side with
  | .buy => units
  | .sell => -units

/-- A report of the size executed so far. A completed order was executed whole, and then the size
may be left out. -/
structure IsTold (p : Placed) (report : OrderReport) : Prop where
  filledSize : report.filledSize.toNat = p.filled ∨
    report.status = .completed ∧ report.filledSize = 0
  completed : report.status = .completed → p.filled = p.size.toNat

theorem IsTold.toNat_filledSize {p : Placed} {report : OrderReport} (h : p.IsTold report)
    (hopen : ¬ (report.status = .completed ∧ report.filledSize = 0)) :
    report.filledSize.toNat = p.filled :=
  h.filledSize.resolve_right hopen

theorem IsTold.toNat_boughtSize {p : Placed} {report : OrderReport} (h : p.IsTold report) :
    (Decision.boughtSize report p.size).toNat = p.filled := by
  rw [Decision.boughtSize]
  split
  next hc => rw [h.completed hc.1]
  next hc => exact h.toNat_filledSize hc

theorem IsTold.toNat_leftSize {p : Placed} {report : OrderReport} (h : p.IsTold report) :
    (Decision.leftSize report p.size).toNat = p.size.toNat - p.filled := by
  rw [Decision.leftSize]
  by_cases hc : report.status = .completed
  · rw [if_pos (Or.inl hc), h.completed hc, Nat.sub_self]
    rfl
  · have hf : report.filledSize.toNat = p.filled := h.toNat_filledSize fun hz => hc hz.1
    by_cases hs : p.size ≤ report.filledSize
    · rw [if_pos (Or.inr hs)]
      rw [UInt64.le_iff_toNat_le, hf] at hs
      exact (Nat.sub_eq_zero_of_le hs).symm
    · rw [if_neg (not_or.2 ⟨hc, hs⟩), UInt64.toNat_sub_of_le _ _ (UInt64.le_of_lt (UInt64.not_le.1 hs)),
        hf]

end Placed

/-- What a broker holds, the orders it was sent, and the reports it has sent. -/
structure Broker where
  position : Int
  book : OrderId → Option Placed
  sent : List OrderReport

namespace Broker

def initial : Broker := ⟨0, fun _ => none, []⟩

def account (b : Broker) (cash : Float) (next : OrderId) : Account :=
  ⟨cash, .ofNat b.position.toNat, next⟩

def place (b : Broker) (next : OrderId) (orders : List OrderRequest) : Broker :=
  let enter book order := Function.update book next (some (.ofRequest order))
  { b with book := orders.foldl enter b.book }

def fill (b : Broker) (id : OrderId) (p : Placed) (units : Nat) : Broker :=
  { b with
    position := b.position + p.signed units
    book := Function.update b.book id (some { p with filled := p.filled + units }) }

def tell (b : Broker) (report : OrderReport) (p : Placed) : Broker :=
  { b with
    book := Function.update b.book report.order
      (some { p with ended := p.ended || !report.status.isOpen })
    sent := report :: b.sent }

/-- The position is what the phase says, and the order in flight is in the book with the recorded
size. -/
def Agrees (b : Broker) : Phase → Prop
  | .flat => b.position = 0
  | .pendingEntry id stake =>
    ∃ p, b.book id = some p ∧ p.side = .buy ∧ p.size = stake.size ∧ b.position = p.filled ∧
      b.position ≤ stake.size.toNat
  | .long stake => stake.size ≠ 0 ∧ b.position = stake.size.toNat
  | .pendingExit id stake =>
    ∃ p, b.book id = some p ∧ p.side = .sell ∧ p.size = stake.size ∧
      b.position = stake.size.toNat - p.filled ∧ 0 ≤ b.position

/-- What ties the phase to the broker's book. -/
structure Sound (b : Broker) (phase : Phase) : Prop where
  agrees : b.Agrees phase
  filled_le : ∀ id p, b.book id = some p → p.filled ≤ p.size.toNat
  ended : ∀ id p, b.book id = some p → phase.order? ≠ some id → p.ended = true
  told : ∀ report ∈ b.sent, ∃ p, b.book report.order = some p ∧
    (report.status.isOpen = false → p.ended = true ∧ p.IsTold report)

theorem sound_initial : initial.Sound .flat := by
  constructor <;> simp [initial, Agrees]

variable {b : Broker} {phase : Phase}

theorem book_update {book : OrderId → Option Placed} {id id' : OrderId} {p p' : Placed}
    (h : Function.update book id (some p) id' = some p') :
    id' = id ∧ p' = p ∨ id' ≠ id ∧ book id' = some p' := by
  by_cases he : id' = id
  · subst he
    rw [Function.update_self] at h
    exact Or.inl ⟨rfl, (Option.some.inj h).symm⟩
  · rw [Function.update_of_ne he] at h
    exact Or.inr ⟨he, h⟩

theorem Sound.order?_of_open (h : b.Sound phase) {id : OrderId} {p : Placed}
    (hb : b.book id = some p) (hopen : p.ended = false) : phase.order? = some id := by
  by_contra hne
  rw [h.ended id p hb hne] at hopen
  cases hopen

theorem Sound.place (h : b.Sound phase) {next : OrderId} {order : OrderRequest} {phase' : Phase}
    (free : phase.order? = none) (fresh : b.book next = none) (sent : phase'.order? = some next)
    (agrees : (b.place next [order]).Agrees phase') : (b.place next [order]).Sound phase' := by
  refine ⟨agrees, ?_, ?_, ?_⟩
  · intro id p hp
    rcases book_update hp with ⟨rfl, rfl⟩ | ⟨_, hb⟩
    · exact Nat.zero_le _
    · exact h.filled_le id p hb
  · intro id p hp hid
    rcases book_update hp with ⟨rfl, rfl⟩ | ⟨_, hb⟩
    · exact absurd sent hid
    · exact h.ended id p hb (by rw [free]; nofun)
  · intro report hr
    obtain ⟨p, hb, hp⟩ := h.told report hr
    have hne : report.order ≠ next := by
      intro he
      rw [he, fresh] at hb
      cases hb
    exact ⟨p, (Function.update_of_ne hne _ _).trans hb, hp⟩

theorem Sound.long_position (h : b.Sound phase) {stake : Stake} (hp : phase = .long stake)
    (cash : Float) (next : OrderId) : (b.account cash next).position = stake.size ∧
      (b.account cash next).position ≠ 0 := by
  subst hp
  obtain ⟨hne, hpos⟩ := h.agrees
  have he : (b.account cash next).position = stake.size := by
    rw [account, hpos, Int.toNat_natCast, UInt64.ofNat_toNat]
  exact ⟨he, he ▸ hne⟩

theorem Sound.bar {s : Strategy} {bar : Bar} {cash : Float} {next : OrderId} {decision : Decision}
    {after : State} (h : b.Sound s.state.phase)
    (move : BarMove s bar (b.account cash next) decision after)
    (fresh : decision.orders ≠ [] → b.book next = none) :
    (b.place next decision.orders).Sound after.phase := by
  cases move with
  | idle _ => exact h
  | enter flat _ _ =>
    rw [flat] at h
    refine h.place rfl (fresh (by simp)) rfl ?_
    have hzero : b.position = 0 := h.agrees
    refine ⟨_, Function.update_self _ _ _, rfl, rfl, hzero, ?_⟩
    change b.position ≤ _
    rw [hzero]
    exact Int.natCast_nonneg _
  | exit long _ =>
    have hpos := (h.long_position long cash next).1
    rw [long] at h
    refine h.place rfl (fresh (by simp [Decision.sell])) rfl ?_
    obtain ⟨_, heq⟩ := h.agrees
    refine ⟨_, Function.update_self _ _ _, rfl, hpos, ?_, ?_⟩
    · simp [Placed.ofRequest, heq, Broker.place]
    · rw [show (b.place next _).position = _ from heq]
      exact Int.natCast_nonneg _
  -- The broker holds what the strategy is long of, so these two moves need a different broker.
  | lost long gone _ => exact absurd gone (h.long_position long cash next).2
  | reenter long gone _ _ => exact absurd gone (h.long_position long cash next).2

/-- A fill of the order in flight moves the position with the executed part of the order. -/
theorem Agrees.fill (h : b.Agrees phase) {id : OrderId} {p : Placed} {units : Nat}
    (hb : b.book id = some p) (pending : phase.order? = some id)
    (fits : p.filled + units ≤ p.size.toNat) : (b.fill id p units).Agrees phase := by
  cases phase with
  | flat => cases pending
  | long stake => cases pending
  | pendingEntry id' stake =>
    cases pending
    obtain ⟨p', hp', hside, hsize, hpos, hle⟩ := h
    obtain rfl : p = p' := Option.some.inj (hb.symm.trans hp')
    refine ⟨_, Function.update_self _ _ _, hside, hsize, ?_, ?_⟩
    all_goals
      simp only [Broker.fill, Placed.signed, hside, hpos, ← hsize]
      omega
  | pendingExit id' stake =>
    cases pending
    obtain ⟨p', hp', hside, hsize, hpos, hle⟩ := h
    obtain rfl : p = p' := Option.some.inj (hb.symm.trans hp')
    refine ⟨_, Function.update_self _ _ _, hside, hsize, ?_, ?_⟩
    all_goals
      simp only [Broker.fill, Placed.signed, hside, hpos, ← hsize]
      omega

theorem Sound.fill (h : b.Sound phase) {id : OrderId} {p : Placed} {units : Nat}
    (hb : b.book id = some p) (hopen : p.ended = false) (fits : p.filled + units ≤ p.size.toNat) :
    (b.fill id p units).Sound phase := by
  have horder := h.order?_of_open hb hopen
  refine ⟨h.agrees.fill hb horder fits, ?_, ?_, ?_⟩
  · intro id' p' hp'
    rcases book_update hp' with ⟨_, rfl⟩ | ⟨_, hb'⟩
    · exact fits
    · exact h.filled_le id' p' hb'
  · intro id' p' hp' hid
    rcases book_update hp' with ⟨rfl, _⟩ | ⟨_, hb'⟩
    · exact absurd horder hid
    · exact h.ended id' p' hb' hid
  · intro report hr
    obtain ⟨p', hb', hp'⟩ := h.told report hr
    by_cases he : report.order = id
    · subst he
      obtain rfl : p = p' := Option.some.inj (hb.symm.trans hb')
      refine ⟨_, Function.update_self _ _ _, ?_⟩
      intro hc
      rw [hopen] at hp'
      cases (hp' hc).1
    · exact ⟨p', (Function.update_of_ne he _ _).trans hb', hp'⟩

theorem Agrees.tell (h : b.Agrees phase) {report : OrderReport} {p : Placed}
    (hb : b.book report.order = some p) : (b.tell report p).Agrees phase := by
  have hentry : ∀ {id p'}, b.book id = some p' → ∃ p'', (b.tell report p).book id = some p'' ∧
      p''.side = p'.side ∧ p''.size = p'.size ∧ p''.filled = p'.filled := by
    intro id p' hp'
    by_cases he : id = report.order
    · subst he
      obtain rfl : p = p' := Option.some.inj (hb.symm.trans hp')
      exact ⟨_, Function.update_self _ _ _, rfl, rfl, rfl⟩
    · exact ⟨p', (Function.update_of_ne he _ _).trans hp', rfl, rfl, rfl⟩
  cases phase with
  | flat => exact h
  | long stake => exact h
  | pendingEntry id stake =>
    obtain ⟨p', hp', hside, hsize, hpos⟩ := h
    obtain ⟨p'', hp'', hs, hz, hf⟩ := hentry hp'
    exact ⟨p'', hp'', hs.trans hside, hz.trans hsize, by rwa [hf]⟩
  | pendingExit id stake =>
    obtain ⟨p', hp', hside, hsize, hpos⟩ := h
    obtain ⟨p'', hp'', hs, hz, hf⟩ := hentry hp'
    exact ⟨p'', hp'', hs.trans hside, hz.trans hsize, by rwa [hf]⟩

theorem Sound.tell (h : b.Sound phase) {report : OrderReport} {p : Placed}
    (hb : b.book report.order = some p) (true_report : p.IsTold report) :
    (b.tell report p).Sound phase := by
  refine ⟨h.agrees.tell hb, ?_, ?_, ?_⟩
  · intro id p' hp'
    rcases book_update hp' with ⟨rfl, rfl⟩ | ⟨_, hb'⟩
    · exact h.filled_le _ p hb
    · exact h.filled_le id p' hb'
  · intro id p' hp' hid
    rcases book_update hp' with ⟨rfl, rfl⟩ | ⟨_, hb'⟩
    · simp [h.ended _ p hb hid]
    · exact h.ended id p' hb' hid
  · intro told htold
    by_cases he : told.order = report.order
    · refine ⟨_, (congrArg _ he).trans (Function.update_self _ _ _), ?_⟩
      intro hc
      rcases List.mem_cons.1 htold with rfl | hold
      · exact ⟨by simp [hc], true_report.filledSize, true_report.completed⟩
      · obtain ⟨p', hb', hp'⟩ := h.told told hold
        rw [he, hb] at hb'
        cases hb'
        obtain ⟨hend, hfill, hcomp⟩ := hp' hc
        exact ⟨by simp [hend], hfill, hcomp⟩
    · have hold : told ∈ b.sent := by
        rcases List.mem_cons.1 htold with rfl | hold
        · exact absurd rfl he
        · exact hold
      obtain ⟨p', hb', hp'⟩ := h.told told hold
      exact ⟨p', (Function.update_of_ne he _ _).trans hb', hp'⟩

theorem Sound.close (h : b.Sound phase) {report : OrderReport} {phase' : Phase}
    (hr : report ∈ b.sent) (closed : report.status.isOpen = false)
    (pending : phase.order? = some report.order) (agrees : b.Agrees phase') :
    b.Sound phase' := by
  refine ⟨agrees, h.filled_le, ?_, h.told⟩
  intro id p hp _
  by_cases he : id = report.order
  · subst he
    obtain ⟨p', hp', hclosed⟩ := h.told report hr
    obtain rfl : p = p' := Option.some.inj (hp.symm.trans hp')
    exact (hclosed closed).1
  · exact h.ended id p hp (by rw [pending]; exact fun hid => he (Option.some.inj hid).symm)

/-- When a buy has ended, the broker holds what the report says was bought. -/
theorem Sound.position_of_bought {report : OrderReport} {stake : Stake}
    (h : b.Sound (.pendingEntry report.order stake)) (hr : report ∈ b.sent)
    (closed : report.status.isOpen = false) :
    b.position = (Decision.boughtSize report stake.size).toNat := by
  obtain ⟨p, hb, htold⟩ := h.told report hr
  obtain ⟨p', hp', _, hsize, hpos, _⟩ := h.agrees
  obtain rfl : p = p' := Option.some.inj (hb.symm.trans hp')
  rw [hpos, ← hsize, (htold closed).2.toNat_boughtSize]

theorem Sound.position_of_sold {report : OrderReport} {stake : Stake}
    (h : b.Sound (.pendingExit report.order stake)) (hr : report ∈ b.sent)
    (closed : report.status.isOpen = false) :
    b.position = (Decision.leftSize report stake.size).toNat := by
  obtain ⟨p, hb, htold⟩ := h.told report hr
  obtain ⟨p', hp', _, hsize, hpos, _⟩ := h.agrees
  obtain rfl : p = p' := Option.some.inj (hb.symm.trans hp')
  have hle := h.filled_le _ p hb
  rw [hpos, ← hsize, (htold closed).2.toNat_leftSize]
  omega

theorem Sound.deliver {s : Strategy} {report : OrderReport} {transitions : List Transition}
    {after : State} (h : b.Sound s.state.phase) (hr : report ∈ b.sent)
    (move : ReportMove s report transitions after) : b.Sound after.phase := by
  cases move with
  | ignored _ => exact h
  | bought pending closed size_ne =>
    rw [pending] at h
    exact h.close hr closed rfl ⟨size_ne, h.position_of_bought hr closed⟩
  | buyFailed pending closed size_eq =>
    rw [pending] at h
    have hpos := h.position_of_bought hr closed
    rw [size_eq] at hpos
    exact h.close hr closed rfl hpos
  | sold pending closed left_eq =>
    rw [pending] at h
    have hpos := h.position_of_sold hr closed
    rw [left_eq] at hpos
    exact h.close hr closed rfl hpos
  | sellFailed pending closed left_ne =>
    rw [pending] at h
    exact h.close hr closed rfl ⟨left_ne, h.position_of_sold hr closed⟩

end Broker
end TroughTrader
