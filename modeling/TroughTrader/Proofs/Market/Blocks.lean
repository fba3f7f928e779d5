import Mathlib.Data.Set.Card
import TroughTrader.Proofs.Market.Locality
import TroughTrader.Proofs.Market.Warmup

/-!
# Crossings are the starts of blocks

A block of a predicate on positions is a longest run of positions where it holds. A block starts
after each step from a position where the predicate fails to one where it holds
(`exists_isBlock_iff`), and there is such a step between any two positions of the two kinds
(`exists_step`). The signs of two series mark exactly these steps for the predicate that the first
series is above (`getElem?_signs_eq_one_iff`): of series that touch neither is above the other, so a
touch ends a block of either one and starts none.
-/

namespace TroughTrader.Market

open Binary64

section Blocks

variable {p : Nat → Prop}

/-- A longest run of positions where a predicate holds. -/
structure IsBlock (p : Nat → Prop) (first last : Nat) : Prop where
  le : first ≤ last
  holds : ∀ k, first ≤ k → k ≤ last → p k
  before : ∀ k, k + 1 = first → ¬ p k
  after : ¬ p (last + 1)

theorem IsBlock.last_le {first last last' : Nat} (h : IsBlock p first last)
    (h' : IsBlock p first last') : last ≤ last' := by
  by_contra hlt
  exact h'.after (h.holds (last' + 1) (Nat.le_succ_of_le h'.le) (by omega))

/-- A run that goes on for so many positions more at most. -/
theorem exists_last {n first : Nat} (hbound : ∀ k, p k → k < first + n) (h : p first) :
    ∃ last, first ≤ last ∧ (∀ k, first ≤ k → k ≤ last → p k) ∧ ¬ p (last + 1) := by
  -- on the positions that are left, so that the start moves up and the end stays
  induction n generalizing first with
  | zero => exact absurd (hbound first h) (by omega)
  | succ n ih =>
    have hbound' : ∀ k, p k → k < first + 1 + n := by
      intro k hk
      have hlt := hbound k hk
      omega
    by_cases hnext : p (first + 1)
    · obtain ⟨last, hle, hholds, hafter⟩ := ih hbound' hnext
      refine ⟨last, Nat.le_of_succ_le hle, ?_, hafter⟩
      intro k hfirst hlast
      rcases Nat.eq_or_lt_of_le hfirst with rfl | hlt
      · exact h
      · exact hholds k hlt hlast
    · refine ⟨first, le_rfl, ?_, hnext⟩
      intro k hfirst hlast
      rwa [Nat.le_antisymm hlast hfirst]

theorem exists_isBlock_iff {n : Nat} (hbound : ∀ k, p k → k < n) (k : Nat) :
    (∃ last, IsBlock p (k + 1) last) ↔ ¬ p k ∧ p (k + 1) := by
  constructor
  · rintro ⟨last, h⟩
    exact ⟨h.before k rfl, h.holds (k + 1) le_rfl h.le⟩
  · rintro ⟨hbefore, hfirst⟩
    obtain ⟨last, hle, hholds, hafter⟩ :=
      exists_last (fun i hi => Nat.lt_add_left (k + 1) (hbound i hi)) hfirst
    refine ⟨last, hle, hholds, ?_, hafter⟩
    rintro i hi
    rwa [Nat.succ.inj hi]

theorem exists_step {i j : Nat} (hij : i < j) (hi : ¬ p i) (hj : p j) :
    ∃ k, i ≤ k ∧ k < j ∧ ¬ p k ∧ p (k + 1) := by
  induction j with
  | zero => omega
  | succ j ih =>
    by_cases hlast : p j
    · have hne : i ≠ j := fun heq => hi (heq ▸ hlast)
      obtain ⟨k, hik, hkj, hk⟩ := ih (by omega) hlast
      exact ⟨k, hik, Nat.lt_succ_of_lt hkj, hk⟩
    · exact ⟨j, Nat.le_of_lt_succ hij, Nat.lt_succ_self j, hlast, hj⟩

/-- A block is known by its start. -/
theorem encard_isBlock (p : Nat → Prop) :
    {block : Nat × Nat | block.1 ≠ 0 ∧ IsBlock p block.1 block.2}.encard =
      {k | k ≠ 0 ∧ ∃ last, IsBlock p k last}.encard := by
  have hinj : Set.InjOn Prod.fst {block : Nat × Nat | block.1 ≠ 0 ∧ IsBlock p block.1 block.2} := by
    rintro ⟨first, last⟩ ⟨-, h⟩ ⟨first', last'⟩ ⟨-, h'⟩ (rfl : first = first')
    exact congrArg (first, ·) (Nat.le_antisymm (h.last_le h') (h'.last_le h))
  rw [← hinj.encard_image]
  congr 1
  ext k
  constructor
  · rintro ⟨⟨first, last⟩, ⟨hne, h⟩, rfl⟩
    exact ⟨hne, last, h⟩
  · rintro ⟨hne, last, h⟩
    exact ⟨(k, last), ⟨hne, h⟩, rfl⟩

end Blocks

def IsAbove (a b : List Float) (k : Nat) : Prop :=
  ∃ x y, a[k]? = some x ∧ b[k]? = some y ∧ y < x

theorem lt_length_of_isAbove {a b : List Float} {k : Nat} (h : IsAbove a b k) : k < a.length := by
  obtain ⟨x, -, hx, -⟩ := h
  exact (List.getElem?_eq_some_iff.1 hx).1

theorem isAbove_iff {a b : List Float} {k : Nat} {x y : Float} (hx : a[k]? = some x)
    (hy : b[k]? = some y) : IsAbove a b k ↔ y < x := by
  constructor
  · rintro ⟨x', y', hx', hy', hlt⟩
    rw [Option.some.inj (hx.symm.trans hx'), Option.some.inj (hy.symm.trans hy')]
    exact hlt
  · exact fun hlt => ⟨x, y, hx, hy, hlt⟩

theorem crossSign_eq_one_iff (previousA previousB a b : Float) :
    crossSign previousA previousB a b = 1.0 ↔ previousA ≤ previousB ∧ b < a := by
  rw [← zero_lt_crossSign_iff]
  constructor
  · intro h
    rw [h]
    decide +kernel
  · unfold crossSign
    split
    · exact fun h => absurd h (by decide +kernel)
    · split
      · exact fun _ => rfl
      · exact fun h => absurd h (by decide +kernel)

def AreDefined (a b : List Float) (k : Nat) : Prop :=
  ∃ x y, a[k]? = some x ∧ b[k]? = some y ∧ x.isNaN = false ∧ y.isNaN = false

section Signs

variable {a b : List Float}

theorem areDefined (hlength : a.length = b.length) (ha : ∀ x ∈ a, x.isNaN = false)
    (hb : ∀ x ∈ b, x.isNaN = false) {k : Nat} (hk : k < a.length) : AreDefined a b k :=
  ⟨a[k], b[k], List.getElem?_eq_getElem hk, List.getElem?_eq_getElem (hlength ▸ hk),
    ha _ (List.getElem_mem hk), hb _ (List.getElem_mem _)⟩

theorem getElem?_signs_zero_ne_one : (signs (a.zip b))[0]? ≠ some 1.0 := by
  unfold signs
  split
  · exact fun h => by cases h
  · exact fun h => absurd (Option.some.inj h) (by decide +kernel)

theorem getElem?_signs_eq_none {k : Nat} (h : (a.zip b).length ≤ k) :
    (signs (a.zip b))[k]? = none := by
  rw [List.getElem?_eq_none_iff, signs]
  split
  · exact Nat.zero_le k
  · rename_i hempty
    have hpos : 0 < (a.zip b).length := List.length_pos_iff.2 (by simpa using hempty)
    rw [List.length_cons, length_pairSigns]
    omega

theorem isAbove_of_sign_eq_one {k : Nat} (h : (signs (a.zip b))[k]? = some 1.0) :
    IsAbove a b k := by
  cases k with
  | zero => exact absurd h getElem?_signs_zero_ne_one
  | succ k =>
    have hk : k + 1 < (a.zip b).length := by
      by_contra hle
      rw [getElem?_signs_eq_none (by omega)] at h
      cases h
    have hp := List.getElem?_eq_getElem (Nat.lt_of_succ_lt hk)
    have hq := List.getElem?_eq_getElem hk
    rw [getElem?_signs_succ hp hq, Option.some.injEq, crossSign_eq_one_iff] at h
    obtain ⟨hx, hy⟩ := List.getElem?_zip_eq_some.1 hq
    exact ⟨_, _, hx, hy, h.2⟩

/-- Between defined values a one is a step from not above to above. -/
theorem getElem?_signs_eq_one_iff {k : Nat} (hk : AreDefined a b k) (hk' : AreDefined a b (k + 1)) :
    (signs (a.zip b))[k + 1]? = some 1.0 ↔ ¬ IsAbove a b k ∧ IsAbove a b (k + 1) := by
  obtain ⟨x, y, hx, hy, hxn, hyn⟩ := hk
  obtain ⟨x', y', hx', hy', -, -⟩ := hk'
  have hp : (a.zip b)[k]? = some (x, y) := List.getElem?_zip_eq_some.2 ⟨hx, hy⟩
  have hq : (a.zip b)[k + 1]? = some (x', y') := List.getElem?_zip_eq_some.2 ⟨hx', hy'⟩
  rw [getElem?_signs_succ hp hq, Option.some.injEq, crossSign_eq_one_iff, isAbove_iff hx hy,
    isAbove_iff hx' hy', le_iff_rank_le hxn hyn, lt_iff_rank_lt hyn hxn, not_lt]

theorem exists_sign_eq_one {i j : Nat} (hij : i < j)
    (hdefined : ∀ k, i ≤ k → k ≤ j → AreDefined a b k) (hi : ¬ IsAbove a b i) (hj : IsAbove a b j) :
    ∃ k, i < k ∧ k ≤ j ∧ (signs (a.zip b))[k]? = some 1.0 := by
  obtain ⟨k, hik, hkj, hstep⟩ := exists_step hij hi hj
  refine ⟨k + 1, Nat.lt_succ_of_le hik, hkj, ?_⟩
  exact (getElem?_signs_eq_one_iff (hdefined k hik (Nat.le_of_lt hkj))
    (hdefined (k + 1) (Nat.le_succ_of_le hik) hkj)).2 hstep

theorem not_signs_eq_one_of_signs_eq_one {k : Nat} (h : (signs (a.zip b))[k]? = some 1.0) :
    (signs (b.zip a))[k]? ≠ some 1.0 := by
  intro h'
  obtain ⟨x, y, hx, hy, hlt⟩ := isAbove_of_sign_eq_one h
  have hgt := (isAbove_iff hy hx).1 (isAbove_of_sign_eq_one h')
  exact not_lt_of_lt hlt hgt

theorem getElem?_signs_eq_one_iff_isBlock (hlength : a.length = b.length)
    (ha : ∀ x ∈ a, x.isNaN = false) (hb : ∀ x ∈ b, x.isNaN = false) (k : Nat) :
    (signs (a.zip b))[k]? = some 1.0 ↔ k ≠ 0 ∧ ∃ last, IsBlock (IsAbove a b) k last := by
  cases k with
  | zero => exact iff_of_false getElem?_signs_zero_ne_one fun h => h.1 rfl
  | succ k =>
    rw [exists_isBlock_iff (fun i => lt_length_of_isAbove) k, and_iff_right k.succ_ne_zero]
    by_cases hk : k + 1 < a.length
    · exact getElem?_signs_eq_one_iff (areDefined hlength ha hb (Nat.lt_of_succ_lt hk))
        (areDefined hlength ha hb hk)
    · have hnot : ¬ IsAbove a b (k + 1) := fun h => hk (lt_length_of_isAbove h)
      exact iff_of_false (fun h => hnot (isAbove_of_sign_eq_one h)) fun h => hnot h.2

end Signs

namespace Channel

variable (c : Channel) (a : MovingAverage) (bars : List Bar) (hperiod : c.period = a.period.toNat)

theorem value?_eq_some_iff {readings : Array Reading} {field : Reading → Float} {k : Nat}
    {x : Float} : value? readings field k = some x ↔
      (readings.toList.map field)[k]? = some x ∧ x.isNaN = false := by
  rw [value?, List.getElem?_map, Array.getElem?_toList]
  cases readings[k]? with
  | none => simp
  | some r =>
    rw [Option.bind_some, Option.map_some, Option.some.injEq]
    constructor
    · intro h
      obtain ⟨rfl, hdefined⟩ := defined?_eq_some h
      exact ⟨rfl, hdefined⟩
    · rintro ⟨rfl, hdefined⟩
      rw [defined?, hdefined, if_neg Bool.false_ne_true]

include hperiod in
theorem isNaN_close_of_isNaN_average {k : Nat} {r : Reading} (hr : (c.readAll bars)[k]? = some r)
    (haverage : r.average.isNaN = false) : r.close.isNaN = false := by
  have hone := c.one_le_period
  obtain ⟨hclose, hmean, -⟩ := c.reading_of_readAll a bars hperiod hr
  rw [hmean, averageUpTo] at haverage
  split at haverage
  · rename_i hfull
    have hk := (List.getElem?_eq_some_iff.1 hclose).1
    have hlast : (windowUpTo c.period (bars.map (·.close)) k)[c.period - 1]? = some r.close := by
      have hindex : k + 1 - c.period + (c.period - 1) = k := by omega
      rw [getElem?_windowUpTo (by omega), hindex, hclose]
    rw [Bool.eq_false_iff]
    intro hnan
    have hmissing := isNaN_mean_of_mem (List.mem_of_getElem? hlast) hnan
    rw [mean_windowUpTo hfull hk] at hmissing
    exact absurd (haverage.symm.trans hmissing) Bool.false_ne_true
  · cases haverage

theorem map_crossings_readAll :
    let closes := (c.readAll bars).toList.map (·.close)
    let averages := (c.readAll bars).toList.map (·.average)
    (c.readAll bars).toList.map (·.crossUp) = signs (closes.zip averages) ∧
      (c.readAll bars).toList.map (·.crossDown) = signs (averages.zip closes) := by
  intro closes averages
  rw [c.map_crossUp_readAll, c.map_crossDown_readAll, List.zip_map', List.zip_map']
  exact ⟨rfl, rfl⟩

theorem value?_crossDown_ne_one {k : Nat}
    (h : value? (c.readAll bars) (·.crossUp) k = some 1.0) :
    value? (c.readAll bars) (·.crossDown) k ≠ some 1.0 := by
  obtain ⟨hup, hdown⟩ := c.map_crossings_readAll bars
  rw [value?_eq_some_iff, hup] at h
  rw [ne_eq, value?_eq_some_iff, hdown]
  exact fun h' => not_signs_eq_one_of_signs_eq_one h.1 h'.1

include hperiod in
theorem exists_crossDown {i j : Nat} {above below : Bar} {x y : Float} (hij : i < j)
    (habove : bars[i]? = some above) (hbelow : bars[j]? = some below)
    (hx : value? (c.readAll bars) (·.average) i = some x)
    (hy : value? (c.readAll bars) (·.average) j = some y)
    (hdefined : ∀ k, i ≤ k → k ≤ j → value? (c.readAll bars) (·.average) k ≠ none)
    (hxlt : x < above.close) (hlty : below.close < y) :
    ∃ k, i < k ∧ k ≤ j ∧ value? (c.readAll bars) (·.crossDown) k = some 1.0 := by
  have hclose {k : Nat} {bar : Bar} (hk : bars[k]? = some bar) :
      ((c.readAll bars).toList.map (·.close))[k]? = some bar.close := by
    rw [c.map_close_readAll, List.getElem?_map, hk, Option.map_some]
  have hboth : ∀ k, i ≤ k → k ≤ j → AreDefined ((c.readAll bars).toList.map (·.average))
      ((c.readAll bars).toList.map (·.close)) k := by
    intro k hik hkj
    obtain ⟨z, hz⟩ := Option.ne_none_iff_exists'.1 (hdefined k hik hkj)
    obtain ⟨hz, hzn⟩ := value?_eq_some_iff.1 hz
    rw [List.getElem?_map, Option.map_eq_some_iff] at hz
    obtain ⟨r, hr, rfl⟩ := hz
    have hreading : (c.readAll bars)[k]? = some r := by rwa [← Array.getElem?_toList]
    exact ⟨r.average, r.close, by rw [List.getElem?_map, hr, Option.map_some],
      by rw [List.getElem?_map, hr, Option.map_some], hzn,
      c.isNaN_close_of_isNaN_average a bars hperiod hreading hzn⟩
  have hi := mt (isAbove_iff (value?_eq_some_iff.1 hx).1 (hclose habove)).1 (not_lt_of_lt hxlt)
  have hj := (isAbove_iff (value?_eq_some_iff.1 hy).1 (hclose hbelow)).2 hlty
  obtain ⟨k, hik, hkj, hsign⟩ := exists_sign_eq_one hij hboth hi hj
  refine ⟨k, hik, hkj, value?_eq_some_iff.2 ⟨?_, by decide +kernel⟩⟩
  rw [(c.map_crossings_readAll bars).2, hsign]

end Channel

/-- What the crossings of two series without missing values are, and what a channel reports of its
closes and averages. A one is the start of a block of positions where the first series is above, so
that there are as many as such blocks after the first position; a series that comes to lie above
another one crosses it on the way, and one that falls below is crossed; and no position has both. -/
theorem crossSigns_eq_one_iff_isBlock :
    (∀ a b : List Float, a.length = b.length → (∀ x ∈ a, x.isNaN = false) →
      (∀ x ∈ b, x.isNaN = false) →
      ∃ up down, crossSigns a b = .ok up ∧ crossSigns b a = .ok down ∧
        (∀ k : Nat, 1 ≤ k → (up[k]? = some 1.0 ↔ ∃ last, IsBlock (IsAbove a b) k last)) ∧
        {k : Nat | up[k]? = some 1.0}.encard =
          {block : Nat × Nat | block.1 ≠ 0 ∧ IsBlock (IsAbove a b) block.1 block.2}.encard ∧
        (∀ (i j : Nat) (x y : Float), i < j → a[i]? = some x → b[i]? = some y → x ≤ y →
          IsAbove a b j → ∃ k, i < k ∧ k ≤ j ∧ up[k]? = some 1.0) ∧
        (∀ i j : Nat, i < j → IsAbove a b i → IsAbove b a j →
          ∃ k, i < k ∧ k ≤ j ∧ down[k]? = some 1.0) ∧
        ∀ k : Nat, up[k]? = some 1.0 → down[k]? ≠ some 1.0) ∧
      ∀ (period : UInt64) (pct : Float), 1 ≤ period.toNat →
        ∃ c, Channel.make? period pct = .ok c ∧ ∀ bars : List Bar,
          let readings := c.readAll bars
          (∀ (i j : Nat) (above below : Bar) (x y : Float), i < j → bars[i]? = some above →
            bars[j]? = some below → Channel.value? readings (·.average) i = some x →
            Channel.value? readings (·.average) j = some y →
            (∀ k, i ≤ k → k ≤ j → Channel.value? readings (·.average) k ≠ none) →
            x < above.close → below.close < y →
            ∃ k, i < k ∧ k ≤ j ∧ Channel.value? readings (·.crossDown) k = some 1.0) ∧
          ∀ k, Channel.value? readings (·.crossUp) k = some 1.0 →
            Channel.value? readings (·.crossDown) k ≠ some 1.0 := by
  constructor
  · intro a b hlength ha hb
    have hone := getElem?_signs_eq_one_iff_isBlock hlength ha hb
    refine ⟨signs (a.zip b), signs (b.zip a), crossSigns_eq_signs hlength,
      crossSigns_eq_signs hlength.symm, ?_, ?_, ?_, ?_, fun k => not_signs_eq_one_of_signs_eq_one⟩
    · intro k hk
      rw [hone, and_iff_right (Nat.one_le_iff_ne_zero.1 hk)]
    · rw [encard_isBlock]
      exact congrArg Set.encard (Set.ext hone)
    · intro i j x y hij hx hy hle hj
      have hi := mt (isAbove_iff hx hy).1 (not_lt_of_le hle)
      refine exists_sign_eq_one hij (fun k _ hkj => areDefined hlength ha hb ?_) hi hj
      exact Nat.lt_of_le_of_lt hkj (lt_length_of_isAbove hj)
    · rintro i j hij ⟨x, y, hx, hy, hlt⟩ hj
      have hi := mt (isAbove_iff hy hx).1 (not_lt_of_lt hlt)
      refine exists_sign_eq_one hij (fun k _ hkj => areDefined hlength.symm hb ha ?_) hi hj
      exact Nat.lt_of_le_of_lt hkj (lt_length_of_isAbove hj)
  · intro period pct hperiod
    let c : Channel := ⟨period.toNat, hperiod, loweringFactor pct⟩
    let a : MovingAverage := ⟨period, hperiod⟩
    refine ⟨c, dif_pos hperiod, fun bars => ⟨?_, fun k => c.value?_crossDown_ne_one bars⟩⟩
    intro i j above below x y hij habove hbelow hx hy hdefined hxlt hlty
    exact c.exists_crossDown a bars rfl hij habove hbelow hx hy hdefined hxlt hlty

/-- Two series that touch once before they cross, and closes that fall below their average of two. -/
theorem crossSigns_eq_one_iff_isBlock_touch :
    let a : List Float := [1.0, 2.0, 2.0, 1.0]
    let b : List Float := [2.0, 2.0, 1.0, 2.0]
    let quote (close : Float) : Bar := ⟨0, ⟨2024, 1, 2, by decide⟩, close, close, close, close⟩
    let bars := [quote 100.0, quote 102.0, quote 99.0]
    (a.length = b.length ∧ (∀ x ∈ a, x.isNaN = false) ∧ (∀ x ∈ b, x.isNaN = false) ∧
        IsAbove a b 2 ∧ IsAbove b a 3 ∧ 1 ≤ (2 : UInt64).toNat) ∧
      (∃ up down, crossSigns a b = .ok up ∧ crossSigns b a = .ok down ∧
        (∃ last, IsBlock (IsAbove a b) 2 last) ∧
        (∃ k : Nat, 0 < k ∧ k ≤ 2 ∧ up[k]? = some 1.0) ∧
        (∃ k : Nat, 2 < k ∧ k ≤ 3 ∧ down[k]? = some 1.0) ∧ down[2]? ≠ some 1.0) ∧
      ∃ c, Channel.make? 2 2.0 = .ok c ∧
        ∃ k, 1 < k ∧ k ≤ 2 ∧
          Channel.value? (c.readAll bars) (·.crossDown) k = some 1.0 ∧
          Channel.value? (c.readAll bars) (·.crossUp) k ≠ some 1.0 := by
  intro a b quote bars
  obtain ⟨hseries, hchannel⟩ := crossSigns_eq_one_iff_isBlock
  have ha : ∀ x ∈ a, x.isNaN = false := by decide +kernel
  have hb : ∀ x ∈ b, x.isNaN = false := by decide +kernel
  have habove : IsAbove a b 2 := ⟨2.0, 1.0, rfl, rfl, by decide +kernel⟩
  have hbelow : IsAbove b a 3 := ⟨2.0, 1.0, rfl, rfl, by decide +kernel⟩
  have hlength : a.length = b.length := by decide +kernel
  refine ⟨⟨hlength, ha, hb, habove, hbelow, by decide⟩, ?_, ?_⟩
  · obtain ⟨up, down, hup, hdown, hstarts, -, hcross, hfall, hnot⟩ := hseries a b hlength ha hb
    have hone : up[2]? = some 1.0 := by
      rw [crossSigns_eq_signs hlength, Except.ok.injEq] at hup
      rw [← hup]
      decide +kernel
    exact ⟨up, down, hup, hdown, (hstarts 2 (by decide)).1 hone,
      hcross 0 2 1.0 2.0 (by decide) rfl rfl (by decide +kernel) habove,
      hfall 2 3 (by decide) habove hbelow, hnot 2 hone⟩
  · obtain ⟨c, hc, hbars⟩ := hchannel 2 2.0 (by decide)
    obtain ⟨hdown, hnot⟩ := hbars bars
    obtain rfl : ⟨2, by decide, loweringFactor 2.0⟩ = c := Except.ok.inj hc
    let readings := Channel.readAll ⟨2, by decide, loweringFactor 2.0⟩ bars
    have haverage : Channel.value? readings (·.average) 1 = some 101.0 := by decide +kernel
    have haverage' : Channel.value? readings (·.average) 2 = some 100.5 := by decide +kernel
    have hdefined : ∀ k, 1 ≤ k → k ≤ 2 → Channel.value? readings (·.average) k ≠ none := by
      intro k hik hkj
      obtain rfl | rfl : k = 1 ∨ k = 2 := by omega
      · rw [haverage]
        exact Option.some_ne_none _
      · rw [haverage']
        exact Option.some_ne_none _
    obtain ⟨k, hik, hkj, hk⟩ := hdown 1 2 (quote 102.0) (quote 99.0) 101.0 100.5 (by decide) rfl rfl
      haverage haverage' hdefined (by decide +kernel) (by decide +kernel)
    exact ⟨_, hc, k, hik, hkj, hk, fun hup => hnot k hup hk⟩

end TroughTrader.Market
