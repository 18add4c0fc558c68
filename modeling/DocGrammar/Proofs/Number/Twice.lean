import DocGrammar.Proofs.Number.Fractions
import DocGrammar.Proofs.Number.Shortest

/-!
# Rounding twice

A single-precision number is printed as its shortest decimal.  The decimal is read in double
precision and then converted, so it is rounded twice, and that may lead somewhere else than rounding
it once.  This file finds out where: at one magnitude and nowhere else
(`Binary.roundedTwice_eq_iff`).

Rounded once, to single precision, the decimal leads back to the number (`ofRatio_shortest`),
because it lies in the number's interval (`shortest_holds`).  The first of the two roundings does
not cross the ends of that interval, because they are numbers of double precision.  If the ends
belong to the interval, nothing can go wrong.  If they do not, it can only go wrong if the first
rounding leads exactly to an end, and then the decimal is `Near` it, by one part in `2 ^ 29`.  A
decimal that near the end of an interval is only chosen if the multiples of its power of ten are as
far apart as the ends (`coarse_of_near`).  So there are few digits, and whether few digits lead so
near an end is a question about fractions, to be answered for each of the 254 spacings
(`apart_firstStep`).  At one of them there is such a decimal.
-/

set_option autoImplicit false

namespace DocGrammar
namespace Binary

open Fractions

variable {x : Binary32} {step digits m : Nat}

/-! ## The ends of an interval -/

/-- The power of ten at a step, as in `Interval.unit`. -/
def unit (step : Nat) : Nat := Interval.unit Format.binary32.scale step

@[inherit_doc unit]
def den (step : Nat) : Nat := Interval.den Format.binary32.scale step

/-- Where the spacing is `2 ^ shift`, the ends of intervals are odd multiples of this number, and
the decimals at a step are multiples of `unit`. -/
def ends (shift step : Nat) : Nat := den step * 2 ^ (shift + 1)

theorem den_pos (step : Nat) : 0 < den step := Interval.den_pos _ _

theorem ends_pos (shift step : Nat) : 0 < ends shift step :=
  Nat.mul_pos (den_pos _) (Nat.two_pow_pos _)

theorem middle_mul_den (x : Binary32) (step : Nat) :
    x.interval.middle * den step = 2 * (x.significand * ends x.shift step) := by
  rw [interval_middle, ends, Nat.pow_succ]
  ring

/-- An odd significand is not the one at which the spacing changes. -/
theorem interval_low_of_odd (hodd : x.significand % 2 = 1) :
    x.interval.low + 2 * 2 ^ x.shift = 4 * (x.significand * 2 ^ x.shift) := by
  refine interval_low_eq ?_ (by omega)
  rintro ⟨hfraction, hexponent⟩
  have hsignificand : x.significand = 2 ^ 23 := by
    rw [significand, if_neg (by omega), hfraction, Nat.one_shiftLeft]
    rfl
  omega

/-- Where the ends do not belong to the interval, it is as wide on either side. -/
theorem holds_iff_of_odd (hodd : x.significand % 2 = 1) (num step : Nat) :
    x.interval.holds num (den step) = true ↔
      2 * (x.significand * ends x.shift step) < num + ends x.shift step ∧
        num < 2 * (x.significand * ends x.shift step) + ends x.shift step := by
  have hopen : x.interval.closed = false := by
    show (x.significand % 2 == 0) = false
    rw [hodd]
    rfl
  have hlow := congrArg (· * den step) (interval_low_of_odd hodd)
  have hhigh := congrArg (· * den step) x.interval_high
  have hends : ends x.shift step = 2 * (2 ^ x.shift * den step) := by
    rw [ends, Nat.pow_succ]
    ring
  rw [Interval.holds, hopen, if_neg Bool.false_ne_true, Bool.and_eq_true, decide_eq_true_iff,
    decide_eq_true_iff, hends]
  constructor
  · rintro ⟨h, h'⟩
    exact ⟨by linarith, by linarith⟩
  · rintro ⟨h, h'⟩
    exact ⟨by linarith, by linarith⟩

/-- A decimal near the end of an interval is only chosen if there are no others between the ends. -/
theorem coarse_of_near (hodd : x.significand % 2 = 1)
    (hhit : x.interval.hit? Format.binary32.scale step = some digits)
    (hm : m + 1 = 2 * x.significand ∨ m = 2 * x.significand + 1)
    (hnear : Near (unit step) (ends x.shift step) digits m) :
    (2 ^ 29 - 1) * ends x.shift step ≤ 2 ^ 28 * unit step := by
  obtain ⟨hlow, hhigh⟩ := near_iff.1 hnear
  have hcases := (Interval.hit_cases hhit).2
  change (2 * digits * unit step ≤ 2 * (x.interval.middle * den step) + unit step ∧
      2 * (x.interval.middle * den step) ≤ (2 * digits + 1) * unit step) ∨
    (digits * unit step ≤ x.interval.middle * den step ∧
      x.interval.middle * den step < (digits + 1) * unit step ∧
      x.interval.holds ((digits + 1) * unit step) (den step) = false) ∨
    (∃ below, digits = below + 1 ∧ below * unit step ≤ x.interval.middle * den step ∧
      x.interval.middle * den step < digits * unit step ∧
      x.interval.holds (below * unit step) (den step) = false) at hcases
  rw [middle_mul_den] at hcases
  -- the other neighbour, if it is not in the interval
  have hother {n : Nat} (h : x.interval.holds (n * unit step) (den step) = false) :
      n * unit step + ends x.shift step ≤ 2 * (x.significand * ends x.shift step) ∨
        2 * (x.significand * ends x.shift step) + ends x.shift step ≤ n * unit step := by
    have hnot := Bool.eq_false_iff.1 h
    rw [Ne, holds_iff_of_odd hodd] at hnot
    omega
  have hends : m * ends x.shift step + ends x.shift step =
      2 * (x.significand * ends x.shift step) ∨
      m * ends x.shift step =
        2 * (x.significand * ends x.shift step) + ends x.shift step := by
    refine hm.imp (fun h ↦ ?_) fun h ↦ ?_
    · rw [← Nat.succ_mul, ← Nat.mul_assoc]
      exact congrArg (· * _) h
    · rw [h, Nat.succ_mul, Nat.mul_assoc]
  have hpos := ends_pos x.shift step
  generalize m * ends x.shift step = near at hlow hhigh hends
  generalize x.significand * ends x.shift step = middle at *
  generalize ends x.shift step = ends at *
  obtain ⟨hbelow, habove⟩ | ⟨hbelow, habove, hnext⟩ | ⟨below, rfl, hbelow, habove, hnext⟩ := hcases
  · simp only [Nat.add_mul, Nat.one_mul, Nat.mul_assoc] at hbelow habove
    omega
  · have hnext := hother hnext
    simp only [Nat.add_mul, Nat.one_mul] at habove hnext
    omega
  · have hnext := hother hnext
    simp only [Nat.add_mul, Nat.one_mul] at habove hlow hhigh
    omega

/-! ## Few digits -/

/-- The first power of ten whose multiples are as far apart as the ends of an interval, by its
logarithm. -/
def firstStep (shift : Nat) : Nat := (10414653 + 30103 * shift + 99999) / 100000

theorem fine_before_firstStep : ∀ shift < 254, 0 < firstStep shift ∧
    2 ^ 28 * unit (firstStep shift - 1) < (2 ^ 29 - 1) * ends shift (firstStep shift - 1) := by
  decide +kernel

theorem firstStep_le {shift : Nat} (hshift : shift < 254)
    (hcoarse : (2 ^ 29 - 1) * ends shift step ≤ 2 ^ 28 * unit step) : firstStep shift ≤ step := by
  obtain ⟨hpos, hfine⟩ := fine_before_firstStep shift hshift
  by_contra hlt
  have hle : step ≤ firstStep shift - 1 := by omega
  have hunit : unit step ≤ unit (firstStep shift - 1) :=
    Nat.mul_le_mul_right _ (Nat.pow_le_pow_right (by decide) (Nat.sub_le_sub_right hle _))
  have hends : ends shift (firstStep shift - 1) ≤ ends shift step :=
    Nat.mul_le_mul_right _ (Nat.pow_le_pow_right (by decide) (Nat.sub_le_sub_left hle _))
  have := Nat.mul_le_mul_left (2 ^ 28) hunit
  have := Nat.mul_le_mul_left (2 ^ 29 - 1) hends
  omega

/-- A multiple of a power of ten is a multiple of a lesser one. -/
theorem unit_mul_den {step' : Nat} (h : step' ≤ step) :
    unit step * den step' = 10 ^ (step - step') * unit step' * den step := by
  rw [unit, unit, den, den, Interval.unit, Interval.unit, Interval.den, Interval.den]
  generalize Format.binary32.scale = scale
  have hexponent : step - scale + (scale - step') = step - step' + (step' - scale) +
      (scale - step) := by omega
  have hpow : 10 ^ (step - scale) * 10 ^ (scale - step') =
      10 ^ (step - step') * 10 ^ (step' - scale) * 10 ^ (scale - step) := by
    rw [← Nat.pow_add, hexponent, Nat.pow_add, Nat.pow_add]
  linear_combination 2 ^ (scale + 2) * hpow

/-- The ends are at the same place at every step. -/
theorem ends_mul_den (shift step step' : Nat) :
    ends shift step * den step' = ends shift step' * den step := by
  rw [ends, ends]
  ring

theorem near_of_le {shift step' : Nat} (h : step' ≤ step)
    (hnear : Near (unit step) (ends shift step) digits m) :
    Near (unit step') (ends shift step') (digits * 10 ^ (step - step')) m := by
  rw [near_iff] at hnear ⊢
  obtain ⟨hlow, hhigh⟩ := hnear
  have hunit := unit_mul_den h
  have hends := ends_mul_den shift step step'
  have hdigits : digits * unit step * den step' =
      digits * 10 ^ (step - step') * unit step' * den step := by
    rw [Nat.mul_assoc, hunit]
    ring
  have hlow := Nat.mul_le_mul_right (den step') hlow
  have hhigh := Nat.mul_le_mul_right (den step') hhigh
  simp only [Nat.add_mul, Nat.mul_assoc] at hlow hhigh hdigits hends ⊢
  rw [hends, hdigits] at hlow hhigh
  constructor
  · refine Nat.le_of_mul_le_mul_right ?_ (den_pos step)
    linarith
  · refine Nat.le_of_mul_le_mul_right ?_ (den_pos step)
    linarith

/-- Of decimals with few digits, none is near an end, -/
theorem apart_firstStep : ∀ shift < 254, shift ≠ 42 →
    apart? (unit (firstStep shift)) (ends shift (firstStep shift)) = true := by
  decide +kernel

/-- with one exception. -/
theorem eq_of_near_exception (hdigits : 0 < digits) (hm : m < 2 ^ 25)
    (hnear : Near (unit (firstStep 42)) (ends 42 (firstStep 42)) digits m) :
    digits = 7038531 ∧ m = 22841339 := by
  have hpos := ends_pos 42 (firstStep 42)
  have hlt : digits < 2 * 7038531 := hnear.lt_of_le hpos hm (by decide +kernel)
  have hself : Near (unit (firstStep 42)) (ends 42 (firstStep 42)) 7038531 22841339 :=
    near_iff.2 (by decide +kernel)
  have hdet : 22841339 * 4466801 = 14495598 * 7038531 + 1 := by decide
  exact eq_of_near hdet (by decide +kernel) (by decide) (by decide +kernel) hpos hlt hdigits hself
    hnear

/-! ## The first rounding -/

/-- A quarter of the least single-precision number is `2 ^ gap` times the least double-precision
number. -/
def gap : Nat := 923

theorem scale_eq : Format.binary64.scale = Format.binary32.scale + 2 + gap := rfl

theorem scaled_eq (digits step : Nat) :
    digits * 10 ^ (step - Format.binary32.scale) * 2 ^ Format.binary64.scale =
      digits * unit step * 2 ^ gap := by
  rw [unit, Interval.unit, scale_eq, Nat.pow_add 2 (Format.binary32.scale + 2)]
  ring

/-- A decimal that is rounded to the end of an interval is near it. -/
theorem near_of_units {negative : Bool} {shift : Nat}
    (hfinite : (ofRatio .binary64 negative
      (digits * 10 ^ (step - Format.binary32.scale)) (den step)).isFinite = true)
    (hm : m < 2 ^ 25)
    (hunits : (ofRatio .binary64 negative
      (digits * 10 ^ (step - Format.binary32.scale)) (den step)).units =
        m * 2 ^ (shift + 1 + gap)) :
    Near (unit step) (ends shift step) digits m := by
  have hspaced := Spaced.log2 .binary64
    (digits * 10 ^ (step - Format.binary32.scale) * 2 ^ Format.binary64.scale) (den_pos step)
  rw [units_ofRatio (den_pos step) hspaced hfinite] at hunits
  rw [scaled_eq] at hunits hspaced
  generalize Nat.log2 _ - _ = s at hunits hspaced
  have hsignificand : s = 0 ∨ 2 ^ 52 ≤ roundHalfEven _ _ :=
    (hspaced.significand_bounds (den_pos step)).1
  have hnearest := @roundHalfEven_isNearest (digits * unit step * 2 ^ gap) _
    (Nat.mul_pos (den_pos step) (Nat.two_pow_pos s))
  generalize roundHalfEven _ _ = q at hunits hsignificand hnearest
  -- the spacing at the end is small
  have hspacing : 2 ^ 27 * 2 ^ s ≤ 2 ^ shift * 2 ^ gap := by
    rw [← Nat.pow_add, ← Nat.pow_add]
    refine Nat.pow_le_pow_right Nat.two_pos ?_
    have hgap : 27 ≤ gap := by decide
    obtain rfl | hq := hsignificand
    · omega
    · have hlt : 2 ^ (52 + s) < 2 ^ (25 + (shift + 1 + gap)) := by
        rw [Nat.pow_add, Nat.pow_add 2 25]
        calc 2 ^ 52 * 2 ^ s ≤ q * 2 ^ s := Nat.mul_le_mul_right _ hq
          _ = m * 2 ^ (shift + 1 + gap) := hunits
          _ < 2 ^ 25 * 2 ^ (shift + 1 + gap) :=
            Nat.mul_lt_mul_of_pos_right hm (Nat.two_pow_pos _)
      have := (Nat.pow_lt_pow_iff_right (by decide)).1 hlt
      omega
  have habove := Nat.mul_le_mul_left (2 ^ 27) hnearest.le_above
  have hbelow := Nat.mul_le_mul_left (2 ^ 27) hnearest.below_le
  have hspacing := Nat.mul_le_mul_left (den step) hspacing
  have hq : q * (den step * 2 ^ s) = den step * (m * (2 * 2 ^ shift * 2 ^ gap)) := by
    rw [Nat.mul_left_comm, hunits, Nat.pow_add, Nat.pow_succ]
    ring
  rw [near_iff, ends, Nat.pow_add 2 shift 1]
  constructor
  · refine Nat.le_of_mul_le_mul_right ?_ (Nat.two_pow_pos gap)
    linarith
  · refine Nat.le_of_mul_le_mul_right ?_ (Nat.two_pow_pos gap)
    linarith

/-- The double-precision number nearest to the shortest decimal of a single-precision one. -/
def doubled (x : Binary32) : Binary64 :=
  ofRatio .binary64 x.negative x.shortest.num x.shortest.den

/-- A decimal that was found at a step, as a quotient. -/
theorem shortest_eq_ratio (x : Binary32) :
    ∃ step digits, x.interval.hit? Format.binary32.scale step = some digits ∧
      x.shortest.num = digits * 10 ^ (step - Format.binary32.scale) ∧
      x.shortest.den = den step := by
  obtain ⟨step, -, digits, hhit, hshortest⟩ := x.shortest_eq
  refine ⟨step, digits, hhit, ?_, ?_⟩
  · rw [hshortest, Decimal.num]
    dsimp only
    rw [Int.toNat_sub]
  · rw [hshortest, Decimal.den]
    dsimp only
    rw [Int.neg_sub, Int.toNat_sub]
    rfl

theorem shift_lt (hfinite : x.isFinite = true) : x.shift < 254 := by
  rw [isFinite_iff] at hfinite
  have hmagnitude : x.magnitude = x.shift * 2 ^ 23 + x.significand := x.magnitude_eq
  have hinfinity : Format.binary32.infinity = 255 * 2 ^ 23 := rfl
  by_contra hlt
  have hsignificand : 2 ^ 23 ≤ x.significand := x.le_significand (by omega)
  omega

/-- The first rounding ends up between the ends of the interval, because the decimal lies between
them. -/
theorem doubled_bounds (hfinite : x.isFinite = true) :
    x.doubled.isFinite = true ∧ x.interval.low * 2 ^ gap ≤ x.doubled.units ∧
      x.doubled.units ≤ x.interval.high * 2 ^ gap := by
  obtain ⟨hlow, hhigh, -⟩ := bounds_of_holds x.shortest_holds
  have hden := x.shortest.den_pos
  have hscaled : 4 * (x.shortest.num * 2 ^ Format.binary32.scale) * 2 ^ gap =
      x.shortest.num * 2 ^ Format.binary64.scale := by
    rw [scale_eq, Nat.pow_add, Nat.pow_add]
    ring
  obtain ⟨m, hm, hmul⟩ := x.interval_low_mul
  have hshift := shift_lt hfinite
  have hsignificand : x.significand < 2 ^ 24 := x.significand_lt
  have hlow := Nat.mul_le_mul_right (2 ^ gap) hlow
  have hhigh := Nat.mul_le_mul_right (2 ^ gap) hhigh
  rw [hmul] at hlow ⊢
  rw [interval_high] at hhigh ⊢
  rw [hscaled] at hlow hhigh
  have hlarge : 4 * x.significand + 2 < 2 ^ 52 := by omega
  have hdoubled : x.doubled.isFinite = true := by
    have hgap : gap = 923 := rfl
    refine isFinite_ofRatio_of_lt _ hden (e := x.shift + gap)
      (Nat.lt_of_le_of_lt hhigh ?_) (show _ < 2048 by omega)
    show _ < 2 ^ (52 + (x.shift + gap)) * x.shortest.den
    have hlt := Nat.mul_lt_mul_of_pos_right hlarge
      (Nat.mul_pos (Nat.two_pow_pos (x.shift + gap)) hden)
    rw [Nat.pow_add 2 52]
    rw [Nat.pow_add] at hlt ⊢
    linarith
  refine ⟨hdoubled, ?_, ?_⟩
  · rw [Nat.mul_assoc, ← Nat.pow_add]
    refine le_units_ofRatio hden (show _ < 2 ^ 53 by omega) ?_ hdoubled
    rw [Nat.pow_add]
    linarith
  · rw [Nat.mul_assoc, ← Nat.pow_add]
    refine units_ofRatio_le hden (show _ < 2 ^ 53 by omega) ?_ hdoubled
    rw [Nat.pow_add]
    linarith

/-! ## The second rounding -/

theorem convert_of_isFinite {f g : Format} {y : Binary f} (hfinite : y.isFinite = true) :
    y.convert g = ofRatio g y.negative y.units (2 ^ f.scale) := by
  rw [convert, isNaN_of_isFinite hfinite, isInfinite_of_isFinite hfinite,
    if_neg Bool.false_ne_true, if_neg Bool.false_ne_true, Nat.one_shiftLeft]

/-- The magnitude at which rounding twice goes wrong. -/
def exceptional : Nat := 0x15AE43FD

/-- The first rounding only ends up at an end that does not belong to the interval if the number is
the exceptional one. -/
theorem eq_exceptional (hfinite : x.isFinite = true) (hodd : x.significand % 2 = 1)
    (hm : m + 1 = 2 * x.significand ∨ m = 2 * x.significand + 1)
    (hunits : x.doubled.units = m * 2 ^ (x.shift + 1 + gap)) : x.magnitude = exceptional := by
  obtain ⟨step, digits, hhit, hnum, hden⟩ := x.shortest_eq_ratio
  have hshift := shift_lt hfinite
  have hsignificand : x.significand < 2 ^ 24 := x.significand_lt
  have hlt : m < 2 ^ 25 := by omega
  have hdoubled := (doubled_bounds hfinite).1
  rw [doubled, hnum, hden] at hdoubled hunits
  have hnear := near_of_units hdoubled hlt hunits
  have hstep := firstStep_le hshift (coarse_of_near hodd hhit hm hnear)
  have hfew := near_of_le hstep hnear
  -- the decimal itself lies strictly between the ends
  have hholds := (Interval.hit_cases hhit).1
  change x.interval.holds (digits * unit step) (den step) = true at hholds
  rw [holds_iff_of_odd hodd] at hholds
  have hpos : 0 < digits := by
    refine Nat.pos_of_ne_zero fun hzero ↦ ?_
    have := Nat.le_mul_of_pos_left (ends x.shift step) (show 0 < x.significand by omega)
    rw [hzero, Nat.zero_mul] at hholds
    omega
  have hpos : 0 < digits * 10 ^ (step - firstStep x.shift) :=
    Nat.mul_pos hpos (Nat.pow_pos (by decide))
  by_cases hexception : x.shift = 42
  · rw [hexception] at hfew hpos
    have hm' := (eq_of_near_exception hpos hlt hfew).2
    have hmagnitude : x.magnitude = x.shift * 2 ^ 23 + x.significand := x.magnitude_eq
    rw [exceptional]
    omega
  · have hequal := eq_of_apart (apart_firstStep x.shift hshift hexception) (ends_pos _ _) hpos hlt
      hfew
    have hequal : digits * unit step = m * ends x.shift step := by
      refine Nat.eq_of_mul_eq_mul_right (den_pos (firstStep x.shift)) ?_
      rw [Nat.mul_assoc, unit_mul_den hstep, Nat.mul_assoc m, ends_mul_den, ← Nat.mul_assoc,
        ← Nat.mul_assoc, ← Nat.mul_assoc, hequal]
    rw [hequal, ← Nat.mul_assoc] at hholds
    obtain ⟨hlow, hhigh⟩ := hholds
    obtain h | rfl := hm
    · rw [← h, Nat.succ_mul] at hlow
      exact absurd hlow (Nat.lt_irrefl _)
    · rw [Nat.succ_mul] at hhigh
      exact absurd hhigh (Nat.lt_irrefl _)

/-- Away from the exceptional magnitude, the first rounding does not end up at an end that does not
belong to the interval. -/
theorem doubled_ne_ends (hfinite : x.isFinite = true) (hregular : x.magnitude ≠ exceptional)
    (hopen : x.interval.closed = false) :
    x.interval.low * 2 ^ gap ≠ x.doubled.units ∧ x.doubled.units ≠ x.interval.high * 2 ^ gap := by
  have hodd : x.significand % 2 = 1 := by
    have hne : ¬ x.significand % 2 = 0 := by
      rw [← beq_iff_eq]
      exact Bool.eq_false_iff.1 hopen
    omega
  have hne {m : Nat} (hm : m + 1 = 2 * x.significand ∨ m = 2 * x.significand + 1) :
      x.doubled.units ≠ m * 2 ^ (x.shift + 1) * 2 ^ gap := by
    rw [Nat.mul_assoc, ← Nat.pow_add]
    exact fun h ↦ hregular (eq_exceptional hfinite hodd hm h)
  obtain ⟨m, hm⟩ : ∃ m, m + 1 = 2 * x.significand := ⟨2 * x.significand - 1, by omega⟩
  have hlow : x.interval.low = m * 2 ^ (x.shift + 1) := by
    have hsum := interval_low_of_odd hodd
    have hproduct : (m + 1) * 2 ^ (x.shift + 1) = 4 * (x.significand * 2 ^ x.shift) := by
      rw [hm, Nat.pow_succ]
      ring
    rw [Nat.pow_succ] at hproduct ⊢
    linarith
  have hhigh : x.interval.high = (2 * x.significand + 1) * 2 ^ (x.shift + 1) := by
    rw [interval_high, Nat.pow_succ]
    ring
  rw [hlow, hhigh]
  exact ⟨(hne (.inl hm)).symm, hne (.inr rfl)⟩

/-- What is read from the text of a number: its shortest decimal, rounded twice. -/
def roundedTwice (x : Binary32) : Binary32 := x.doubled.convert .binary32

/-- **Rounding twice.**  Away from the exceptional magnitude it leads back to the number. -/
theorem roundedTwice_eq (hfinite : x.isFinite = true) (hregular : x.magnitude ≠ exceptional) :
    x.roundedTwice = x := by
  obtain ⟨hdoubled, hlow, hhigh⟩ := doubled_bounds hfinite
  have hquarters : 4 * (x.doubled.units * 2 ^ Format.binary32.scale) =
      x.doubled.units * 2 ^ (Format.binary32.scale + 2) := by
    rw [Nat.pow_add]
    ring
  have hscale : 2 ^ Format.binary64.scale = 2 ^ gap * 2 ^ (Format.binary32.scale + 2) := by
    rw [scale_eq, Nat.add_comm, Nat.pow_add]
  have hpos := Nat.two_pow_pos (Format.binary32.scale + 2)
  rw [roundedTwice, convert_of_isFinite hdoubled]
  refine ofRatio_eq_of_holds hfinite (Nat.two_pow_pos _) ?_
  -- both the ends and the double-precision number are counted in its least positive number
  rw [hquarters, hscale]
  refine holds_of_le ?_ ?_ fun hopen ↦ ?_
  · rw [← Nat.mul_assoc]
    exact Nat.mul_le_mul_right _ hlow
  · rw [← Nat.mul_assoc]
    exact Nat.mul_le_mul_right _ hhigh
  · obtain ⟨hne, hne'⟩ := doubled_ne_ends hfinite hregular hopen
    rw [← Nat.mul_assoc, ← Nat.mul_assoc]
    exact ⟨fun h ↦ hne (Nat.eq_of_mul_eq_mul_right hpos h),
      fun h ↦ hne' (Nat.eq_of_mul_eq_mul_right hpos h)⟩

/-- At the exceptional magnitude it leads to the next number. -/
theorem roundedTwice_exceptional (hmagnitude : x.magnitude = exceptional) :
    x.roundedTwice.magnitude = exceptional + 1 := by
  have hboth : ∀ negative, (roundedTwice ⟨negative, exceptional, by decide⟩).magnitude =
      exceptional + 1 := by
    decide +kernel
  obtain ⟨negative, magnitude, hlt⟩ := x
  cases hmagnitude
  exact hboth negative

/-- Rounding twice leads back to the number exactly if it is not the exceptional one. -/
theorem roundedTwice_eq_iff (hfinite : x.isFinite = true) :
    x.roundedTwice = x ↔ x.magnitude ≠ exceptional := by
  refine ⟨fun h hmagnitude ↦ ?_, roundedTwice_eq hfinite⟩
  have hnext := roundedTwice_exceptional hmagnitude
  rw [h, hmagnitude] at hnext
  exact absurd hnext (by decide)

theorem isFinite_roundedTwice (hfinite : x.isFinite = true) : x.roundedTwice.isFinite = true := by
  by_cases hmagnitude : x.magnitude = exceptional
  · rw [isFinite_iff, roundedTwice_exceptional hmagnitude]
    decide
  · rwa [roundedTwice_eq hfinite hmagnitude]

end Binary
end DocGrammar
