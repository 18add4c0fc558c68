import DocGrammar.Number.Notation
import DocGrammar.Proofs.Number.Spacing

/-!
# The interval of a number

The shortest decimal is looked for in an interval around a number.  This file shows that the
interval is well chosen: whatever lies in it is rounded to the number
(`Binary.ofRatio_eq_of_holds`).

Seen from the number's own spacing this is what `IsNearest` says.  A power of two is the exception,
because the numbers below it are closer together.  What lies below it is rounded with the smaller
spacing, and for that the interval is narrower on that side.
-/

set_option autoImplicit false

namespace DocGrammar
namespace Binary

variable {f : Format} {x : Binary f} {num den : Nat}

/-- What lies in the interval of a number lies between its ends. -/
theorem bounds_of_holds (h : x.interval.holds num den = true) :
    x.interval.low * den ≤ num ∧ num ≤ x.interval.high * den ∧
      (x.significand % 2 ≠ 0 → x.interval.low * den < num ∧ num < x.interval.high * den) := by
  rw [Interval.holds] at h
  split at h
  · next hclosed =>
    simp only [Bool.and_eq_true, decide_eq_true_eq] at h
    refine ⟨h.1, h.2, fun hodd ↦ absurd ?_ hodd⟩
    simpa [interval] using hclosed
  · simp only [Bool.and_eq_true, decide_eq_true_eq] at h
    exact ⟨h.1.le, h.2.le, fun _ ↦ h⟩

theorem interval_high (x : Binary f) :
    x.interval.high = (4 * x.significand + 2) * 2 ^ x.shift := by
  rw [interval, units_eq, Nat.one_shiftLeft]
  ring

/-- The lower end is half a spacing away, -/
theorem le_interval_low (x : Binary f) :
    4 * (x.significand * 2 ^ x.shift) ≤ x.interval.low + 2 * 2 ^ x.shift := by
  rw [interval, units_eq, Nat.one_shiftLeft]
  dsimp only
  split <;> omega

/-- and only a quarter if the spacing changes. -/
theorem le_interval_low_of_fraction (hfraction : x.fractionField = 0)
    (hexponent : 1 < x.exponentField) :
    4 * (x.significand * 2 ^ x.shift) ≤ x.interval.low + 2 ^ x.shift := by
  rw [interval, units_eq, Nat.one_shiftLeft, if_pos ⟨hfraction, hexponent⟩]
  dsimp only
  omega

/-- Unless the spacing changes, the lower end is no further away than half a spacing. -/
theorem interval_low_eq (hregular : ¬ (x.fractionField = 0 ∧ 1 < x.exponentField))
    (hpos : 0 < x.significand) :
    x.interval.low + 2 * 2 ^ x.shift = 4 * (x.significand * 2 ^ x.shift) := by
  have hle := Nat.le_mul_of_pos_left (2 ^ x.shift) hpos
  rw [interval, units_eq, Nat.one_shiftLeft, if_neg hregular]
  dsimp only
  omega

/-- The lower end is a multiple of the spacing, in quarters. -/
theorem interval_low_mul (x : Binary f) :
    ∃ m ≤ 4 * x.significand, x.interval.low = m * 2 ^ x.shift := by
  rw [interval, units_eq, Nat.one_shiftLeft]
  dsimp only
  split
  · exact ⟨4 * x.significand - 1, by omega, by rw [Nat.sub_mul, Nat.one_mul, Nat.mul_assoc]⟩
  · exact ⟨4 * x.significand - 2, by omega, by rw [Nat.sub_mul, Nat.mul_assoc]⟩

/-- The interval of a positive number is not empty. -/
theorem interval_low_lt (hpos : 0 < x.significand) :
    x.interval.low < 4 * (x.significand * 2 ^ x.shift) := by
  have hle := Nat.le_mul_of_pos_left (2 ^ x.shift) hpos
  have := Nat.two_pow_pos x.shift
  rw [interval, units_eq, Nat.one_shiftLeft]
  dsimp only
  split <;> omega

/-- What lies between the ends of an interval lies in it, unless it is one of them and they do not
belong to it. -/
theorem holds_of_le {i : Interval} (hlow : i.low * den ≤ num) (hhigh : num ≤ i.high * den)
    (hopen : i.closed = false → i.low * den ≠ num ∧ num ≠ i.high * den) :
    i.holds num den = true := by
  rw [Interval.holds]
  split
  · exact Bool.and_eq_true_iff.2 ⟨decide_eq_true hlow, decide_eq_true hhigh⟩
  · next hclosed =>
    obtain ⟨hne, hne'⟩ := hopen (Bool.eq_false_iff.2 hclosed)
    exact Bool.and_eq_true_iff.2
      ⟨decide_eq_true (hlow.lt_of_ne hne), decide_eq_true (hhigh.lt_of_ne hne')⟩

/-- What lies strictly between the ends of an interval lies in it. -/
theorem holds_of_lt {i : Interval} (hlow : i.low * den < num) (hhigh : num < i.high * den) :
    i.holds num den = true :=
  holds_of_le hlow.le hhigh.le fun _ ↦ ⟨hlow.ne, hhigh.ne⟩

/-- Of the multiples of a number's own spacing, the number is the nearest. -/
theorem isNearest_of_holds (h : x.interval.holds (4 * num) den = true) :
    IsNearest num (den * 2 ^ x.shift) x.significand := by
  obtain ⟨hlow, hhigh, hodd⟩ := bounds_of_holds h
  have hlow' := Nat.mul_le_mul_right den x.le_interval_low
  rw [interval_high] at hhigh hodd
  refine ⟨by linarith, by linarith, fun heq ↦ ?_, fun heq ↦ ?_⟩
  · by_contra hne
    have := (hodd hne).2
    linarith
  · by_contra hne
    have := (hodd hne).1
    linarith

/-- A finite number is recovered from its shift and significand. -/
theorem clamped_eq_self (hfinite : x.isFinite = true) {s q : Nat}
    (h : s * 2 ^ f.fractionBits + q = x.magnitude) :
    clamped f x.negative (s * 2 ^ f.fractionBits + q) = x := by
  rw [isFinite_iff] at hfinite
  refine ext rfl ?_
  rw [clamped, h]
  exact Nat.min_eq_right hfinite.le

/-- Where the multiple nearest to what lies in the interval is below the smallest number with the
spacing, the number is that smallest one: a power of two. -/
theorem significand_eq_of_below (hshift : x.shift ≠ 0)
    (hnearest : IsNearest num (den * 2 ^ x.shift) x.significand)
    (hbelow : num < 2 ^ (f.fractionBits + x.shift) * den) :
    x.significand = 2 ^ f.fractionBits := by
  have hle : 2 * x.significand * (den * 2 ^ x.shift) <
      (2 * 2 ^ f.fractionBits + 1) * (den * 2 ^ x.shift) := by
    have := hnearest.below_le
    rw [Nat.pow_add] at hbelow
    linarith
  have := Nat.lt_of_mul_lt_mul_right hle
  have := x.le_significand hshift
  omega

/-- Below a power of two the interval is narrower, so that it suits the spacing there. -/
theorem close_of_holds {t : Nat} (ht : x.shift = t + 1)
    (hsignificand : x.significand = 2 ^ f.fractionBits)
    (h : x.interval.holds (4 * num) den = true) :
    4 * (2 ^ f.fractionBits * (2 ^ t * 2)) * den ≤ 4 * num + 2 ^ t * 2 * den := by
  have hpower : x.magnitude = (t + 2) * 2 ^ f.fractionBits := by
    rw [magnitude_eq, hsignificand, ht]
    ring
  have hfraction : x.fractionField = 0 := by
    rw [fractionField_eq, hpower, Nat.mul_mod_left]
  have hexponent : x.exponentField = t + 2 := by
    rw [exponentField_eq, hpower, Nat.mul_div_cancel _ (Nat.two_pow_pos _)]
  have hle := Nat.mul_le_mul_right den (le_interval_low_of_fraction hfraction (by omega))
  rw [ht, hsignificand, Nat.pow_succ] at hle
  have := (bounds_of_holds h).1
  linarith

/-- What lies in the interval of a power of two, but below it, is rounded up to it. -/
theorem ofRatio_eq_of_below (hfinite : x.isFinite = true) (hden : 0 < den) (hshift : x.shift ≠ 0)
    (h : x.interval.holds (4 * (num * 2 ^ f.scale)) den = true)
    (hbelow : num * 2 ^ f.scale < 2 ^ (f.fractionBits + x.shift) * den) :
    ofRatio f x.negative num den = x := by
  obtain ⟨t, ht⟩ : ∃ t, x.shift = t + 1 := Nat.exists_eq_add_one_of_ne_zero hshift
  have hsignificand := significand_eq_of_below hshift (isNearest_of_holds h) hbelow
  have hclose := close_of_holds ht hsignificand h
  rw [ht, ← Nat.add_assoc] at hbelow
  have hspacing : 2 ^ t * den ≤ 2 ^ f.fractionBits * (2 ^ t * den) :=
    Nat.le_mul_of_pos_left _ (Nat.two_pow_pos _)
  have hspaced : Spaced f (num * 2 ^ f.scale) den t := by
    refine ⟨.inr ?_, hbelow⟩
    rw [Nat.pow_add]
    have := Nat.zero_le (2 ^ f.fractionBits * (2 ^ t * den))
    linarith
  have hnearest : IsNearest (num * 2 ^ f.scale) (den * 2 ^ t) (2 ^ (f.fractionBits + 1)) := by
    rw [Nat.pow_succ, Nat.pow_add] at hbelow
    refine .of_even (by rw [Nat.pow_succ, Nat.mul_mod_left]) ?_ ?_
    · rw [Nat.pow_succ]
      linarith
    · rw [Nat.pow_succ]
      linarith
  rw [ofRatio_eq _ hden hspaced, hnearest.eq_roundHalfEven (Nat.mul_pos hden (Nat.two_pow_pos t))]
  refine clamped_eq_self hfinite ?_
  rw [magnitude_eq, hsignificand, ht]
  ring

/-- **The interval is sound.**  What lies in the interval of a finite number is rounded to it. -/
theorem ofRatio_eq_of_holds (hfinite : x.isFinite = true) (hden : 0 < den)
    (h : x.interval.holds (4 * (num * 2 ^ f.scale)) den = true) :
    ofRatio f x.negative num den = x := by
  have hnearest := isNearest_of_holds h
  have hstep : 0 < den * 2 ^ x.shift := Nat.mul_pos hden (Nat.two_pow_pos _)
  have hupper : num * 2 ^ f.scale < 2 ^ (f.fractionBits + x.shift + 1) * den := by
    have hle := hnearest.le_above
    have hsignificand := Nat.mul_le_mul_right (den * 2 ^ x.shift)
      (Nat.succ_le_of_lt x.significand_lt)
    rw [show f.fractionBits + x.shift + 1 = f.fractionBits + 1 + x.shift by omega, Nat.pow_add]
    linarith
  by_cases hlower : x.shift = 0 ∨ 2 ^ (f.fractionBits + x.shift) * den ≤ num * 2 ^ f.scale
  · rw [ofRatio_eq _ hden ⟨hlower, hupper⟩, hnearest.eq_roundHalfEven hstep]
    exact clamped_eq_self hfinite x.magnitude_eq.symm
  · obtain ⟨hshift, hbelow⟩ := not_or.1 hlower
    exact ofRatio_eq_of_below hfinite hden hshift h (Nat.not_le.1 hbelow)

end Binary
end DocGrammar
