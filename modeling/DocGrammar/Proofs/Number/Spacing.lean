import DocGrammar.Proofs.Number.Nearest

/-!
# Spacings

Within one exponent the numbers of a format are equally spaced, and the spacing is a power of two.
A magnitude is therefore a spacing and a significand in one number, and the number it stands for is
the significand times the spacing (`Binary.units_of_magnitude`).

`Binary.ofRatio` takes the spacing from the size of the quotient and rounds to a multiple of it.
`Spaced` says which spacing that is, without a logarithm.
-/

set_option autoImplicit false

namespace DocGrammar

/-! ## Magnitudes -/

namespace Binary

variable {f : Format} {x y : Binary f}

theorem ext (hnegative : x.negative = y.negative) (hmagnitude : x.magnitude = y.magnitude) :
    x = y := by
  cases x
  cases y
  cases hnegative
  cases hmagnitude
  rfl

theorem exponentField_eq (x : Binary f) : x.exponentField = x.magnitude / 2 ^ f.fractionBits :=
  Nat.shiftRight_eq_div_pow _ _

theorem fractionField_eq (x : Binary f) : x.fractionField = x.magnitude % 2 ^ f.fractionBits := by
  rw [fractionField, Nat.one_shiftLeft]

theorem units_eq (x : Binary f) : x.units = x.significand * 2 ^ x.shift := Nat.shiftLeft_eq _ _

/-- A magnitude is the significand, and as many full exponents as the shift says. -/
theorem magnitude_eq (x : Binary f) :
    x.magnitude = x.shift * 2 ^ f.fractionBits + x.significand := by
  have hdivision := Nat.div_add_mod x.magnitude (2 ^ f.fractionBits)
  rw [← exponentField_eq, ← fractionField_eq] at hdivision
  rw [shift, significand, Nat.one_shiftLeft]
  cases hexponent : x.exponentField with
  | zero =>
    rw [hexponent] at hdivision
    rw [if_pos rfl, Nat.zero_sub]
    linarith
  | succ e =>
    rw [hexponent] at hdivision
    rw [if_neg (Nat.succ_ne_zero e), Nat.add_sub_cancel]
    linarith

theorem fractionField_lt (x : Binary f) : x.fractionField < 2 ^ f.fractionBits := by
  rw [fractionField_eq]
  exact Nat.mod_lt _ (Nat.two_pow_pos _)

theorem significand_lt (x : Binary f) : x.significand < 2 ^ (f.fractionBits + 1) := by
  have hfraction := x.fractionField_lt
  rw [significand, Nat.one_shiftLeft, Nat.pow_succ]
  split <;> omega

theorem le_significand (h : x.shift ≠ 0) : 2 ^ f.fractionBits ≤ x.significand := by
  rw [shift] at h
  rw [significand, if_neg (by omega), Nat.one_shiftLeft]
  exact Nat.le_add_right _ _

/-- The number with a given magnitude is the significand times the spacing; the significand may be
the first one of the next exponent. -/
theorem units_of_magnitude {s q : Nat} (hmagnitude : x.magnitude = s * 2 ^ f.fractionBits + q)
    (hlow : s = 0 ∨ 2 ^ f.fractionBits ≤ q) (hhigh : q ≤ 2 ^ (f.fractionBits + 1)) :
    x.units = q * 2 ^ s := by
  have hpos := Nat.two_pow_pos f.fractionBits
  rw [units_eq]
  rw [Nat.pow_succ] at hhigh
  have hdivision : x.exponentField = s + q / 2 ^ f.fractionBits ∧
      x.fractionField = q % 2 ^ f.fractionBits := by
    rw [exponentField_eq, fractionField_eq, hmagnitude, Nat.mul_comm, Nat.mul_add_div hpos,
      Nat.mul_add_mod]
    exact ⟨rfl, rfl⟩
  obtain ⟨hexponent, hfraction⟩ := hdivision
  rw [significand, shift, hexponent, hfraction, Nat.one_shiftLeft]
  obtain hsmall | hlarge := Nat.lt_or_ge q (2 ^ f.fractionBits)
  · obtain rfl : s = 0 := hlow.resolve_right (Nat.not_le.2 hsmall)
    rw [Nat.div_eq_of_lt hsmall, Nat.mod_eq_of_lt hsmall]
    rfl
  · obtain hlt | rfl := Nat.lt_or_eq_of_le hhigh
    · have hquotient : q / 2 ^ f.fractionBits = 1 :=
        Nat.div_eq_of_lt_le (by omega) (by omega)
      have hremainder : 2 ^ f.fractionBits + q % 2 ^ f.fractionBits = q := by
        have hq := Nat.div_add_mod q (2 ^ f.fractionBits)
        rwa [hquotient, Nat.mul_one] at hq
      rw [hquotient, if_neg (Nat.succ_ne_zero s), hremainder, Nat.add_sub_cancel]
    · rw [Nat.mul_div_cancel_left 2 hpos, Nat.mul_mod_right, if_neg (Nat.succ_ne_zero _)]
      show (2 ^ f.fractionBits + 0) * 2 ^ (s + 1) = _
      ring

end Binary

/-! ## The spacing at a quotient -/

/-- At the quotient `num / den`, counted in the least positive number of a format, the numbers of
the format are `2 ^ s` apart. -/
structure Spaced (f : Format) (num den s : Nat) : Prop where
  lower : s = 0 ∨ 2 ^ (f.fractionBits + s) * den ≤ num
  upper : num < 2 ^ (f.fractionBits + s + 1) * den

namespace Spaced

variable {f : Format} {num den s t : Nat}

theorem le (h : Spaced f num den s) (h' : Spaced f num den t) : s ≤ t := by
  obtain rfl | hlower := h.lower
  · exact Nat.zero_le t
  · by_contra hlt
    have hpow : 2 ^ (f.fractionBits + t + 1) ≤ 2 ^ (f.fractionBits + s) :=
      Nat.pow_le_pow_right Nat.two_pos (by omega)
    have := Nat.mul_le_mul_right den hpow
    have := h'.upper
    omega

/-- There is only one spacing. -/
theorem eq (h : Spaced f num den s) (h' : Spaced f num den t) : s = t :=
  Nat.le_antisymm (h.le h') (h'.le h)

theorem log2 (f : Format) (num : Nat) (hden : 0 < den) :
    Spaced f num den ((num / den).log2 - f.fractionBits) := by
  have hupper : num / den < 2 ^ ((num / den).log2 + 1) := Nat.lt_log2_self
  constructor
  · by_cases hlarge : (num / den).log2 ≤ f.fractionBits
    · exact .inl (by omega)
    · refine .inr ?_
      have hne : num / den ≠ 0 := by
        intro hzero
        rw [hzero] at hlarge
        exact hlarge (Nat.zero_le _)
      rw [Nat.add_sub_cancel' (by omega), ← Nat.le_div_iff_mul_le hden]
      exact Nat.log2_self_le hne
  · rw [← Nat.div_lt_iff_lt_mul hden]
    exact Nat.lt_of_lt_of_le hupper (Nat.pow_le_pow_right Nat.two_pos (by omega))

/-- Only the quotient matters. -/
theorem congr {num' den' : Nat} (h : Spaced f num den s) (hden : 0 < den) (hden' : 0 < den')
    (heq : num * den' = num' * den) : Spaced f num' den' s where
  lower := h.lower.imp id fun hlower ↦ by
    have hle := Nat.mul_le_mul_right den' hlower
    rw [heq, Nat.mul_right_comm] at hle
    exact Nat.le_of_mul_le_mul_right hle hden
  upper := by
    have hlt := Nat.mul_lt_mul_of_pos_right h.upper hden'
    rw [heq, Nat.mul_right_comm] at hlt
    exact Nat.lt_of_mul_lt_mul_right hlt

/-- The significand of the nearest multiple of the spacing. -/
theorem significand_bounds (h : Spaced f num den s) (hden : 0 < den) :
    (s = 0 ∨ 2 ^ f.fractionBits ≤ roundHalfEven num (den * 2 ^ s)) ∧
      roundHalfEven num (den * 2 ^ s) ≤ 2 ^ (f.fractionBits + 1) := by
  have hstep : 0 < den * 2 ^ s := Nat.mul_pos hden (Nat.two_pow_pos s)
  constructor
  · refine h.lower.imp id fun hlower ↦ le_roundHalfEven hstep ?_
    rw [Nat.pow_add] at hlower
    linarith
  · refine roundHalfEven_le hstep ?_
    have hupper := h.upper
    rw [show f.fractionBits + s + 1 = f.fractionBits + 1 + s by omega, Nat.pow_add] at hupper
    linarith

end Spaced

/-! ## Rounding to a format -/

namespace Binary

variable {f : Format} {num den s : Nat}

/-- Rounding a quotient is rounding to a multiple of the spacing. -/
theorem ofRatio_eq (negative : Bool) (hden : 0 < den)
    (h : Spaced f (num * 2 ^ f.scale) den s) :
    ofRatio f negative num den =
      clamped f negative
        (s * 2 ^ f.fractionBits + roundHalfEven (num * 2 ^ f.scale) (den * 2 ^ s)) := by
  rw [ofRatio]
  simp only [Nat.shiftLeft_eq]
  rw [(Spaced.log2 f (num * 2 ^ f.scale) hden).eq h]

theorem infinity_eq (f : Format) : f.infinity = (2 ^ f.exponentBits - 1) * 2 ^ f.fractionBits := by
  rw [Format.infinity, Nat.shiftLeft_eq, Nat.one_shiftLeft]

theorem isFinite_iff (x : Binary f) : x.isFinite = true ↔ x.magnitude < f.infinity :=
  decide_eq_true_iff

theorem isNaN_of_isFinite {x : Binary f} (h : x.isFinite = true) : x.isNaN = false :=
  decide_eq_false (Nat.not_lt_of_lt ((isFinite_iff x).1 h))

theorem isInfinite_of_isFinite {x : Binary f} (h : x.isFinite = true) : x.isInfinite = false :=
  beq_eq_false_iff_ne.2 ((isFinite_iff x).1 h).ne

theorem clamped_magnitude (negative : Bool) {magnitude : Nat}
    (h : (clamped f negative magnitude).isFinite = true) :
    (clamped f negative magnitude).magnitude = magnitude := by
  rw [isFinite_iff] at h
  rw [clamped] at h ⊢
  dsimp only at h ⊢
  omega

/-- What a quotient is rounded to, if that is finite: the nearest multiple of the spacing. -/
theorem units_ofRatio {negative : Bool} (hden : 0 < den)
    (h : Spaced f (num * 2 ^ f.scale) den s)
    (hfinite : (ofRatio f negative num den).isFinite = true) :
    (ofRatio f negative num den).units =
      roundHalfEven (num * 2 ^ f.scale) (den * 2 ^ s) * 2 ^ s := by
  obtain ⟨hlow, hhigh⟩ := h.significand_bounds hden
  rw [ofRatio_eq negative hden h] at hfinite ⊢
  exact units_of_magnitude (clamped_magnitude negative hfinite) hlow hhigh

/-- A quotient below the last exponent is rounded to a finite number. -/
theorem isFinite_ofRatio (negative : Bool) (hden : 0 < den)
    (h : Spaced f (num * 2 ^ f.scale) den s) (hs : s + 3 < 2 ^ f.exponentBits) :
    (ofRatio f negative num den).isFinite = true := by
  obtain ⟨-, hhigh⟩ := h.significand_bounds hden
  rw [Nat.pow_succ] at hhigh
  have hlast : (s + 3) * 2 ^ f.fractionBits ≤ f.infinity := by
    rw [infinity_eq]
    exact Nat.mul_le_mul_right _ (by omega)
  have hpos := Nat.two_pow_pos f.fractionBits
  rw [ofRatio_eq negative hden h, isFinite_iff, clamped]
  dsimp only
  rw [Nat.add_mul] at hlast
  omega

/-- A quotient that is not too large is rounded to a finite number. -/
theorem isFinite_ofRatio_of_lt (negative : Bool) {e : Nat} (hden : 0 < den)
    (h : num * 2 ^ f.scale < 2 ^ (f.fractionBits + e) * den) (he : e + 3 < 2 ^ f.exponentBits) :
    (ofRatio f negative num den).isFinite = true := by
  have hspaced := Spaced.log2 f (num * 2 ^ f.scale) hden
  refine isFinite_ofRatio negative hden hspaced ?_
  obtain hzero | hlower := hspaced.lower
  · omega
  · have hlt := Nat.lt_of_mul_lt_mul_right (hlower.trans_lt h)
    have := (Nat.pow_lt_pow_iff_right (by decide)).1 hlt
    omega

/-- Only the quotient matters. -/
theorem ofRatio_congr (negative : Bool) {num' den' : Nat} (hden : 0 < den) (hden' : 0 < den')
    (h : num * den' = num' * den) : ofRatio f negative num den = ofRatio f negative num' den' := by
  have hscaled : num * 2 ^ f.scale * den' = num' * 2 ^ f.scale * den := by
    rw [Nat.mul_right_comm, h, Nat.mul_right_comm]
  have hspaced := Spaced.log2 f (num * 2 ^ f.scale) hden
  have hspaced' := hspaced.congr hden hden' hscaled
  rw [ofRatio_eq negative hden hspaced, ofRatio_eq negative hden' hspaced']
  congr 2
  refine roundHalfEven_congr (Nat.mul_pos hden (Nat.two_pow_pos _))
    (Nat.mul_pos hden' (Nat.two_pow_pos _)) ?_
  rw [← Nat.mul_assoc, hscaled, Nat.mul_assoc]

/-- Rounding does not cross a number of the format from below, -/
theorem le_units_ofRatio {negative : Bool} {m j : Nat} (hden : 0 < den)
    (hm : m < 2 ^ (f.fractionBits + 1)) (h : m * 2 ^ j * den ≤ num * 2 ^ f.scale)
    (hfinite : (ofRatio f negative num den).isFinite = true) :
    m * 2 ^ j ≤ (ofRatio f negative num den).units := by
  have hspaced := Spaced.log2 f (num * 2 ^ f.scale) hden
  rw [units_ofRatio hden hspaced hfinite]
  have hbounds := (hspaced.significand_bounds hden).1
  generalize Nat.log2 _ - f.fractionBits = s at hbounds
  obtain hs | hs := Nat.lt_or_ge j s
  · have hq := hbounds.resolve_left (by omega)
    calc m * 2 ^ j ≤ 2 ^ (f.fractionBits + 1) * 2 ^ j := Nat.mul_le_mul_right _ hm.le
      _ = 2 ^ f.fractionBits * 2 ^ (j + 1) := by ring
      _ ≤ 2 ^ f.fractionBits * 2 ^ s :=
        Nat.mul_le_mul_left _ (Nat.pow_le_pow_right Nat.two_pos hs)
      _ ≤ _ := Nat.mul_le_mul_right _ hq
  · obtain ⟨i, rfl⟩ := Nat.exists_eq_add_of_le hs
    rw [Nat.pow_add, Nat.mul_comm (2 ^ s), ← Nat.mul_assoc]
    refine Nat.mul_le_mul_right _
      (le_roundHalfEven (Nat.mul_pos hden (Nat.two_pow_pos s)) ?_)
    rw [Nat.pow_add] at h
    linarith

/-- nor from above. -/
theorem units_ofRatio_le {negative : Bool} {m j : Nat} (hden : 0 < den)
    (hm : m < 2 ^ (f.fractionBits + 1)) (h : num * 2 ^ f.scale ≤ m * 2 ^ j * den)
    (hfinite : (ofRatio f negative num den).isFinite = true) :
    (ofRatio f negative num den).units ≤ m * 2 ^ j := by
  have hspaced := Spaced.log2 f (num * 2 ^ f.scale) hden
  rw [units_ofRatio hden hspaced hfinite]
  have hlower := hspaced.lower
  generalize Nat.log2 _ - f.fractionBits = s at hlower
  obtain hs | hs := Nat.lt_or_ge j s
  · -- then the number would be below the least significand of its spacing
    exfalso
    have hlower := Nat.le_of_mul_le_mul_right ((hlower.resolve_left (by omega)).trans h) hden
    have hlt := Nat.mul_lt_mul_of_pos_right hm (Nat.two_pow_pos j)
    have hpow : 2 ^ (f.fractionBits + 1) * 2 ^ j ≤ 2 ^ (f.fractionBits + s) := by
      rw [← Nat.pow_add]
      exact Nat.pow_le_pow_right Nat.two_pos (by omega)
    omega
  · obtain ⟨i, rfl⟩ := Nat.exists_eq_add_of_le hs
    rw [Nat.pow_add, Nat.mul_comm (2 ^ s), ← Nat.mul_assoc]
    refine Nat.mul_le_mul_right _
      (roundHalfEven_le (Nat.mul_pos hden (Nat.two_pow_pos s)) ?_)
    rw [Nat.pow_add] at h
    linarith

end Binary
end DocGrammar
