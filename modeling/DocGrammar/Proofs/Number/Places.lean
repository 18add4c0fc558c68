import DocGrammar.Number.Notation
import DocGrammar.Proofs.Number.Interval

/-!
# A number that was cut to some places

A number printed with a fixed number of places and read back is another number, in general.  It is
the number nearest to a multiple of a power of ten (`Binary.settled`), and this file shows that it
is printed like the first.

Two grids are involved, the multiples of `10 ^ -places` and the numbers of the format, and it is a
matter of which is finer.  Where the numbers of the format are closer together, reading moves a
multiple by less than one half of `10 ^ -places`, so printing finds the same multiple again.  Where
they are further apart, printing has moved the number by less than one half of their distance, so
reading finds the same number again.  The powers of two are exact there, so it does no harm that
the distance changes at them.
-/

set_option autoImplicit false

namespace DocGrammar
namespace Binary

variable {f : Format} {x : Binary f} {places : Nat}

/-- The multiple of `10 ^ -places` that a number is printed as. -/
def inPlaces (places : Nat) (x : Binary f) : Nat :=
  roundHalfEven (x.units * Nat.pow 10 places) (1 <<< f.scale)

/-- The number nearest to what a number is printed as. -/
def settled (places : Nat) (x : Binary f) : Binary f :=
  ofRatio f x.negative (x.inPlaces places) (Nat.pow 10 places)

theorem settled_signText (places : Nat) (x : Binary f) :
    (x.settled places).signText = x.signText :=
  rfl

theorem inPlaces_isNearest (places : Nat) (x : Binary f) :
    IsNearest (x.units * 10 ^ places) (2 ^ f.scale) (x.inPlaces places) := by
  rw [inPlaces, Nat.one_shiftLeft]
  exact roundHalfEven_isNearest (Nat.two_pow_pos _)

/-! ## Where the format is finer -/

/-- Where the numbers of the format are less than `10 ^ -places` apart, reading does not change the
multiple. -/
theorem inPlaces_settled_of_fine {s : Nat}
    (h : Spaced f (x.inPlaces places * 2 ^ f.scale) (10 ^ places) s)
    (hfine : 10 ^ places * 2 ^ s < 2 ^ f.scale)
    (hfinite : (x.settled places).isFinite = true) :
    (x.settled places).inPlaces places = x.inPlaces places := by
  have hunit : 0 < 10 ^ places := Nat.pow_pos (by decide)
  have hunits : (x.settled places).units = _ := units_ofRatio hunit h hfinite
  have hnearest := @roundHalfEven_isNearest (x.inPlaces places * 2 ^ f.scale) _
    (Nat.mul_pos hunit (Nat.two_pow_pos s))
  generalize roundHalfEven _ (10 ^ places * 2 ^ s) = q at hunits hnearest
  have habove := hnearest.le_above
  have hbelow := hnearest.below_le
  refine IsNearest.eq_roundHalfEven (by rw [Nat.one_shiftLeft]; exact Nat.two_pow_pos _) ?_
  rw [hunits, Nat.one_shiftLeft]
  refine .of_lt ?_ ?_
  · show 2 * (q * 2 ^ s * 10 ^ places) < _
    linarith
  · show _ < 2 * (q * 2 ^ s * 10 ^ places) + _
    linarith

/-! ## Where the format is coarser -/

/-- A number that is printed as a large multiple is large itself. -/
theorem le_shift_of_coarse {s : Nat}
    (h : Spaced f (x.inPlaces places * 2 ^ f.scale) (10 ^ places) s)
    (hcoarse : 2 ^ f.scale < 10 ^ places * 2 ^ s) (hs : s ≠ 0) : s ≤ x.shift := by
  by_contra hlt
  obtain ⟨t, rfl⟩ := Nat.exists_eq_add_one_of_ne_zero hs
  have hunits : x.units + 2 ^ t ≤ 2 ^ (f.fractionBits + 1) * 2 ^ t := by
    have hsignificand := Nat.mul_le_mul_right (2 ^ t) (Nat.succ_le_of_lt x.significand_lt)
    have hshift : 2 ^ x.shift ≤ 2 ^ t := Nat.pow_le_pow_right Nat.two_pos (by omega)
    have := Nat.mul_le_mul_left x.significand hshift
    rw [units_eq]
    linarith
  have hlower := h.lower.resolve_left hs
  have hbelow := (x.inPlaces_isNearest places).below_le
  have hunits' := Nat.mul_le_mul_right (10 ^ places) hunits
  rw [← Nat.add_assoc, Nat.pow_succ, Nat.pow_add] at hlower
  rw [Nat.pow_succ] at hcoarse hunits'
  linarith

/-- Where the numbers of the format are more than `10 ^ -places` apart, reading finds the number
itself again.  It has to be large enough for the powers of two to be whole numbers. -/
theorem settled_of_coarse {s : Nat} (hfinite : x.isFinite = true)
    (h : Spaced f (x.inPlaces places * 2 ^ f.scale) (10 ^ places) s)
    (hcoarse : 2 ^ f.scale < 10 ^ places * 2 ^ s) (hs : s ≠ 0)
    (hwhole : f.scale ≤ f.fractionBits + s) : x.settled places = x := by
  have hunit : 0 < 10 ^ places := Nat.pow_pos (by decide)
  have hshift := le_shift_of_coarse h hcoarse hs
  have hpos : 0 < x.significand :=
    Nat.lt_of_lt_of_le (Nat.two_pow_pos _) (x.le_significand (by omega))
  refine ofRatio_eq_of_holds hfinite hunit ?_
  have hhigh := x.interval_high
  have hspacing := Nat.two_pow_pos x.shift
  by_cases hregular : x.fractionField = 0 ∧ 1 < x.exponentField
  · -- a power of two is printed exactly
    have hsignificand : x.significand = 2 ^ f.fractionBits := by
      rw [significand, if_neg (by omega), hregular.1, Nat.one_shiftLeft, Nat.add_zero]
    have hunits : x.units * 10 ^ places =
        2 ^ (f.fractionBits + x.shift - f.scale) * 10 ^ places * 2 ^ f.scale := by
      rw [units_eq, hsignificand, ← Nat.pow_add, Nat.mul_right_comm, ← Nat.pow_add,
        Nat.sub_add_cancel (by omega)]
    have hexact : x.inPlaces places * 2 ^ f.scale = x.units * 10 ^ places := by
      rw [hunits, inPlaces, Nat.one_shiftLeft]
      show roundHalfEven (x.units * 10 ^ places) _ * _ = _
      rw [hunits, roundHalfEven_mul_self _ (Nat.two_pow_pos _)]
    rw [hexact, units_eq]
    refine holds_of_lt ?_ ?_
    · have := Nat.mul_lt_mul_of_pos_right (interval_low_lt hpos) hunit
      show _ * 10 ^ places < _
      linarith
    · show _ < _ * 10 ^ places
      rw [hhigh]
      have := Nat.mul_pos hspacing hunit
      linarith
  · have hlow := interval_low_eq hregular hpos
    have hpow : 2 ^ s ≤ 2 ^ x.shift := Nat.pow_le_pow_right Nat.two_pos hshift
    have hspacing := Nat.mul_le_mul_left (10 ^ places) hpow
    have hnearest := x.inPlaces_isNearest places
    rw [units_eq] at hnearest
    have habove := hnearest.le_above
    have hbelow := hnearest.below_le
    refine holds_of_lt ?_ ?_
    · have := congrArg (· * 10 ^ places) hlow
      show _ * 10 ^ places < _
      linarith
    · show _ < _ * 10 ^ places
      rw [hhigh]
      linarith

/-! ## Both -/

/-- **Printing is stable.**  A finite number is read back as a finite number that is printed in the
same way.  The unit `10 ^ -places` has to be between two powers of two at which the numbers of the
format are still whole multiples of their distance, and the format has to go on far beyond. -/
theorem settled_stable {c : Nat} (hlow : 2 ^ c < 10 ^ places) (hhigh : 10 ^ places < 2 ^ (c + 1))
    (hfraction : c ≤ f.fractionBits) (hscale : c < f.scale)
    (hrange : f.scale + 3 ≤ 2 ^ f.exponentBits) (hfinite : x.isFinite = true) :
    (x.settled places).isFinite = true ∧
      (x.settled places).inPlaces places = x.inPlaces places := by
  have hunit : 0 < 10 ^ places := Nat.pow_pos (by decide)
  have hspaced := Spaced.log2 f (x.inPlaces places * 2 ^ f.scale) hunit
  generalize Nat.log2 _ - f.fractionBits = s at hspaced
  by_cases hcoarse : f.scale ≤ c + s
  · have hpow : 2 ^ f.scale ≤ 2 ^ c * 2 ^ s := by
      rw [← Nat.pow_add]
      exact Nat.pow_le_pow_right Nat.two_pos hcoarse
    have hlt := Nat.mul_lt_mul_of_pos_right hlow (Nat.two_pow_pos s)
    rw [settled_of_coarse hfinite hspaced (Nat.lt_of_le_of_lt hpow hlt) (by omega) (by omega)]
    exact ⟨hfinite, rfl⟩
  · have hpow : 2 ^ (c + 1) * 2 ^ s ≤ 2 ^ f.scale := by
      rw [← Nat.pow_add]
      exact Nat.pow_le_pow_right Nat.two_pos (by omega)
    have hlt := Nat.mul_lt_mul_of_pos_right hhigh (Nat.two_pow_pos s)
    have hsettled : (x.settled places).isFinite = true :=
      isFinite_ofRatio _ hunit hspaced (by omega)
    exact ⟨hsettled, inPlaces_settled_of_fine hspaced (Nat.lt_of_lt_of_le hlt hpow) hsettled⟩

/-- In double precision, seven places are stable. -/
theorem settled_seven (x : Binary64) (hfinite : x.isFinite = true) :
    (x.settled 7).isFinite = true ∧ (x.settled 7).inPlaces 7 = x.inPlaces 7 :=
  settled_stable (by norm_num : 2 ^ 23 < 10 ^ 7) (by norm_num) (by decide) (by decide) (by decide)
    hfinite

/-! ## As text -/

theorem toPlaces_of_isFinite (places : Nat) (hfinite : x.isFinite = true) :
    x.toPlaces places = x.signText ++ placesText places (x.inPlaces places) := by
  rw [toPlaces, isNaN_of_isFinite hfinite, isInfinite_of_isFinite hfinite]
  rfl

/-- What is read back is printed in the same way. -/
theorem toPlaces_settled_seven (x : Binary64) (hfinite : x.isFinite = true) :
    (x.settled 7).toPlaces 7 = x.toPlaces 7 := by
  obtain ⟨hsettled, hsame⟩ := settled_seven x hfinite
  rw [toPlaces_of_isFinite 7 hfinite, toPlaces_of_isFinite 7 hsettled, hsame, settled_signText]

end Binary
end DocGrammar
