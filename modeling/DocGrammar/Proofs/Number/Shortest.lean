import DocGrammar.Proofs.Number.Interval

/-!
# The shortest decimal reads back

The search for the shortest decimal stops at the first power of ten with a multiple in the interval
of the number, and looks at the two multiples next to the number only.  At the last power of ten it
looks at, the number is a multiple itself, so the search always ends with a hit
(`Interval.search_eq`).  A hit lies in the interval (`Binary.shortest_holds`), and is therefore
rounded to the number (`Binary.ofRatio_shortest`).

That the shortest decimal reads back is a result in its own right, and holds in every format.  It is
about a decimal that is rounded once.  The decimals of a printed document are rounded to double
precision first; what is left of the result then is the subject of `Proofs.Number.Twice`, which
starts from `Binary.shortest_holds`.

What is said of hits here is a little more (`Interval.hit_cases`): a hit is the nearer of two
multiples, or else the other multiple is not in the interval.  Either way a hit at the very end of
the interval means that the multiples are far apart.
-/

set_option autoImplicit false

namespace DocGrammar

/-! ## Decimals as quotients -/

namespace Decimal

/-- The numerator of a decimal. -/
def num (d : Decimal) : Nat := d.digits * 10 ^ d.exponent.toNat

/-- The denominator of a decimal. -/
def den (d : Decimal) : Nat := 10 ^ (-d.exponent).toNat

theorem den_pos (d : Decimal) : 0 < d.den := Nat.pow_pos (by decide)

end Decimal

/-! ## Hits -/

namespace Interval

/-- The power of ten at a step is `unit / den`, in quarters of the least positive number. -/
def unit (scale step : Nat) : Nat := 10 ^ (step - scale) * 2 ^ (scale + 2)

@[inherit_doc unit]
def den (scale step : Nat) : Nat := 10 ^ (scale - step)

theorem unit_pos (scale step : Nat) : 0 < unit scale step :=
  Nat.mul_pos (Nat.pow_pos (by decide)) (Nat.two_pow_pos _)

theorem den_pos (scale step : Nat) : 0 < den scale step := Nat.pow_pos (by decide)

variable {i : Interval} {scale step digits : Nat}

/-- A multiple that is a hit lies in the interval.  It is no further from the middle than half the
distance of the multiples, or it is on one side of the middle, and its neighbour on the other side
is not in the interval. -/
theorem hit_cases (h : i.hit? scale step = some digits) :
    i.holds (digits * unit scale step) (den scale step) = true ∧
      ((2 * digits * unit scale step ≤ 2 * (i.middle * den scale step) + unit scale step ∧
          2 * (i.middle * den scale step) ≤ (2 * digits + 1) * unit scale step) ∨
        (digits * unit scale step ≤ i.middle * den scale step ∧
          i.middle * den scale step < (digits + 1) * unit scale step ∧
          i.holds ((digits + 1) * unit scale step) (den scale step) = false) ∨
        ∃ below, digits = below + 1 ∧ below * unit scale step ≤ i.middle * den scale step ∧
          i.middle * den scale step < digits * unit scale step ∧
          i.holds (below * unit scale step) (den scale step) = false) := by
  have hpos := unit_pos scale step
  have hunit : Nat.pow 10 (step - scale) <<< (scale + 2) = unit scale step := Nat.shiftLeft_eq _ _
  have hden : Nat.pow 10 (scale - step) = den scale step := rfl
  rw [hit?, hunit, hden] at h
  generalize unit scale step = unit at h hpos ⊢
  generalize den scale step = den at h ⊢
  have hbelow := Nat.div_mul_le_self (i.middle * den) unit
  have habove := Nat.lt_mul_div_succ (i.middle * den) hpos
  generalize i.middle * den / unit = below at h hbelow habove
  rw [Nat.mul_comm unit] at habove
  split at h
  · next hholds hholds' =>
    split_ifs at h with hnear
    · cases h
      exact ⟨hholds, .inl ⟨by linarith, by linarith⟩⟩
    · cases h
      exact ⟨hholds', .inl ⟨by linarith, by linarith⟩⟩
  · next hholds hholds' =>
    cases h
    exact ⟨hholds, .inr (.inl ⟨hbelow, habove, hholds'⟩)⟩
  · next hholds hholds' =>
    cases h
    exact ⟨hholds', .inr (.inr ⟨below, rfl, hbelow, habove, hholds⟩)⟩
  · cases h

/-- There is a hit if the middle is a multiple itself and lies in the interval. -/
theorem isSome_hit (hdvd : unit scale step ∣ i.middle * den scale step)
    (h : i.holds (i.middle * den scale step) (den scale step) = true) :
    (i.hit? scale step).isSome = true := by
  have hunit : Nat.pow 10 (step - scale) <<< (scale + 2) = unit scale step := Nat.shiftLeft_eq _ _
  have hden : Nat.pow 10 (scale - step) = den scale step := rfl
  rw [hit?, hunit, hden]
  rw [Nat.div_mul_cancel hdvd, h]
  generalize i.holds _ _ = above
  cases above with
  | false => rfl
  | true =>
    dsimp only
    split_ifs <;> rfl

/-- The search ends with a hit, if there is one at the end. -/
theorem search_eq (hzero : (i.hit? scale 0).isSome = true) : ∀ step : Nat,
    ∃ k ≤ step, ∃ digits, i.hit? scale k = some digits ∧
      i.search scale step = ⟨digits, (k : Int) - scale⟩
  | 0 => by
    obtain ⟨digits, hdigits⟩ := Option.isSome_iff_exists.1 hzero
    refine ⟨0, Nat.le_refl 0, digits, hdigits, ?_⟩
    rw [search, hdigits]
    simp
  | step + 1 => by
    rw [search]
    split
    · next digits hdigits => exact ⟨step + 1, Nat.le_refl _, digits, hdigits, rfl⟩
    · obtain ⟨k, hk, digits, hdigits, hsearch⟩ := search_eq hzero step
      exact ⟨k, Nat.le_succ_of_le hk, digits, hdigits, hsearch⟩

end Interval

namespace Binary

variable {f : Format}

theorem interval_middle (x : Binary f) :
    x.interval.middle = 4 * (x.significand * 2 ^ x.shift) := by
  rw [← units_eq]
  rfl

/-- A number lies in its interval. -/
theorem holds_middle (x : Binary f) {den : Nat} (hden : 0 < den) :
    x.interval.holds (x.interval.middle * den) den = true := by
  have hmiddle := x.interval_middle
  have hhigh := x.interval_high
  have hspacing := Nat.two_pow_pos x.shift
  obtain hzero | hpos := Nat.eq_zero_or_pos x.significand
  · have hlow : x.interval.low = 0 := by
      show x.interval.middle - _ = 0
      rw [hmiddle, hzero, Nat.zero_mul, Nat.mul_zero, Nat.zero_sub]
    have hclosed : x.interval.closed = true := by
      show (x.significand % 2 == 0) = true
      rw [hzero]
      rfl
    rw [Interval.holds, if_pos hclosed, hlow, hmiddle, hzero]
    simp
  · refine holds_of_lt (Nat.mul_lt_mul_of_pos_right ?_ hden) (Nat.mul_lt_mul_of_pos_right ?_ hden)
    · rw [hmiddle]
      exact interval_low_lt hpos
    · rw [hmiddle, hhigh]
      linarith

/-- Every number is a multiple of the least power of ten that is looked at. -/
theorem hit_zero (x : Binary f) : (x.interval.hit? f.scale 0).isSome = true := by
  refine Interval.isSome_hit ⟨x.significand * 2 ^ x.shift * 5 ^ f.scale, ?_⟩
    (x.holds_middle (Interval.den_pos _ _))
  rw [interval_middle, Interval.unit, Interval.den, Nat.zero_sub, Nat.sub_zero, Nat.pow_zero,
    Nat.pow_add, show 10 = 2 * 5 from rfl, Nat.mul_pow]
  ring

/-- What the shortest decimal is: a hit at some power of ten. -/
theorem shortest_eq (x : Binary f) :
    ∃ k ≤ f.scale + 1 <<< (f.exponentBits - 1) / 3 + 1, ∃ digits,
      x.interval.hit? f.scale k = some digits ∧ x.shortest = ⟨digits, (k : Int) - f.scale⟩ :=
  Interval.search_eq x.hit_zero _

/-- The shortest decimal lies in the interval. -/
theorem shortest_holds (x : Binary f) :
    x.interval.holds (4 * (x.shortest.num * 2 ^ f.scale)) x.shortest.den = true := by
  obtain ⟨k, -, digits, hhit, hshortest⟩ := x.shortest_eq
  have hholds := (Interval.hit_cases hhit).1
  rw [Interval.unit, Interval.den] at hholds
  rw [hshortest, Decimal.num, Decimal.den]
  dsimp only
  rw [Int.neg_sub, Int.toNat_sub, Int.toNat_sub]
  have hnum : 4 * (digits * 10 ^ (k - f.scale) * 2 ^ f.scale) =
      digits * (10 ^ (k - f.scale) * 2 ^ (f.scale + 2)) := by
    rw [Nat.pow_add]
    ring
  rwa [hnum]

/-- **The shortest decimal reads back.**  A finite number is what its shortest decimal is rounded
to. -/
theorem ofRatio_shortest {x : Binary f} (hfinite : x.isFinite = true) :
    ofRatio f x.negative x.shortest.num x.shortest.den = x :=
  ofRatio_eq_of_holds hfinite (Decimal.den_pos _) x.shortest_holds

end Binary
end DocGrammar
