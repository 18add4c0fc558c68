import Mathlib.Algebra.Order.Ring.Int
import Mathlib.Tactic.Linarith
import Mathlib.Tactic.LinearCombination
import Mathlib.Tactic.Ring

/-!
# Fractions near a quotient

How near can a multiple of one number come to a multiple of another?  Two fractions `p / q` and
`p' / q'` with `p' * q - p * q' = 1` and the quotient between them answer this for all
multipliers below `q'`: none of them does better than `q` (`le_abs_of_neighbours`).  Such fractions
are found with the Euclidean algorithm, but nothing depends on how they were found.

What is of interest is whether a multiple `d * a` can be `Near` a multiple `m * b`, which means by
one part in `2 ^ 29` of `b`, for `m` below `2 ^ 25`.  For particular `a` and `b` this is a
computation (`apart?`).  Where it says that there are no such multiples, none are near without
being equal; and where there is one pair of multiples, `eq_of_near` shows that there is no other.
-/

set_option autoImplicit false

namespace DocGrammar
namespace Fractions

/-! ## Neighbouring fractions -/

/-- **Neighbours are best.**  The multiples of `a` and `b` with multipliers `d < q'` and `m` are no
nearer to each other than those with `q` and `p`. -/
theorem le_abs_of_neighbours {a b p q p' q' d m : ℤ} (hdet : p' * q - p * q' = 1)
    (hlow : 0 ≤ q * a - p * b) (hhigh : q' * a - p' * b ≤ 0) (hq : 0 < q) (hd : 0 < d)
    (hlt : d < q') : q * a - p * b ≤ |d * a - m * b| := by
  -- the coordinates of the multipliers in the basis of the two fractions
  obtain ⟨x, hx⟩ : ∃ x, x = p' * d - q' * m := ⟨_, rfl⟩
  obtain ⟨y, hy⟩ : ∃ y, y = q * m - p * d := ⟨_, rfl⟩
  have hxy : x * q = d - y * q' := by
    rw [hx, hy]
    linear_combination d * hdet
  have hdistance : d * a - m * b = x * (q * a - p * b) + y * (q' * a - p' * b) := by
    rw [hx, hy]
    linear_combination (m * b - d * a) * hdet
  rw [hdistance]
  obtain hneg | rfl | hpos := lt_trichotomy y 0
  · have hx : 0 < x := by
      have := mul_neg_of_neg_of_pos hneg (hd.trans hlt)
      exact (mul_pos_iff_of_pos_right hq).1 (by linarith : 0 < x * q)
    have := mul_le_mul_of_nonneg_right (Int.add_one_le_of_lt hx) hlow
    have := mul_nonneg_of_nonpos_of_nonpos hneg.le hhigh
    exact le_trans (by linarith) (le_abs_self _)
  · have hx : 0 < x := (mul_pos_iff_of_pos_right hq).1 (by linarith : 0 < x * q)
    have := mul_le_mul_of_nonneg_right (Int.add_one_le_of_lt hx) hlow
    exact le_trans (by linarith) (le_abs_self _)
  · have hx : x < 0 := by
      have := mul_le_mul_of_nonneg_right (Int.add_one_le_of_lt hpos) (hd.trans hlt).le
      by_contra hx
      have := mul_nonneg (not_lt.1 hx) hq.le
      linarith
    have := mul_le_mul_of_nonneg_right (Int.le_sub_one_of_lt hx) hlow
    have := mul_nonpos_of_nonneg_of_nonpos hpos.le hhigh
    exact le_trans (by linarith) (neg_le_abs _)

/-! ## Distances -/

/-- The distance of two multiples. -/
def distance (a b d m : Nat) : Nat := ((d : ℤ) * a - m * b).natAbs

/-- Two multiples that are nearer to each other than one part in `2 ^ 29`. -/
def Near (a b d m : Nat) : Prop := 2 ^ 29 * distance a b d m ≤ b

variable {a b d m p q p' q' : Nat}

theorem near_iff : Near a b d m ↔
    2 ^ 29 * (d * a) ≤ 2 ^ 29 * (m * b) + b ∧ 2 ^ 29 * (m * b) ≤ 2 ^ 29 * (d * a) + b := by
  rw [Near, distance]
  generalize hx : d * a = x
  generalize hy : m * b = y
  have hcast : (d : ℤ) * a - m * b = x - y := by
    rw [← hx, ← hy]
    push_cast
    rfl
  rw [hcast]
  omega

/-- The multiplier of a near multiple is bounded. -/
theorem Near.lt_of_le (h : Near a b d m) (hb : 0 < b) (hm : m < 2 ^ 25) {bound : Nat}
    (hbound : 2 ^ 25 * b ≤ bound * a) : d < bound := by
  have hle := (near_iff.1 h).1
  have hm := Nat.mul_le_mul_right b (Nat.succ_le_of_lt hm)
  by_contra hlt
  have := Nat.mul_le_mul_right a (not_lt.1 hlt)
  rw [Nat.succ_mul] at hm
  omega

/-! ## No near multiples -/

/-- Fractions on either side of the quotient `a / b` that are neighbours, the first of them below it
or above it. -/
def Neighbours (a b p q p' q' : Nat) : Prop :=
  0 < q ∧
    ((p' * q = p * q' + 1 ∧ p * b ≤ q * a ∧ q' * a ≤ p' * b) ∨
      (p * q' = p' * q + 1 ∧ q * a ≤ p * b ∧ p' * b ≤ q' * a))

instance (a b p q p' q' : Nat) : Decidable (Neighbours a b p q p' q') :=
  inferInstanceAs (Decidable (_ ∧ _))

theorem Neighbours.le_distance (h : Neighbours a b p q p' q') (hd : 0 < d) (hlt : d < q') :
    distance a b q p ≤ distance a b d m := by
  obtain ⟨hq, ⟨hdet, hlow, hhigh⟩ | ⟨hdet, hlow, hhigh⟩⟩ := h
  · zify at hq hdet hlow hhigh hd hlt
    have hle := le_abs_of_neighbours (m := m) (by linarith : (p' : ℤ) * q - p * q' = 1)
      (by linarith : (0 : ℤ) ≤ q * a - p * b) (by linarith) hq hd hlt
    rw [distance, distance]
    zify
    rwa [abs_of_nonneg (by linarith : (0 : ℤ) ≤ q * a - p * b)]
  · zify at hq hdet hlow hhigh hd hlt
    -- the same on the other side of zero
    have hle := le_abs_of_neighbours (a := -a) (p := -p) (m := -m) (b := b)
      (by linarith : -(p' : ℤ) * q - -p * q' = 1) (by linarith : (0 : ℤ) ≤ q * -a - -p * b)
      (by linarith) hq hd hlt
    rw [distance, distance]
    zify
    rw [abs_of_nonpos (by linarith : (q : ℤ) * a - p * b ≤ 0)]
    rw [show (d : ℤ) * -a - -m * b = -(d * a - m * b) by ring, abs_neg] at hle
    linarith

/-- The convergents of `num / den` by the Euclidean algorithm, until the denominators are too large
to be of interest for `a / b`.  The last two fractions are carried along. -/
def convergents (a b : Nat) : Nat → Nat → Nat → Nat → Nat → Nat → Nat → Nat × Nat × Nat × Nat
  | 0, _, _, p, q, p', q' => (p, q, p', q')
  | rounds + 1, num, den, p, q, p', q' =>
    if den = 0 ∨ 2 ^ 25 * b ≤ q' * a then (p, q, p', q')
    else
      convergents a b rounds den (num % den) p' q' (num / den * p' + p) (num / den * q' + q)

/-- Whether multiples of `a` and `b` are shown to be equal or not near: because all distances are
multiples of a large number, or because the best multiples are not near. -/
def apart? (a b : Nat) : Bool :=
  let (p, q, p', q') := convergents a b 40 a b 0 1 1 0
  decide (b < 2 ^ 29 * a.gcd b) ||
    decide (Neighbours a b p q p' q' ∧ 2 ^ 25 * b ≤ q' * a ∧ b < 2 ^ 29 * distance a b q p)

/-- **The test is sound.** -/
theorem eq_of_apart (h : apart? a b = true) (hb : 0 < b) (hd : 0 < d) (hm : m < 2 ^ 25)
    (hnear : Near a b d m) : d * a = m * b := by
  rw [apart?] at h
  obtain hgcd | hneighbours := Bool.or_eq_true_iff.1 h
  · have hgcd := of_decide_eq_true hgcd
    have hdvd : a.gcd b ∣ distance a b d m := by
      rw [distance, ← Int.natCast_dvd]
      exact Int.dvd_sub (dvd_mul_of_dvd_right (Int.natCast_dvd_natCast.2 (a.gcd_dvd_left b)) _)
        (dvd_mul_of_dvd_right (Int.natCast_dvd_natCast.2 (a.gcd_dvd_right b)) _)
    obtain hzero | hpos := Nat.eq_zero_or_pos (distance a b d m)
    · have hzero := Int.natAbs_eq_zero.1 hzero
      zify
      linarith
    · have hle := Nat.le_of_dvd hpos hdvd
      rw [Near] at hnear
      omega
  · obtain ⟨hneighbours, hbound, hfar⟩ := of_decide_eq_true hneighbours
    have hle := hneighbours.le_distance (m := m) hd (hnear.lt_of_le hb hm hbound)
    rw [Near] at hnear
    omega

/-! ## One pair of near multiples -/

/-- Near the multiple with `p` and `q`, which may be near itself, there is no other one.  The other
fraction is the neighbour of `p / q` below the quotient. -/
theorem eq_of_near {p₀ q₀ : Nat} (hdet : p * q₀ = p₀ * q + 1)
    (habove : q * a ≤ p * b) (hq₀ : 0 < q₀) (hfar : b + 2 ^ 28 * (p₀ * b) < 2 ^ 28 * (q₀ * a))
    (hb : 0 < b) (hlt : d < 2 * q) (hd : 0 < d) (hpq : Near a b q p) (hnear : Near a b d m) :
    d = q ∧ m = p := by
  obtain ⟨h₁, h₂⟩ := near_iff.1 hpq
  obtain ⟨h₃, h₄⟩ := near_iff.1 hnear
  obtain hbefore | rfl | hbehind := Nat.lt_trichotomy d q
  · exfalso
    zify at *
    have hle := le_abs_of_neighbours (a := a) (b := b) (d := q - d) (m := p - m)
      (by linarith : (p : ℤ) * q₀ - p₀ * q = 1) (by linarith) (by linarith) hq₀ (by linarith)
      (by linarith)
    have habs : 2 ^ 28 * |((q : ℤ) - d) * a - (p - m) * b| ≤ b := by
      cases abs_cases (((q : ℤ) - d) * a - (p - m) * b) <;> linarith
    linarith
  · -- of the multiples of `b`, only one is that near
    refine ⟨rfl, ?_⟩
    obtain hlt | heq | hgt := Nat.lt_trichotomy m p
    · have := Nat.mul_le_mul_right b (Nat.succ_le_of_lt hlt)
      rw [Nat.succ_mul] at this
      omega
    · exact heq
    · have := Nat.mul_le_mul_right b (Nat.succ_le_of_lt hgt)
      rw [Nat.succ_mul] at this
      omega
  · exfalso
    zify at *
    have hle := le_abs_of_neighbours (a := a) (b := b) (d := d - q) (m := m - p)
      (by linarith : (p : ℤ) * q₀ - p₀ * q = 1) (by linarith) (by linarith) hq₀ (by linarith)
      (by linarith)
    have habs : 2 ^ 28 * |((d : ℤ) - q) * a - (m - p) * b| ≤ b := by
      cases abs_cases (((d : ℤ) - q) * a - (m - p) * b) <;> linarith
    linarith

end Fractions
end DocGrammar
