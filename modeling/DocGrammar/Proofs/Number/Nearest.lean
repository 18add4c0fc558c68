import DocGrammar.Number.Format
import Mathlib.Tactic.Linarith
import Mathlib.Tactic.Ring

/-!
# The nearest whole number

`roundHalfEven` is a computation with a quotient and a remainder.  What it computes is the one whole
number that is nearest to a quotient, an even one if there are two (`IsNearest`), and this is the
form in which all proofs about rounding use it.  That the nearest number is determined by the
quotient, and not by numerator and denominator, is then immediate.
-/

set_option autoImplicit false

namespace DocGrammar

/-- `n` is within one half of `num / den`, and even if it is just one half away. -/
structure IsNearest (num den n : Nat) : Prop where
  le_above : 2 * num ≤ (2 * n + 1) * den
  below_le : 2 * n * den ≤ 2 * num + den
  even_above : 2 * num = (2 * n + 1) * den → n % 2 = 0
  even_below : 2 * n * den = 2 * num + den → n % 2 = 0

variable {num den n m k : Nat}

namespace IsNearest

/-- A number that is nearer than one half is nearest. -/
theorem of_lt (habove : 2 * num < (2 * n + 1) * den) (hbelow : 2 * n * den < 2 * num + den) :
    IsNearest num den n :=
  ⟨habove.le, hbelow.le, fun h ↦ absurd h habove.ne, fun h ↦ absurd h hbelow.ne⟩

/-- An even number that is no further away than one half is nearest. -/
theorem of_even (heven : n % 2 = 0) (habove : 2 * num ≤ (2 * n + 1) * den)
    (hbelow : 2 * n * den ≤ 2 * num + den) : IsNearest num den n :=
  ⟨habove, hbelow, fun _ ↦ heven, fun _ ↦ heven⟩

end IsNearest

theorem roundHalfEven_isNearest (hden : 0 < den) : IsNearest num den (roundHalfEven num den) := by
  have hdiv : den * (num / den) + num % den = num := Nat.div_add_mod num den
  have hmod : num % den < den := Nat.mod_lt _ hden
  rw [roundHalfEven]
  generalize num / den = quotient at hdiv
  generalize num % den = remainder at hdiv hmod
  split_ifs with hlow hhigh
  · exact .of_lt (by linarith) (by linarith)
  · exact .of_lt (by linarith) (by linarith)
  · -- a tie: the quotient if it is even, and the next number otherwise
    have htie : 2 * remainder = den := by omega
    obtain heven | hodd := Nat.mod_two_eq_zero_or_one quotient
    · rw [heven]
      exact .of_even heven (by linarith) (by linarith)
    · rw [hodd]
      exact .of_even (by omega) (by linarith) (by linarith)

namespace IsNearest

theorem le (hden : 0 < den) (h : IsNearest num den n) (h' : IsNearest num den m) : n ≤ m := by
  by_contra hlt
  have hle : 2 * n * den ≤ (2 * m + 2) * den := by
    have := h.below_le
    have := h'.le_above
    linarith
  have hn : n = m + 1 := by
    have := Nat.le_of_mul_le_mul_right hle hden
    omega
  -- the quotient is half way between the two, and they cannot both be even
  subst hn
  have hm := h'.even_above (by have := h.below_le; have := h'.le_above; linarith)
  have hn := h.even_below (by have := h.below_le; have := h'.le_above; linarith)
  omega

/-- The nearest number is unique. -/
theorem eq_roundHalfEven (hden : 0 < den) (h : IsNearest num den n) :
    roundHalfEven num den = n :=
  have hnearest := roundHalfEven_isNearest hden
  Nat.le_antisymm (hnearest.le hden h) (h.le hden hnearest)

theorem mul_right (h : IsNearest num den n) (hk : 0 < k) :
    IsNearest (num * k) (den * k) n where
  le_above := by
    have := Nat.mul_le_mul_right k h.le_above
    linarith
  below_le := by
    have := Nat.mul_le_mul_right k h.below_le
    linarith
  even_above heq := h.even_above (Nat.eq_of_mul_eq_mul_right hk (by linarith))
  even_below heq := h.even_below (Nat.eq_of_mul_eq_mul_right hk (by linarith))

end IsNearest

/-- A common factor does not matter. -/
theorem roundHalfEven_mul_right (num : Nat) (hden : 0 < den) (hk : 0 < k) :
    roundHalfEven (num * k) (den * k) = roundHalfEven num den :=
  ((roundHalfEven_isNearest hden).mul_right hk).eq_roundHalfEven (Nat.mul_pos hden hk)

/-- Only the quotient matters. -/
theorem roundHalfEven_congr {num' den' : Nat} (hden : 0 < den) (hden' : 0 < den')
    (h : num * den' = num' * den) : roundHalfEven num den = roundHalfEven num' den' := by
  rw [← roundHalfEven_mul_right num hden hden', ← roundHalfEven_mul_right num' hden' hden, h,
    Nat.mul_comm den]

/-- A whole number is rounded to itself. -/
theorem roundHalfEven_mul_self (n : Nat) (hden : 0 < den) : roundHalfEven (n * den) den = n :=
  IsNearest.eq_roundHalfEven hden (.of_lt (by linarith) (by linarith))

/-- Rounding does not cross a whole number from below, -/
theorem le_roundHalfEven (hden : 0 < den) (h : n * den ≤ num) : n ≤ roundHalfEven num den := by
  have hnearest := (@roundHalfEven_isNearest num den hden).le_above
  have hle : 2 * n * den ≤ (2 * roundHalfEven num den + 1) * den := by linarith
  have := Nat.le_of_mul_le_mul_right hle hden
  omega

/-- nor from above. -/
theorem roundHalfEven_le (hden : 0 < den) (h : num ≤ n * den) : roundHalfEven num den ≤ n := by
  have hnearest := (@roundHalfEven_isNearest num den hden).below_le
  have hle : 2 * roundHalfEven num den * den ≤ (2 * n + 1) * den := by linarith
  have := Nat.le_of_mul_le_mul_right hle hden
  omega

end DocGrammar
