/-!
# Binary floating-point formats

A binary interchange format is fixed by two numbers, the width of its fraction field and the width
of its exponent field.  A `Binary f` is a number of the format `f`: a sign, and the remaining bits
read as one natural number, its *magnitude*.  Magnitudes are in the order of the numbers they stand
for: zero, the subnormal and normal numbers, infinity (`Format.infinity`), and above it the NaNs.

All arithmetic on these numbers is done exactly, on natural numbers.  The least positive number of a
format is `2 ^ -scale`, so every finite number is a whole multiple of it, and `Binary.units` is that
multiple.  Every conversion into a format goes through `Binary.ofRatio`.
-/

set_option autoImplicit false

namespace DocGrammar

/-- A binary floating-point format. -/
structure Format where
  /-- Bits of the fraction field, one less than the precision. -/
  fractionBits : Nat
  /-- Bits of the exponent field. -/
  exponentBits : Nat
  deriving DecidableEq

namespace Format

/-- Double precision. -/
def binary64 : Format := ⟨52, 11⟩

/-- Single precision. -/
def binary32 : Format := ⟨23, 8⟩

variable (f : Format)

/-- The magnitudes of a format are the numbers below this one. -/
def bound : Nat := 1 <<< (f.exponentBits + f.fractionBits)

/-- The magnitude of infinity: all exponent bits set, no fraction bit. -/
def infinity : Nat := (1 <<< f.exponentBits - 1) <<< f.fractionBits

/-- The least positive number is `2 ^ -scale`. -/
def scale : Nat := 1 <<< (f.exponentBits - 1) + f.fractionBits - 2

theorem bound_pos : 0 < f.bound := by
  rw [bound, Nat.one_shiftLeft]
  exact Nat.two_pow_pos _

theorem infinity_lt_bound : f.infinity < f.bound := by
  rw [infinity, bound, Nat.shiftLeft_eq, Nat.one_shiftLeft, Nat.one_shiftLeft, Nat.pow_add]
  exact Nat.mul_lt_mul_of_pos_right (Nat.sub_lt (Nat.two_pow_pos _) Nat.one_pos)
    (Nat.two_pow_pos _)

end Format

/-- A number of the format `f`, up to every bit. -/
structure Binary (f : Format) where
  /-- The sign bit. -/
  negative : Bool
  /-- The other bits. -/
  magnitude : Nat
  magnitude_lt : magnitude < f.bound
  deriving DecidableEq

/-- A double-precision number. -/
abbrev Binary64 := Binary Format.binary64

/-- A single-precision number. -/
abbrev Binary32 := Binary Format.binary32

namespace Binary

variable {f : Format}

/-! ## Bits -/

/-- The number with the given bits; bits beyond the format's width are ignored. -/
def ofBits (f : Format) (bits : Nat) : Binary f where
  negative := bits / f.bound % 2 = 1
  magnitude := bits % f.bound
  magnitude_lt := Nat.mod_lt _ f.bound_pos

/-- The bits of a number, the sign first. -/
def toBits (x : Binary f) : Nat := (if x.negative then f.bound else 0) + x.magnitude

/-- The largest of `magnitude` and infinity's, whichever is less, with the given sign. -/
def clamped (f : Format) (negative : Bool) (magnitude : Nat) : Binary f where
  negative
  magnitude := min f.infinity magnitude
  magnitude_lt := Nat.lt_of_le_of_lt (Nat.min_le_left _ _) f.infinity_lt_bound

/-- Zero, without a sign. -/
def zero : Binary f := ⟨false, 0, f.bound_pos⟩

instance : Inhabited (Binary f) := ⟨zero⟩

/-! ## Classes -/

/-- Neither an infinity nor a NaN. -/
def isFinite (x : Binary f) : Bool := x.magnitude < f.infinity

/-- Not a number. -/
def isNaN (x : Binary f) : Bool := f.infinity < x.magnitude

/-- One of the two infinities. -/
def isInfinite (x : Binary f) : Bool := x.magnitude == f.infinity

/-! ## Values -/

/-- The exponent field. -/
def exponentField (x : Binary f) : Nat := x.magnitude >>> f.fractionBits

/-- The fraction field. -/
def fractionField (x : Binary f) : Nat := x.magnitude % (1 <<< f.fractionBits)

/-- The significand: the fraction field, with the leading one that a normal number leaves out. -/
def significand (x : Binary f) : Nat :=
  if x.exponentField = 0 then x.fractionField else 1 <<< f.fractionBits + x.fractionField

/-- How many times the significand is doubled to give `units`. -/
def shift (x : Binary f) : Nat := x.exponentField - 1

/-- The absolute value of a finite number, counted in the least positive number. -/
def units (x : Binary f) : Nat := x.significand <<< x.shift

/-- Equality of numbers: the zeros are equal whatever their signs, and a NaN equals nothing. -/
def same (x y : Binary f) : Bool :=
  !x.isNaN && x.magnitude == y.magnitude && (x.magnitude == 0 || x.negative == y.negative)

end Binary

/-! ## Rounding to a format

`Binary.ofRatio` takes the exact quotient of two natural numbers and rounds it to the nearest number
of the format, a tie to the even one of the two neighbours, and whatever is too large to infinity.

The magnitudes of a format count its numbers in order, so rounding needs no case for subnormal
numbers or for a carry into the next exponent: within one exponent the numbers are equally spaced,
and the magnitude is the number of the first one plus the rounded quotient by the spacing. -/

/-- The whole number nearest to `num / den`; of two equally near ones the even one. -/
def roundHalfEven (num den : Nat) : Nat :=
  let quotient := num / den
  let remainder := num % den
  if 2 * remainder < den then quotient
  else if den < 2 * remainder then quotient + 1
  else quotient + quotient % 2

namespace Binary

/-- The number of the format nearest to `num / den`, with the given sign. -/
def ofRatio (f : Format) (negative : Bool) (num den : Nat) : Binary f :=
  let scaled := num <<< f.scale
  let spacing := (scaled / den).log2 - f.fractionBits
  clamped f negative (spacing <<< f.fractionBits + roundHalfEven scaled (den <<< spacing))

/-- The number of the format nearest to an integer. -/
def ofInt (f : Format) (n : Int) : Binary f := ofRatio f (n < 0) n.natAbs 1

/-- The same number in another format, rounded if need be.  An infinity stays one, and a NaN becomes
the NaN whose only fraction bit is the first. -/
def convert {f : Format} (g : Format) (x : Binary f) : Binary g :=
  if x.isNaN then ofBits g (g.infinity + 1 <<< (g.fractionBits - 1))
  else if x.isInfinite then clamped g x.negative g.infinity
  else ofRatio g x.negative x.units (1 <<< f.scale)

end Binary
end DocGrammar
