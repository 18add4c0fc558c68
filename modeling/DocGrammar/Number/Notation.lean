import DocGrammar.Number.Format
import DocGrammar.Text

/-!
# Numbers in decimal notation

How numbers are read from bytes and written as characters.  `Digits` reads and writes natural
numbers; `Numeral` reads a decimal with a point and an exponent and rounds it to a binary format; in
the other direction `Binary.toPlaces` writes a number with a fixed number of digits after the point,
and `Binary.toShortest` with the fewest digits from which rounding recovers it.
-/

set_option autoImplicit false

namespace DocGrammar

/-! ## Digits

Numerals are read from bytes and written as characters, in any radix up to 36.  `Digits.value?`
reads a run of digits, `Digits.text` writes a number in base ten, and `Digits.padded` writes it with
leading zeros. -/

namespace Digits

/-- The value of a byte as a digit: `0` to `9`, then the letters in either case. -/
def digit? (b : UInt8) : Option Nat :=
  if 0x30 ≤ b ∧ b ≤ 0x39 then some (b.toNat - 0x30)
  else if 0x61 ≤ b ∧ b ≤ 0x7A then some (b.toNat - 0x57)
  else if 0x41 ≤ b ∧ b ≤ 0x5A then some (b.toNat - 0x37)
  else none

/-- The number that a run of digits continues, when `start` is the number read so far. -/
def valueFrom? (radix start : Nat) : List UInt8 → Option Nat
  | [] => some start
  | b :: rest =>
    match digit? b with
    | some d => if d < radix then valueFrom? radix (start * radix + d) rest else none
    | none => none

/-- The number a run of digits stands for in `radix`; `none` if a byte is no digit of that radix.
The empty run stands for zero. -/
def value? (radix : Nat) (digits : List UInt8) : Option Nat := valueFrom? radix 0 digits

/-- The number a run of decimal digits stands for, or zero if some byte is no such digit. -/
def decimalValue (digits : List UInt8) : Nat := (value? 10 digits).getD 0

/-- A number in base ten, most significant digit first. -/
def text (n : Nat) : List Char := Nat.toDigits 10 n

/-- A number in base ten, with zeros in front up to `width` digits. -/
def padded (width n : Nat) : List Char :=
  List.replicate (width - (text n).length) '0' ++ text n

end Digits

/-! ## Numerals

A numeral is an optional sign, digits with at most one point among them, and an optional exponent.
`Numeral.parse?` reads one from bytes as an exact number, a whole number times a power of ten, and
`Numeral.round` gives the number of a binary format nearest to it. -/

/-- The number `± digits * 10 ^ exponent`. -/
structure Numeral where
  negative : Bool
  digits : Nat
  exponent : Int
  deriving DecidableEq

namespace Numeral

/-- Splits off a sign, and tells whether it was a minus. -/
def takeSign : List UInt8 → Bool × List UInt8
  | [] => (false, [])
  | b :: rest =>
    if b = 0x2D then (true, rest) else if b = 0x2B then (false, rest) else (false, b :: rest)

/-- Splits off the digits at the front. -/
def takeDigits (bytes : List UInt8) : List UInt8 × List UInt8 := bytes.span Byte.isDigit

/-- Splits off a point and the digits after it. -/
def takeFraction : List UInt8 → List UInt8 × List UInt8
  | [] => ([], [])
  | b :: rest => if b = 0x2E then takeDigits rest else ([], b :: rest)

/-- Reads what follows the digits of a numeral to its end: nothing, or an exponent. -/
def exponent? : List UInt8 → Option Int
  | [] => some 0
  | b :: rest =>
    if b = 0x65 ∨ b = 0x45 then
      let (negative, digits) := takeSign rest
      if digits = [] then none
      else (Digits.value? 10 digits).map fun n ↦ if negative then -(n : Int) else n
    else none

/-- Reads a numeral: `sign? (digits ['.' digits?] | '.' digits) ([eE] sign? digits)?`. -/
def parse? (bytes : List UInt8) : Option Numeral :=
  let (negative, unsigned) := takeSign bytes
  let (whole, rest) := takeDigits unsigned
  let (fraction, rest) := takeFraction rest
  if whole ++ fraction = [] then none
  else (exponent? rest).map fun exponent ↦
    ⟨negative, Digits.decimalValue (whole ++ fraction), exponent - (fraction.length : Int)⟩

/-- The number of the format nearest to a numeral.  A power of ten beyond the format's range has the
same effect as one at its edge, so the exponent is limited before the power is taken. -/
def round (f : Format) (n : Numeral) : Binary f :=
  let limit := 1 <<< f.exponentBits
  match n.exponent with
  | .ofNat e => .ofRatio f n.negative (n.digits * Nat.pow 10 (min e limit)) 1
  | .negSucc e => .ofRatio f n.negative n.digits (Nat.pow 10 (min (e + 1) (limit + n.digits.log2)))

end Numeral

/-! ## A fixed number of decimal places

`Binary.toPlaces` writes a number with a fixed number of digits after the point, rounding its exact
value half to even.  The sign is the sign bit, so a negative number that rounds to zero is written
with a minus. -/

namespace Binary

variable {f : Format}

/-- The minus sign of a number, if it has one. -/
def signText (x : Binary f) : List Char := if x.negative then ['-'] else []

/-- A whole number of units `10 ^ -places`, written with a point. -/
def placesText (places n : Nat) : List Char :=
  let unit := Nat.pow 10 places
  Digits.text (n / unit) ++ '.' :: Digits.padded places (n % unit)

/-- A number with `places` digits after the point. -/
def toPlaces (places : Nat) (x : Binary f) : List Char :=
  if x.isNaN then "NaN".toList
  else if x.isInfinite then x.signText ++ "inf".toList
  else x.signText ++ placesText places (roundHalfEven (x.units * Nat.pow 10 places) (1 <<< f.scale))

end Binary

/-! ## The shortest decimal that reads back

`Binary.toShortest` writes a number with the fewest digits from which rounding recovers it.

The reals that round to a number form an interval around it (`Binary.interval`), whose ends belong
to it exactly when the significand is even.  If a multiple of a power of ten lies in the interval,
then so does one of the two multiples next to the number itself; so the search goes through the
powers of ten from the largest down, looks at those two neighbours only, and stops at the first
power with a hit.  Of two hits it takes the nearer one, and the larger on a tie.

Everything is computed in whole numbers: the interval in quarters of the least positive number, and
the powers of ten as `10 ^ (step - scale)`, where at step `0` every number of the format is itself
a multiple. -/

/-- An interval of numbers around one of them, in quarters of the least positive number of a
format. -/
structure Interval where
  low : Nat
  middle : Nat
  high : Nat
  /-- Whether the ends belong to the interval. -/
  closed : Bool

/-- The decimal `digits * 10 ^ exponent`. -/
structure Decimal where
  digits : Nat
  exponent : Int
  deriving DecidableEq

namespace Interval

/-- The interval holds the number `num / den`. -/
def holds (i : Interval) (num den : Nat) : Bool :=
  if i.closed then i.low * den ≤ num && num ≤ i.high * den
  else i.low * den < num && num < i.high * den

/-- The multiple of the power of ten at `step` that is nearest to the middle, among the two next to
it that lie in the interval. -/
def hit? (i : Interval) (scale step : Nat) : Option Nat :=
  let unit := Nat.pow 10 (step - scale) <<< (scale + 2)
  let den := Nat.pow 10 (scale - step)
  let below := i.middle * den / unit
  let above := below + 1
  match i.holds (below * unit) den, i.holds (above * unit) den with
  | true, true => if 2 * (i.middle * den) < (below + above) * unit then some below else some above
  | true, false => some below
  | false, true => some above
  | false, false => none

/-- The hit at the largest power of ten, from `step` down. -/
def search (i : Interval) (scale : Nat) : Nat → Decimal
  | 0 => ⟨(i.hit? scale 0).getD 0, -(scale : Int)⟩
  | step + 1 =>
    match i.hit? scale (step + 1) with
    | some digits => ⟨digits, (step + 1 : Int) - scale⟩
    | none => search i scale step

end Interval

namespace Binary

variable {f : Format}

/-- The reals that round to a finite positive number.  The gap below a power of two is half as wide
as the gap above it, except below the least normal number. -/
def interval (x : Binary f) : Interval :=
  let spacing := 1 <<< x.shift
  let middle := 4 * x.units
  { low := middle - (if x.fractionField = 0 ∧ 1 < x.exponentField then spacing else 2 * spacing)
    middle
    high := middle + 2 * spacing
    closed := x.significand % 2 == 0 }

/-- The shortest decimal that rounds to a finite positive number. -/
def shortest (x : Binary f) : Decimal :=
  x.interval.search f.scale (f.scale + 1 <<< (f.exponentBits - 1) / 3 + 1)

end Binary

/-! ### Layout

A decimal is written positionally, always with a point, from `10 ^ -4` up to but not including
`10 ^ 16`; outside that range it is written in scientific notation, without a point if it has one
digit only. -/

namespace Decimal

/-- The least power of ten that is written positionally. -/
def leastPositional : Int := -4

/-- The greatest power of ten that is written positionally. -/
def greatestPositional : Int := 15

/-- An integer with its minus sign. -/
def integerText : Int → List Char
  | .ofNat n => Digits.text n
  | .negSucc n => '-' :: Digits.text (n + 1)

/-- Digits with the point after the first `whole` of them. -/
def positional (digits : List Char) (whole : Int) : List Char :=
  match whole with
  | .ofNat 0 => '0' :: '.' :: digits
  | .negSucc n => '0' :: '.' :: (List.replicate (n + 1) '0' ++ digits)
  | .ofNat n =>
    if digits.length ≤ n then digits ++ List.replicate (n - digits.length) '0' ++ ['.', '0']
    else digits.take n ++ '.' :: digits.drop n

/-- Digits with the point after the first, and an exponent. -/
def scientific (digits : List Char) (exponent : Int) : List Char :=
  let mantissa := match digits with
    | first :: second :: rest => first :: '.' :: second :: rest
    | short => short
  mantissa ++ 'e' :: integerText exponent

/-- The text of a decimal. -/
def text (d : Decimal) : List Char :=
  let digits := Digits.text d.digits
  let leading := d.exponent + (digits.length : Int) - 1
  if leastPositional ≤ leading ∧ leading ≤ greatestPositional then positional digits (leading + 1)
  else scientific digits leading

end Decimal

namespace Binary

variable {f : Format}

/-- The text of a number with the fewest digits that read back.  A NaN is written without a sign. -/
def toShortest (x : Binary f) : List Char :=
  if x.isNaN then "NaN".toList
  else
    let unsigned :=
      if x.isInfinite then "inf".toList
      else if x.magnitude = 0 then "0.0".toList
      else x.shortest.text
    if x.negative then '-' :: unsigned else unsigned

end Binary
end DocGrammar
