import DocGrammar.Grammar.Rule
import DocGrammar.Number.Notation

/-!
# Leaf rules

The rules that a grammar's tokens are made of: blanks, the words `null`, `true` and `false`, and
numbers.  Blanks leave no results; every other leaf leaves one value.
-/

set_option autoImplicit false

namespace DocGrammar
namespace Leaf

variable {N U : Type}

/-! ## Blanks

The space between tokens is consumed and leaves no results. -/

/-- One or more spaces, tabs or line breaks. -/
def whitespace : Rule N U :=
  ((Rule.anyOf [.byte 0x20, .byte 0x09, .byte 0x0A, .byte 0x0D]).repeated.lookahead).named
    "whitespace"

/-- Any number of spaces, tabs or line breaks. -/
def whitespaceMaybe : Rule N U := whitespace.optional

/-- One or more spaces or tabs. -/
def space : Rule N U :=
  ((Rule.anyOf [.byte 0x20, .byte 0x09]).repeated.lookahead).named "space"

/-- Any number of spaces or tabs. -/
def spaceMaybe : Rule N U := space.optional

/-! ## Keywords

The words `null`, `true` and `false` each leave the value they name. -/

/-- A word that stands for a value. -/
def keyword (text : String) (value : Value) : Rule N U :=
  .closing (Rule.word text).lookahead
    (DirectAction.toAction fun state _ ↦ state.okWith value)

/-- The word `null`. -/
def null : Rule N U := (keyword "null" .null).named "null"

/-- The words `true` and `false`. -/
def boolean : Rule N U :=
  (Rule.anyOf [keyword "true" (.bool true), keyword "false" (.bool false)]).named "boolean"

/-! ## Integers

Integers of 64 bits are written in decimal, in hexadecimal after `0x`, in octal after a `0`, or in
whichever of the three the text calls for; unsigned, or signed after an optional sign.  Each of the
rules leaves one value, and fails if the number is out of range. -/

/-! ### Signs and digits -/

/-- A minus or a plus. -/
def sign : Rule N U := (Rule.anyOf [.byte 0x2D, .byte 0x2B]).named "sign"

/-- A minus, a plus, or neither. -/
def signMaybe : Rule N U := sign.optional

def decimalDigit : Rule N U := .range 0x30 0x39
def decimalDigits : Rule N U := decimalDigit.repeated
def hexDigit : Rule N U := .anyOf [.range 0x30 0x39, .range 0x61 0x66, .range 0x41 0x46]
def hexDigits : Rule N U := hexDigit.repeated
def octalDigit : Rule N U := .range 0x30 0x37
def octalDigits : Rule N U := octalDigit.repeated

/-! ### Values -/

/-- The number that digits stand for, if it has at most 64 bits. -/
def unsignedValue? (radix : Nat) (digits : List UInt8) : Option UInt64 :=
  match Digits.value? radix digits with
  | some n => if n < UInt64.size then some (UInt64.ofNat n) else none
  | none => none

/-- Replaces the results of a rule by the number that its last span stands for; without a span,
by zero. -/
def closeUnsigned (radix : Nat) {input : Array UInt8} (state : State input U) (start : Position) :
    Reply input U :=
  match unsignedValue? radix ((state.sliceSince start).getD []) with
  | some value => state.okReplace start (.unsigned value)
  | none => state.fail (.message "integer out of range")

/-- The number with a magnitude and a sign, if it has at most 64 bits. -/
def signedValue? (negative : Bool) (magnitude : UInt64) : Option Int64 :=
  if negative then
    if magnitude.toNat ≤ 0x8000000000000000 then some (Int64.ofInt (-(magnitude.toNat : Int)))
    else none
  else
    if magnitude.toNat < 0x8000000000000000 then some (Int64.ofNat magnitude.toNat) else none

/-- The sign and the magnitude among the results of a signed number. -/
def signedParts? : List Value → Option (Bool × UInt64)
  | [.char sign, .unsigned magnitude] => some (sign == 0x2D, magnitude)
  | [.unsigned magnitude] => some (false, magnitude)
  | _ => none

/-- Replaces a sign and a magnitude by the signed number. -/
def closeSigned {input : Array UInt8} (state : State input U) (start : Position) :
    Reply input U :=
  match signedParts? (state.resultsSince start) with
  | none => state.fail (.message "expected integer")
  | some (negative, magnitude) =>
    match signedValue? negative magnitude with
    | some value => state.okReplace start (.signed value)
    | none => state.fail (.message "integer out of range")

/-! ### The rules -/

/-- Decimal digits. -/
def unsignedDecimal : Rule N U :=
  .closing decimalDigits.flat (DirectAction.toAction (closeUnsigned 10))

/-- Hexadecimal digits after `0x` or `0X`. -/
def unsignedHex : Rule N U :=
  .closing
    (.allOf [(Rule.anyOf [.word "0x", .word "0X"]).lookahead, hexDigits.flat])
    (DirectAction.toAction (closeUnsigned 16))

/-- Octal digits after a `0`; the `0` alone is zero. -/
def unsignedOctal : Rule N U :=
  .closing
    (.allOf [(Rule.byte 0x30).lookahead, octalDigit.repeatedOrNone.flat])
    (DirectAction.toAction (closeUnsigned 8))

/-- Hexadecimal, octal or decimal, in that order. -/
def unsignedAny : Rule N U :=
  (Rule.anyOf [unsignedHex, unsignedOctal, unsignedDecimal]).named "integer"

/-- A decimal integer after an optional sign. -/
def signedDecimal : Rule N U :=
  .closing (.allOf [signMaybe, unsignedDecimal]) (DirectAction.toAction closeSigned)

/-- An integer in any of the three bases after an optional sign. -/
def signedAny : Rule N U :=
  .closing (.allOf [signMaybe, unsignedAny]) (DirectAction.toAction closeSigned)

/-! ## Decimals

Decimals are read in double precision.  Each of the rules leaves one value, the number nearest to
what is written, and fails if that is not finite.  None of them matches a bare integer. -/

/-- Replaces the results of a rule by the number that its last span stands for. -/
def closeDecimal {input : Array UInt8} (state : State input U) (start : Position) :
    Reply input U :=
  match (state.sliceSince start).bind Numeral.parse? with
  | none => state.fail (.message "malformed decimal")
  | some numeral =>
    let value := numeral.round .binary64
    if value.isFinite then state.okReplace start (.float value)
    else state.fail (.message "number out of range")

/-- `e` or `E`, an optional sign, and digits. -/
def exponent : Rule N U :=
  .allOf [.anyOf [.byte 0x65, .byte 0x45], signMaybe, decimalDigits]

/-- The span of a rule as a decimal. -/
def decimalFrom (rules : List (Rule N U)) : Rule N U :=
  .closing (Rule.allOf rules).flat (DirectAction.toAction closeDecimal)

/-- `sign? digits '.' digits`. -/
def decimalBasic : Rule N U :=
  decimalFrom [signMaybe, decimalDigits, .byte 0x2E, decimalDigits]

/-- `sign? digits '.' digits exponent?`. -/
def decimalWithExponent : Rule N U :=
  decimalFrom [signMaybe, decimalDigits, .byte 0x2E, decimalDigits, exponent.optional]

/-- `sign? digits? '.' digits exponent?` or `sign? digits exponent`. -/
def decimalAny : Rule N U :=
  (decimalFrom
    [signMaybe,
      .anyOf
        [.allOf [decimalDigits.optional, .byte 0x2E, decimalDigits, exponent.optional],
          .allOf [decimalDigits, exponent]]]).named "decimal"

end Leaf
end DocGrammar
