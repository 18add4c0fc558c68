import DocGrammar.Doc.Grammar

/-!
# Reading documents directly

The grammar of documents is evaluated by trying alternatives and going back.  This file defines a
reader that never goes back: at each place the next byte decides what is read.  It knows neither
rules nor states; it splits what it reads off a list of bytes and hands on the rest, or it gives
up.

From the inside out:

* `fluff` skips separators and comments;
* `string` reads one of the three spellings of a string;
* `keyword` and `number` read words, which must not run on (`isDelimited`);
* `items` reads things with fluff behind them up to a closing byte;
* `value`, `member` and `document` put these together.

`Proofs.Direct.Document` shows that it is the same language, with the same meaning.
-/

set_option autoImplicit false

namespace DocGrammar
namespace Direct

/-! ## Fluff -/

/-- The bytes behind fluff, when a part of the fluff was read before. -/
def fluffFrom : Fluff.Mode → List UInt8 → Option (List UInt8)
  | .block _, [] => none
  | _, [] => some []
  | .between, b :: rest =>
    if Fluff.isSeparator b then fluffFrom .between rest
    else if b = 0x2F then
      match rest with
      | [] => none
      | c :: rest' =>
        if c = 0x2F then fluffFrom .line rest'
        else if c = 0x2A then fluffFrom (.block 0) rest'
        else none
    else some (b :: rest)
  | .line, b :: rest => fluffFrom (if b = 0x0A then .between else .line) rest
  | .block depth, b :: rest =>
    match rest with
    | [] => none
    | c :: rest' =>
      if b = 0x2F ∧ c = 0x2A then fluffFrom (.block (depth + 1)) rest'
      else if b = 0x2A ∧ c = 0x2F then fluffFrom (Fluff.afterBlock depth) rest'
      else fluffFrom (.block depth) (c :: rest')

/-- The bytes behind fluff. -/
def fluff : List UInt8 → Option (List UInt8) := fluffFrom .between

section

variable {b c : UInt8}

theorem fluffFrom_separator (hb : Fluff.isSeparator b = true) (rest : List UInt8) :
    fluffFrom .between (b :: rest) = fluffFrom .between rest := by
  rw [fluffFrom.eq_def]
  exact if_pos hb

theorem fluffFrom_slashes (rest : List UInt8) :
    fluffFrom .between (0x2F :: 0x2F :: rest) = fluffFrom .line rest :=
  rfl

theorem fluffFrom_slash_star (rest : List UInt8) :
    fluffFrom .between (0x2F :: 0x2A :: rest) = fluffFrom (.block 0) rest :=
  rfl

/-- Fluff ends in front of what is neither a separator nor a slash. -/
theorem fluffFrom_solid (hseparator : Fluff.isSeparator b = false) (hslash : b ≠ 0x2F)
    (rest : List UInt8) : fluffFrom .between (b :: rest) = some (b :: rest) := by
  rw [fluffFrom.eq_def]
  dsimp only
  rw [hseparator, if_neg Bool.false_ne_true, if_neg hslash]

theorem fluffFrom_line (b : UInt8) (rest : List UInt8) :
    fluffFrom .line (b :: rest) = fluffFrom (if b = 0x0A then .between else .line) rest :=
  rfl

theorem fluffFrom_opener (depth : Nat) (rest : List UInt8) :
    fluffFrom (.block depth) (0x2F :: 0x2A :: rest) = fluffFrom (.block (depth + 1)) rest :=
  rfl

theorem fluffFrom_closer (depth : Nat) (rest : List UInt8) :
    fluffFrom (.block depth) (0x2A :: 0x2F :: rest) = fluffFrom (Fluff.afterBlock depth) rest :=
  rfl

/-- In a comment, a byte that does not begin a mark is passed over. -/
theorem fluffFrom_within (hopener : ¬(b = 0x2F ∧ c = 0x2A)) (hcloser : ¬(b = 0x2A ∧ c = 0x2F))
    (depth : Nat) (rest : List UInt8) :
    fluffFrom (.block depth) (b :: c :: rest) = fluffFrom (.block depth) (c :: rest) :=
  (if_neg hopener).trans (if_neg hcloser)

end

/-! ## Strings -/

/-- An identifier: as many identifier bytes as there are. -/
def identifier : List UInt8 → Option (List UInt8 × List UInt8)
  | [] => none
  | b :: rest =>
    if Byte.isIdentifierStart b then
      some (b :: rest.takeWhile Byte.isIdentifier, rest.dropWhile Byte.isIdentifier)
    else none

/-- A quoted string behind its opening quote, up to the first quote without a backslash.  A
backslash and the byte behind it, whatever it is, stand for one byte. -/
def quotedBody : List UInt8 → Option (List UInt8 × List UInt8)
  | [] => none
  | b :: rest =>
    if b = 0x22 then some ([], rest)
    else if b = 0x0A then none
    else if b = 0x5C then
      match rest with
      | [] => none
      | c :: rest' => (quotedBody rest').map fun (body, left) ↦ (Quoted.resolve c :: body, left)
    else (quotedBody rest).map fun (body, left) ↦ (b :: body, left)

theorem quotedBody_quote (rest : List UInt8) : quotedBody (0x22 :: rest) = some ([], rest) := by
  rw [quotedBody.eq_def]
  rfl

/-- A backslash and a byte behind it. -/
theorem quotedBody_escaped (b : UInt8) (rest : List UInt8) :
    quotedBody (0x5C :: b :: rest) =
      (quotedBody rest).map fun (body, left) ↦ (Quoted.resolve b :: body, left) :=
  rfl

/-- A byte that stands for itself between quotes. -/
theorem quotedBody_plain {b : UInt8} (hquote : b ≠ 0x22) (hnewline : b ≠ 0x0A)
    (hbackslash : b ≠ 0x5C) (rest : List UInt8) :
    quotedBody (b :: rest) = (quotedBody rest).map fun (body, left) ↦ (b :: body, left) := by
  rw [quotedBody.eq_def]
  dsimp only
  rw [if_neg hquote, if_neg hnewline, if_neg hbackslash]

/-- A block string behind its opening fence, up to the next fence. -/
def blockBody : List UInt8 → Option (List UInt8 × List UInt8)
  | [] => none
  | b :: rest =>
    if TextGrammar.fence.isPrefixOf (b :: rest) then some ([], rest.drop 2)
    else (blockBody rest).map fun (body, left) ↦ (b :: body, left)

/-- The text that bytes spell, with what is left. -/
def text : List UInt8 × List UInt8 → Option (String × List UInt8)
  | (bytes, left) => (Utf8.decode bytes).map (·, left)

/-- A string in any of its three spellings. -/
def string : List UInt8 → Option (String × List UInt8)
  | [] => none
  | b :: rest =>
    if b = 0x22 then (quotedBody rest).bind text
    else if TextGrammar.fence.isPrefixOf (b :: rest) then (blockBody (rest.drop 2)).bind text
    else (identifier (b :: rest)).bind text

/-! ## Words -/

/-- A word that ends here does not run on. -/
def isDelimited : List UInt8 → Bool
  | [] => true
  | b :: _ => !(Byte.isIdentifier b || b == 0x2E)

/-- A word and what it stands for. -/
def word (spelling : String) (content : Content Doc) (bytes : List UInt8) :
    Option (Content Doc × List UInt8) :=
  let letters := Utf8.encode spelling
  if letters.isPrefixOf bytes && isDelimited (bytes.drop letters.length) then
    some (content, bytes.drop letters.length)
  else none

/-- One of the three keywords. -/
def keyword (bytes : List UInt8) : Option (Content Doc × List UInt8) :=
  (word "null" .null bytes).or <| (word "true" (.boolean true) bytes).or <|
    word "false" (.boolean false) bytes

/-! ## Numbers -/

/-- A minus or a plus. -/
def isSign (b : UInt8) : Bool := b == 0x2D || b == 0x2B

/-- A sign, if there is one. -/
def sign : List UInt8 → List UInt8 × List UInt8
  | [] => ([], [])
  | b :: rest => if isSign b then ([b], rest) else ([], b :: rest)

/-- `e` or `E`, a sign or none, and digits. -/
def exponent : List UInt8 → Option (List UInt8 × List UInt8)
  | [] => none
  | b :: rest =>
    if b = 0x65 ∨ b = 0x45 then
      let (sign, rest) := sign rest
      let digits := rest.takeWhile Byte.isDigit
      if digits = [] then none else some (b :: (sign ++ digits), rest.dropWhile Byte.isDigit)
    else none

/-- A decimal: a sign or none, and either a point among digits, with an exponent if there is one, or
digits with an exponent. -/
def decimalToken (bytes : List UInt8) : Option (List UInt8 × List UInt8) :=
  let (sign, unsigned) := sign bytes
  let whole := unsigned.takeWhile Byte.isDigit
  match unsigned.dropWhile Byte.isDigit with
  | [] => none
  | b :: rest =>
    if b = 0x2E then
      let fraction := rest.takeWhile Byte.isDigit
      if fraction = [] then none
      else
        let left := rest.dropWhile Byte.isDigit
        match exponent left with
        | some (e, left) => some (sign ++ (whole ++ b :: (fraction ++ e)), left)
        | none => some (sign ++ (whole ++ b :: fraction), left)
    else if whole = [] then none
    else (exponent (b :: rest)).map fun (e, left) ↦ (sign ++ (whole ++ e), left)

/-- A decimal as the double-precision number nearest to it, which has to be finite. -/
def decimal (bytes : List UInt8) : Option (Content Doc × List UInt8) :=
  (decimalToken bytes).bind fun (token, left) ↦
    (Numeral.parse? token).bind fun numeral ↦
      let number := numeral.round .binary64
      if number.isFinite && isDelimited left then some (.decimal number, left) else none

/-- A digit below sixteen. -/
def isHexDigit (b : UInt8) : Bool :=
  Byte.isDigit b || (0x61 ≤ b && b ≤ 0x66) || (0x41 ≤ b && b ≤ 0x46)

/-- A digit below eight. -/
def isOctalDigit (b : UInt8) : Bool := 0x30 ≤ b && b ≤ 0x37

/-- The number that as many digits as there are stand for. -/
def digits (radix : Nat) (isDigit : UInt8 → Bool) (bytes : List UInt8) :
    Option (Nat × List UInt8) :=
  (Digits.value? radix (bytes.takeWhile isDigit)).map (·, bytes.dropWhile isDigit)

/-- A number without a sign.  It is hexadecimal if it begins with `0x` and a hexadecimal digit, and
otherwise octal if it begins with a zero. -/
def magnitude : List UInt8 → Option (Nat × List UInt8)
  | [] => none
  | b :: rest =>
    if b = 0x30 then
      match rest with
      | x :: h :: rest' =>
        if (x = 0x78 ∨ x = 0x58) ∧ isHexDigit h then digits 16 isHexDigit (h :: rest')
        else digits 8 isOctalDigit rest
      | _ => digits 8 isOctalDigit rest
    else if Byte.isDigit b then digits 10 Byte.isDigit (b :: rest)
    else none

/-- A whole number of 64 bits. -/
def integer (bytes : List UInt8) : Option (Content Doc × List UInt8) :=
  let (sign, unsigned) := sign bytes
  (magnitude unsigned).bind fun (n, left) ↦
    let number : Int := if sign = [0x2D] then -n else n
    if -0x8000000000000000 ≤ number ∧ number < 0x8000000000000000 ∧ isDelimited left then
      some (.integer (Int64.ofInt number), left)
    else none

/-- A decimal, or else a whole number. -/
def number (bytes : List UInt8) : Option (Content Doc × List UInt8) :=
  (decimal bytes).or (integer bytes)

/-- A byte that a number may begin with. -/
def startsNumber (b : UInt8) : Bool := Byte.isDigit b || isSign b || b == 0x2E

/-! ## Vectors and collections -/

/-- An item, and the fluff behind it. -/
def withFluff {α : Type} (item : List UInt8 → Option (α × List UInt8)) (bytes : List UInt8) :
    Option (α × List UInt8) :=
  (item bytes).bind fun (x, rest) ↦ (fluff rest).map (x, ·)

/-- Items with fluff behind each, up to a closing byte or, if there is none, up to the end.  An item
takes a byte at least, so there need be no more rounds than there are bytes, and one to close. -/
def items {α : Type} (item : List UInt8 → Option (α × List UInt8)) (closer : Option UInt8) :
    Nat → List UInt8 → Option (List α × List UInt8)
  | 0, _ => none
  | rounds + 1, bytes =>
    if bytes.head? = closer then some ([], bytes.drop 1)
    else
      (withFluff item bytes).bind fun (x, rest) ↦
        (items item closer rounds rest).map fun (xs, left) ↦ (x :: xs, left)

/-- Fluff, and items up to a closing byte. -/
def enclosed {α : Type} (item : List UInt8 → Option (α × List UInt8)) (closer : Option UInt8)
    (bytes : List UInt8) : Option (List α × List UInt8) :=
  (fluff bytes).bind fun rest ↦ items item closer (rest.length + 1) rest

/-- A number in single precision. -/
def component : Content Doc → Binary32
  | .decimal x => x.convert .binary32
  | .integer n => (Binary.ofInt .binary64 n.toInt).convert .binary32
  | _ => .zero

/-- One to four numbers as a vector, if all are finite in single precision. -/
def vector (numbers : List (Content Doc)) : Option (Content Doc) :=
  (Vec.ofList? (numbers.map component)).bind fun v ↦
    if v.components.all Binary.isFinite then some (.vector v) else none

/-- Documents as a collection that has grown by taking them in one by one. -/
def gather (docs : List Doc) : Collection Doc := docs.foldl Collection.push {}

/-- A space or a tab. -/
def isBlank (b : UInt8) : Bool := b == 0x20 || b == 0x09

/-- A string, blanks and an equals sign. -/
def heading (bytes : List UInt8) : Option (String × List UInt8) :=
  (string bytes).bind fun (name, rest) ↦
    match rest.dropWhile isBlank with
    | [] => none
    | b :: rest => if b = 0x3D then some (name, rest) else none

/-- A heading, fluff and a value. -/
def member (value : List UInt8 → Option (Content Doc × List UInt8)) (bytes : List UInt8) :
    Option (Doc × List UInt8) :=
  (heading bytes).bind fun (name, rest) ↦
    ((fluff rest).bind value).map fun (content, left) ↦ (⟨.ofString name, content⟩, left)

/-- A value without a name. -/
def element (value : List UInt8 → Option (Content Doc × List UInt8)) (bytes : List UInt8) :
    Option (Doc × List UInt8) :=
  (value bytes).map fun (content, left) ↦ (⟨.empty, content⟩, left)

/-- A value, chosen by its first byte, with collections nested no deeper than `depth`. -/
def value : Nat → List UInt8 → Option (Content Doc × List UInt8)
  | 0, _ => none
  | _ + 1, [] => none
  | depth + 1, b :: rest =>
    if b = 0x5B then
      (enclosed (element (value depth)) (some 0x5D) rest).map fun (docs, left) ↦
        (.collection .array (gather docs), left)
    else if b = 0x7B then
      (enclosed (member (value depth)) (some 0x7D) rest).map fun (docs, left) ↦
        (.collection .node (gather docs), left)
    else if b = 0x28 then
      (enclosed number (some 0x29) rest).bind fun (numbers, left) ↦
        (vector numbers).map (·, left)
    else if startsNumber b then number (b :: rest)
    else if b = 0x22 ∨ b = 0x60 then
      (string (b :: rest)).map fun (text, left) ↦ (.string text, left)
    else if Byte.isIdentifierStart b then
      (keyword (b :: rest)).or <|
        (string (b :: rest)).map fun (text, left) ↦ (.string text, left)
    else none

/-- The members of a document.  Every bracket takes a byte, so collections are not nested deeper
than there are bytes. -/
def document (bytes : List UInt8) : Option (List Doc) :=
  (enclosed (member (value (bytes.length + 1))) none bytes).map Prod.fst

end Direct
end DocGrammar
