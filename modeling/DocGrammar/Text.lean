/-!
# Bytes and texts

The engine and the document format both work on bytes, not on characters; what is said about them,
in a diagnostic, a printed document or a dump, is text.  This file holds what every later file needs
to know of the two:

* `Byte`: which bytes make up an identifier, and how a byte is shown in a diagnostic;
* `Utf8`: the border between bytes and texts;
* `Quoted`: the double-quoted strings of a document;
* `Dump`: the one-line notation for developers.
-/

set_option autoImplicit false

namespace DocGrammar

/-! ## Bytes

Every byte from `0x80` up counts as a letter of an identifier (`Byte.isIdentifierStart`,
`Byte.isIdentifier`), so that names in any script can be written bare.  In a diagnostic
(`Byte.quoted`) printable ASCII stands for itself, the usual control characters and the quoting
characters are written with a backslash, and anything else as two hexadecimal digits. -/

namespace Byte

/-! ### Identifiers -/

/-- A decimal digit. -/
def isDigit (b : UInt8) : Bool := 0x30 ≤ b && b ≤ 0x39

/-- An ASCII letter. -/
def isLetter (b : UInt8) : Bool := (0x61 ≤ b && b ≤ 0x7A) || (0x41 ≤ b && b ≤ 0x5A)

/-- A byte an identifier may begin with: a letter, an underscore, or any byte outside ASCII. -/
def isIdentifierStart (b : UInt8) : Bool := isLetter b || b == 0x5F || 0x80 ≤ b

/-- A byte an identifier may go on with: as at its start, and digits and hyphens besides. -/
def isIdentifier (b : UInt8) : Bool := isIdentifierStart b || isDigit b || b == 0x2D

/-! ### Showing a byte -/

/-- Two lower-case hexadecimal digits. -/
def hex (b : UInt8) : String :=
  String.ofList [Nat.digitChar (b.toNat / 16), Nat.digitChar (b.toNat % 16)]

/-- A byte in printable ASCII: tab, newline, carriage return, both quotes and the backslash are
escaped by a backslash, other printable bytes stand for themselves, and the rest is `\xhh`. -/
def escaped (b : UInt8) : String :=
  if b = 0x09 then "\\t"
  else if b = 0x0A then "\\n"
  else if b = 0x0D then "\\r"
  else if b = 0x22 ∨ b = 0x27 ∨ b = 0x5C then
    String.ofList ['\\', Char.ofNat b.toNat]
  else if 0x20 ≤ b ∧ b ≤ 0x7E then String.singleton (Char.ofNat b.toNat)
  else "\\x" ++ hex b

/-- A byte between single quotes, as diagnostics name it. -/
def quoted (b : UInt8) : String := "'" ++ escaped b ++ "'"

/-- A byte string between double quotes, as diagnostics name it. -/
def quotedString (bytes : List UInt8) : String :=
  "\"" ++ String.join (bytes.map escaped) ++ "\""

/-! ### All bytes -/

/-- What holds of the first 256 numbers holds of every byte. -/
theorem forall_of_lt {P : UInt8 → Prop} (h : ∀ n < 256, P (UInt8.ofNat n)) (b : UInt8) : P b := by
  have hb := h b.toNat b.toNat_lt
  rwa [UInt8.ofNat_toNat] at hb

end Byte

/-! ## UTF-8

Input is bytes; the strings inside a document are text.  `Utf8.decode` is the border between the
two, `Utf8.encode` its inverse, and `Utf8.clip` cuts a text down to a number of bytes without
splitting a character. -/

namespace Utf8

/-- The bytes of a text. -/
def encode (text : String) : List UInt8 := text.toByteArray.data.toList

/-- The text a byte string encodes; `none` if it is not well-formed UTF-8. -/
def decode (bytes : List UInt8) : Option String := String.fromUTF8? ⟨bytes.toArray⟩

/-- The leading characters that fit into `room` bytes. -/
def fitting : Nat → List Char → List Char
  | _, [] => []
  | room, c :: rest =>
    if c.utf8Size ≤ room then c :: fitting (room - c.utf8Size) rest else []

/-- The longest part of a text from its start that has at most `limit` bytes and ends between two
characters. -/
def clip (limit : Nat) (text : String) : String := String.ofList (fitting limit text.toList)

end Utf8

/-! ## Double-quoted strings

A document writes its strings between double quotes.  `Quoted.encode` escapes the five characters
that could not stand there otherwise — tab, newline, carriage return, backslash and the double quote
itself — and `Quoted.unescape` resolves escapes on the reading side.  Reading is more liberal than
writing: a backslash before any other byte is dropped, whatever the byte. -/

namespace Quoted

/-- The characters a character is written as inside double quotes. -/
def escape (c : Char) : List Char :=
  if c = '\t' then ['\\', 't']
  else if c = '\n' then ['\\', 'n']
  else if c = '\r' then ['\\', 'r']
  else if c = '\\' then ['\\', '\\']
  else if c = '\"' then ['\\', '\"']
  else [c]

/-- A text with its escapes, without the quotes around it. -/
def body (text : String) : String := String.ofList (text.toList.flatMap escape)

/-- A text between double quotes. -/
def encode (text : String) : String := "\"" ++ body text ++ "\""

/-- The byte that a backslash and the byte `b` stand for together. -/
def resolve (b : UInt8) : UInt8 :=
  if b = 0x74 then 0x09
  else if b = 0x6E then 0x0A
  else if b = 0x72 then 0x0D
  else b

/-- Resolves the escapes of a string, left to right.  A backslash that ends the string has nothing
to escape and stands for itself. -/
def unescape : List UInt8 → List UInt8
  | [] => []
  | [b] => [b]
  | b :: c :: rest =>
    if b = 0x5C then resolve c :: unescape rest else b :: unescape (c :: rest)

end Quoted

/-! ## The dump notation

Besides their proper text, documents, rules and parse states have a *dump*: an unambiguous one-line
notation for developers, in which every value is written with its constructor and every string with
its quotes.  The notation itself is here — quoted strings and characters, lists, applications and
records — and each type's own `dump` is built from it. -/

namespace Dump

/-! ### Quoting -/

/-- A control character, or one of the two invisible characters of the first 256. -/
def isHidden (c : Char) : Bool :=
  c.toNat < 0x20 || (0x7F ≤ c.toNat && c.toNat ≤ 0xA0) || c.toNat == 0xAD

/-- A character inside the quotes `quote`: nothing in the result is hidden, and an unescaped
`quote` does not occur. -/
def escape (quote c : Char) : String :=
  if c.toNat = 0 then "\\0"
  else if c = '\t' then "\\t"
  else if c = '\n' then "\\n"
  else if c = '\r' then "\\r"
  else if c = '\\' ∨ c = quote then String.ofList ['\\', c]
  else if isHidden c then
    "\\u\x7b" ++ String.ofList (Nat.toDigits 16 c.toNat) ++ "\x7d"
  else String.singleton c

/-- A text in double quotes. -/
def string (text : String) : String :=
  "\"" ++ String.join (text.toList.map (escape '\"')) ++ "\""

/-- A byte, read as one of the first 256 characters, in single quotes. -/
def byteChar (b : UInt8) : String := "'" ++ escape (Char.ofNat 0x27) (Char.ofNat b.toNat) ++ "'"

/-! ### Numbers -/

/-- A natural number in decimal digits. -/
def nat (n : Nat) : String := String.ofList (Nat.toDigits 10 n)

/-- An integer in decimal digits, with a minus sign if it is negative. -/
def int : Int → String
  | .ofNat n => nat n
  | .negSucc n => "-" ++ nat (n + 1)

/-- Truth values by name. -/
def bool : Bool → String
  | true => "true"
  | false => "false"

/-! ### Compound values -/

/-- Items between square brackets. -/
def list (items : List String) : String := "[" ++ ", ".intercalate items ++ "]"

/-- A constructor applied to arguments. -/
def apply (constructor : String) (arguments : List String) : String :=
  constructor ++ "(" ++ ", ".intercalate arguments ++ ")"

/-- An optional value. -/
def option : Option String → String
  | none => "None"
  | some value => apply "Some" [value]

/-- A record's field with its name. -/
def field (name value : String) : String := name ++ ": " ++ value

/-- A record: its name, and its fields between braces. -/
def record (name : String) (fields : List String) : String :=
  name ++ " \x7b " ++ ", ".intercalate fields ++ " \x7d"

/-- A list of bytes, as numbers. -/
def bytes (items : List UInt8) : String := list (items.map fun b ↦ nat b.toNat)

end Dump
end DocGrammar
