import DocGrammar.Text

/-!
# Failures and how they are told

Wherever a rule does not match, it records a `Failure`: an offset, the byte found there and the
reason.  Most failures are forgotten when another alternative matches; the text of the one that is
reported in the end is `Failure.message`, and with the line and column of its offset it becomes a
`ParseError`.
-/

set_option autoImplicit false

namespace DocGrammar

/-! ## Locations -/

/-- A place in the input for readers: lines and columns count from one, columns in bytes. -/
structure Location where
  line : Nat := 1
  column : Nat := 1
  deriving DecidableEq

namespace Location

/-- The place after a byte. -/
def next (l : Location) (b : UInt8) : Location :=
  if b = 0x0A then ⟨l.line + 1, 1⟩ else ⟨l.line, l.column + 1⟩

/-- The place after a run of bytes. -/
def skip (l : Location) (bytes : List UInt8) : Location := bytes.foldl next l

end Location

/-! ## Failures -/

/-- Why a rule failed. -/
inductive Reason where
  | expectedByte (byte : UInt8)
  | expectedRange (low high : UInt8)
  | expectedLiteral (bytes : List UInt8)
  | expectedStart
  | expectedEnd
  | expectedEmpty
  | expectedOpener (byte : UInt8)
  | expectedCloser (byte : UInt8)
  /-- Every alternative of a choice failed; the choice's name, if it has one. -/
  | noAlternative (name : Option String)
  /-- A complete message of its own. -/
  | message (text : String)
  deriving DecidableEq

/-- A failure at a byte offset. -/
structure Failure where
  offset : Nat
  /-- The byte at the offset, unless the input ends there. -/
  found : Option UInt8
  reason : Reason
  deriving DecidableEq

namespace Failure

/-- What was found instead. -/
def foundText : Option UInt8 → String
  | some b => ", found " ++ Byte.quoted b
  | none => ", found end of input"

/-- What was expected, and what was found; a message of its own stands alone. -/
def message (f : Failure) : String :=
  let told (expected : String) := "expected " ++ expected ++ foundText f.found
  match f.reason with
  | .expectedByte b => told (Byte.quoted b)
  | .expectedRange low high =>
    told ("within range " ++ Byte.quoted low ++ "..=" ++ Byte.quoted high)
  | .expectedLiteral bytes => told (Byte.quotedString bytes)
  | .expectedStart => told "beginning of input"
  | .expectedEnd => told "end of input"
  | .expectedEmpty => told "empty input"
  | .expectedOpener b => told ("bound opener " ++ Byte.quoted b)
  | .expectedCloser b => told ("bound closer " ++ Byte.quoted b)
  | .noAlternative (some name) => told name
  | .noAlternative none => told "sub-match"
  | .message text => text

end Failure

/-! ## Parse errors -/

/-- A failed parse, as it is reported. -/
structure ParseError where
  location : Location
  message : String
  deriving DecidableEq

namespace ParseError

/-- The most bytes a message has. -/
def messageLimit : Nat := 512

/-- An error whose message is cut to the limit. -/
def clipped (location : Location) (message : String) : ParseError :=
  ⟨location, Utf8.clip messageLimit message⟩

/-- The error on one line, its location first. -/
def text (e : ParseError) : String :=
  "[" ++ Dump.nat e.location.line ++ ":" ++ Dump.nat e.location.column ++ "]: " ++ e.message

end ParseError
end DocGrammar
