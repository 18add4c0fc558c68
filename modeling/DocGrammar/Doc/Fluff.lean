import DocGrammar.Grammar.Rule

/-!
# Fluff

Between the tokens of a document there may be fluff: blanks, commas and semicolons, all of which
mean nothing, comments from `//` to the end of the line, and comments between `/*` and `*/`, which
nest.  `Fluff.scan` skips it in one pass over the bytes.  It always finds the end of the fluff; but
a slash that starts no comment, and a comment that is never closed, are errors.
-/

set_option autoImplicit false

namespace DocGrammar
namespace Fluff

/-- Where in the fluff the scan is. -/
inductive Mode where
  /-- Between separators and comments. -/
  | between
  /-- In a comment that ends with the line. -/
  | line
  /-- In a comment that is nested in `depth` others. -/
  | block (depth : Nat)
  deriving DecidableEq

/-- How fluff ends. -/
inductive Ending where
  /-- With something that is no fluff, or with the input. -/
  | clean
  /-- With a slash that starts no comment. -/
  | straySlash
  /-- With the input, inside a comment that is not closed. -/
  | unclosed
  deriving DecidableEq

/-- A blank, a comma or a semicolon. -/
def isSeparator (b : UInt8) : Bool :=
  b == 0x20 || b == 0x09 || b == 0x0A || b == 0x0D || b == 0x2C || b == 0x3B

/-- What follows when a comment nested in `depth` others is closed. -/
def afterBlock : Nat → Mode
  | 0 => .between
  | depth + 1 => .block depth

/-- How fluff ends when the input does. -/
def Mode.ending : Mode → Ending
  | .between | .line => .clean
  | .block _ => .unclosed

/-- How the fluff ends that stands at an offset, and where.  The two bytes of a comment mark are
always taken together.  Every round takes a byte at least, so there need be no more rounds than
there are bytes. -/
def scan (input : Array UInt8) : Nat → Mode → Nat → Ending × Nat
  | 0, mode, offset => (mode.ending, offset)
  | rounds + 1, mode, offset =>
    match input[offset]? with
    | none => (mode.ending, offset)
    | some b =>
      match mode with
      | .between =>
        if isSeparator b then scan input rounds .between (offset + 1)
        else if b = 0x2F then
          if input[offset + 1]? = some 0x2F then scan input rounds .line (offset + 2)
          else if input[offset + 1]? = some 0x2A then scan input rounds (.block 0) (offset + 2)
          else (.straySlash, offset)
        else (.clean, offset)
      | .line => scan input rounds (if b = 0x0A then .between else .line) (offset + 1)
      | .block depth =>
        if b = 0x2F ∧ input[offset + 1]? = some 0x2A then
          scan input rounds (.block (depth + 1)) (offset + 2)
        else if b = 0x2A ∧ input[offset + 1]? = some 0x2F then
          scan input rounds (afterBlock depth) (offset + 2)
        else scan input rounds (.block depth) (offset + 1)

/-- The action that skips fluff.  It fails where the fluff ends, if it does not end cleanly. -/
def skip {U : Type} {input : Array UInt8} (state : State input U) (_ : Position) :
    Reply input U :=
  let (ending, offset) := scan input (input.size - state.cursor) .between state.cursor
  let state := state.moveTo offset
  match ending with
  | .clean => (.ok, state)
  | .straySlash => state.fail (.message "expected comment after '/'")
  | .unclosed => state.fail (.message "unterminated block comment")

end Fluff
end DocGrammar
