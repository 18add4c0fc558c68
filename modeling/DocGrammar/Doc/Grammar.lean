import DocGrammar.Doc.Builder
import DocGrammar.Doc.Fluff
import DocGrammar.Grammar.Evaluate
import DocGrammar.Grammar.Leaf
import DocGrammar.Text

/-!
# The grammar of documents

A document is a list of members `name = value`.  A value is a keyword, a number, a string, a
vector of numbers between parentheses, an array of values between square brackets, or a node of
members between braces, with fluff in between.

The grammar is written down rule by rule for the engine, with a `Builder` as its user data.  Its
alternatives overlap: a keyword is also an identifier, and a decimal begins like an integer.  So
their order matters, and keywords and numbers have to be followed by something that cannot go on
in the same word.

Backtracking undoes results but not the builder.  That does no harm, because a value is only added
when its last byte has been read, and a collection that fails is dropped by the action that opened
it.

`Doc.read` and `Doc.parse` run the grammar on bytes and on a text.
-/

set_option autoImplicit false

namespace DocGrammar

/-- The symbols of the grammar of documents. -/
inductive Symbol where
  | document
  | member
  | value
  /-- The members of a node, between its braces. -/
  | nodeBody
  /-- The values of an array, between its brackets. -/
  | arrayBody
  deriving DecidableEq

namespace TextGrammar

/-- A rule of the grammar of documents. -/
abbrev TextRule := Rule Symbol Builder

/-- An action as a rule. -/
def act (action : DirectAction Builder) : TextRule := .leaf (DirectAction.toAction action)

/-- An action on what a rule matched, as a rule. -/
def after (inner : TextRule) (action : DirectAction Builder) : TextRule :=
  .closing inner (DirectAction.toAction action)

/-- A rule, and the fluff behind it. -/
def thenFluff (rule : TextRule) : TextRule := .allOf [rule, act Fluff.skip]

variable {input : Array UInt8}

/-- The builder changed, and the results since a position dropped. -/
def built (state : State input Builder) (start : Position) (change : Builder → Builder) :
    Reply input Builder :=
  { state with user := change state.user }.okTruncate start

/-! ## Words that must not run on -/

/-- Fails before a byte that could go on a keyword or a number. -/
def delimiter (state : State input Builder) (_ : Position) : Reply input Builder :=
  match state.peek with
  | some b =>
    if Byte.isIdentifier b || b == 0x2E then state.fail (.message "expected delimiter")
    else (.ok, state)
  | none => (.ok, state)

/-- A rule whose match must not run on. -/
def delimited (rule : TextRule) : TextRule := .allOf [rule, act delimiter]

/-! ## Strings -/

/-- Keeps a text as the last string that was read; a byte string that is no text is an error. -/
def keepText (text : Option String) (state : State input Builder) (start : Position) :
    Reply input Builder :=
  match text with
  | some text => built state start fun b ↦ { b with scratch := text }
  | none => state.fail (.message "invalid UTF-8 in string")

/-- Keeps the last span as it is. -/
def keepRaw (state : State input Builder) (start : Position) : Reply input Builder :=
  keepText (Utf8.decode ((state.sliceSince start).getD [])) state start

/-- Keeps the last span with its escapes resolved. -/
def keepUnescaped (state : State input Builder) (start : Position) : Reply input Builder :=
  keepText (Utf8.decode (Quoted.unescape ((state.sliceSince start).getD []))) state start

/-- The bytes an identifier may begin with. -/
def identifierStart : List TextRule :=
  [.range 0x61 0x7A, .range 0x41 0x5A, .byte 0x5F, .range 0x80 0xFF]

/-- An identifier. -/
def identifier : TextRule :=
  after
    (Rule.allOf
      [.anyOf identifierStart,
        (Rule.anyOf (identifierStart ++ [.range 0x30 0x39, .byte 0x2D])).repeatedOrNone]).flat
    keepRaw

/-- A byte of a quoted string that stands for itself: neither a quote nor a backslash nor a
newline. -/
def plain : TextRule :=
  .anyOf [.range 0x00 0x09, .range 0x0B 0x21, .range 0x23 0x5B, .range 0x5D 0xFF]

/-- A backslash and any byte. -/
def escapePair : TextRule := .allOf [.byte 0x5C, .range 0x00 0xFF]

/-- The closing quote. -/
def quotedEnd (state : State input Builder) (_ : Position) : Reply input Builder :=
  match state.peek with
  | some b =>
    if b = 0x22 then (.ok, state.advance 1)
    else if b = 0x0A then state.fail (.message "unexpected newline in double-quoted string")
    else state.fail (.message "unterminated double-quoted string")
  | none => state.fail (.message "unterminated double-quoted string")

/-- A string between double quotes. -/
def quotedString : TextRule :=
  after
    (.allOf
      [(Rule.byte 0x22).lookahead, (Rule.anyOf [escapePair, plain]).repeatedOrNone.flat,
        act quotedEnd])
    keepUnescaped

/-- What opens and closes a block string. -/
def fence : List UInt8 := [0x60, 0x60, 0x60]

/-- The bytes before the first fence. -/
def beforeFence : List UInt8 → Option (List UInt8)
  | [] => none
  | b :: rest =>
    if fence.isPrefixOf (b :: rest) then some [] else (beforeFence rest).map (b :: ·)

/-- Everything up to the closing fence. -/
def blockBody (state : State input Builder) (_ : Position) : Reply input Builder :=
  match beforeFence state.rest with
  | some body => (state.advance (body.length + fence.length)).okWith (.slice body)
  | none => (state.moveTo input.size).fail (.message "unterminated block string")

/-- A string between fences. -/
def blockString : TextRule :=
  after (.allOf [(Rule.literal fence).lookahead, act blockBody]) keepRaw

/-- A string in any of its three spellings. -/
def string : TextRule := (Rule.anyOf [identifier, quotedString, blockString]).named "string"

/-! ## Numbers -/

/-- Fails on a word that begins like a number but is none. -/
def rejectNumber (state : State input Builder) (start : Position) : Reply input Builder :=
  let token := state.matched start
  if token.any Byte.isDigit then
    if (Numeral.parse? token).any fun numeral ↦ (numeral.round .binary64).isInfinite then
      state.fail (.message "number out of range")
    else state.fail (.message "malformed number")
  else state.fail (.message "missing numeral part in number")

/-- Anything that begins like a number.  It is tried when no number matched; it consumes the whole
word, so that its failure lies further on than theirs. -/
def malformedNumber : TextRule :=
  after
    (Rule.allOf
      [.anyOf [.range 0x30 0x39, .byte 0x2B, .byte 0x2D, .byte 0x2E],
        (Rule.anyOf
          [.range 0x61 0x7A, .range 0x41 0x5A, .range 0x30 0x39, .range 0x80 0xFF, .byte 0x5F,
            .byte 0x2D, .byte 0x2B, .byte 0x2E]).repeatedOrNone]).flat
    rejectNumber

/-! ## Scalars and vectors -/

/-- The content that a result stands for. -/
def scalar? : Value → Option (Content Doc)
  | .null => some .null
  | .bool value => some (.boolean value)
  | .signed value => some (.integer value)
  | .float value => some (.decimal value)
  | _ => none

/-- Adds the last result as a value. -/
def emitScalar (state : State input Builder) (start : Position) : Reply input Builder :=
  match (state.resultsSince start).getLast?.bind scalar? with
  | some content => built state start (·.emit content)
  | none => state.fail (.message "expected value")

/-- Adds the last string as a value. -/
def emitString (state : State input Builder) (start : Position) : Reply input Builder :=
  built state start fun b ↦ { b.emit (.string b.scratch) with scratch := "" }

/-- A number on the result stack in single precision. -/
def component (value : Value) : Binary32 := (value.toFloat?.getD .zero).convert .binary32

/-- Adds the results as a vector. -/
def emitVector (state : State input Builder) (start : Position) : Reply input Builder :=
  let components := (state.resultsSince start).map component
  match Vec.ofList? components with
  | some v =>
    if components.all Binary.isFinite then built state start (·.emit (.vector v))
    else state.fail (.message "number out of range")
  | none =>
    if components = [] then state.fail (.message "invalid value: empty vector")
    else state.fail (.message "too many values in vector")

/-- A vector: numbers between parentheses. -/
def vector : TextRule :=
  (after
    (.bounded 0x28 0x29
      (.allOf
        [act Fluff.skip,
          (thenFluff
            (.anyOf
              [delimited Leaf.decimalAny, delimited Leaf.signedAny,
                malformedNumber])).repeatedOrNone]))
    emitVector).named "vector"

/-! ## Collections -/

/-- The byte that opens a collection. -/
def opener : Form → UInt8
  | .array => 0x5B
  | .node => 0x7B

/-- The byte that closes a collection. -/
def closer : Form → UInt8
  | .array => 0x5D
  | .node => 0x7D

/-- The symbol of what stands in a collection, brackets included. -/
def bodyOf : Form → Symbol
  | .array => .arrayBody
  | .node => .nodeBody

/-- Opens a collection, has its body matched, and closes it, or drops it if the body does not
match. -/
def scope (form : Form) : Action Symbol Builder := fun state _ ↦
  if state.peek = some (opener form) then
    .call (bodyOf form) { state with user := state.user.openBranch form } fun (outcome, state) ↦
      let change := if outcome = .ok then Builder.closeBranch else Builder.discardBranch
      .done (outcome, { state with user := change state.user })
  else .done (state.fail (.expectedByte (opener form)))

/-- The closing bracket of a collection. -/
def collectionEnd (form : Form) (state : State input Builder) (_ : Position) :
    Reply input Builder :=
  match state.peek with
  | some b =>
    if b = closer form then (.ok, state.advance 1)
    else state.fail (.expectedByte (closer form))
  | none => state.fail (.message "unclosed collection at end of input")

/-- The body of a collection, given what it consists of. -/
def body (form : Form) (item : Symbol) : TextRule :=
  .allOf
    [(Rule.byte (opener form)).lookahead, act Fluff.skip,
      (thenFluff (.symbol item)).repeatedOrNone, act (collectionEnd form)]

/-! ## Members and the document -/

/-- Keeps the last string as the name of the next value. -/
def setName (state : State input Builder) (start : Position) : Reply input Builder :=
  built state start fun b ↦ { b with pending := some b.scratch, scratch := "" }

/-- A name and an equals sign. -/
def memberName : TextRule :=
  (after (.allOf [string, Leaf.spaceMaybe, (Rule.byte 0x3D).lookahead]) setName).named "name"

/-- `name = value`. -/
def member : TextRule :=
  (Rule.allOf [memberName, act Fluff.skip, .symbol .value]).named "member"

/-- A keyword or a number. -/
def scalar : TextRule :=
  after
    (.anyOf
      [delimited Leaf.null, delimited Leaf.boolean, delimited Leaf.decimalAny,
        delimited Leaf.signedAny])
    emitScalar

/-- A value. -/
def value : TextRule :=
  (Rule.anyOf
    [scalar, malformedNumber, after string emitString, vector, .leaf (scope .array),
      .leaf (scope .node)]).named "value"

/-- The message about a closing bracket that nothing was opened for. -/
def unbalanced (bracket : String) : Reason :=
  .message ("unbalanced '" ++ bracket ++ "' at root level")

/-- The end of the document. -/
def documentEnd (state : State input Builder) (_ : Position) : Reply input Builder :=
  match state.peek with
  | none => (.ok, state)
  | some b =>
    if b = 0x7D then state.fail (unbalanced "\x7d")
    else if b = 0x5D then state.fail (unbalanced "]")
    else if b = 0x29 then state.fail (unbalanced ")")
    else state.fail (.noAlternative (some "member"))

/-- Members up to the end of the input. -/
def document : TextRule :=
  (Rule.allOf
    [act Fluff.skip, (thenFluff (.symbol .member)).repeatedOrNone, act documentEnd]).named
    "document"

/-- The body of a node. -/
def nodeBody : TextRule := body .node .member

/-- The body of an array. -/
def arrayBody : TextRule := body .array .value

/-- The grammar of documents. -/
def grammar : Grammar Symbol Builder
  | .document => document
  | .member => member
  | .value => value
  | .nodeBody => nodeBody
  | .arrayBody => arrayBody

end TextGrammar

/-! ## Reading documents

`Doc.read` reads a document from bytes into a root that is already there.  The root keeps its
name; whatever else it was, it becomes a node with the document's members, or an empty node if the
bytes are no document.  `Doc.parse` reads a text into a new root.

The evaluator needs a budget.  Rules nest deeper only when a bracket is opened, which takes input,
so a budget linear in the size of the input is enough for any input. -/

namespace Doc

/-- The depth that evaluations may be nested to while `size` bytes are read. -/
def readBudget (size : Nat) : Nat := 8 * size + 32

/-- A root as reading finds it: a node without members, still of the same name. -/
def emptied (root : Doc) : Doc := (root.setTag .node).clear

/-- A collection as one that is open.  Anything else is opened as a node. -/
def toBranch : Doc → Branch
  | ⟨name, .collection form children⟩ => { name, form, children }
  | ⟨name, _⟩ => { name, form := .node }

/-- The state that reading starts from. -/
def initialState (root : Doc) (input : Array UInt8) : State input Builder :=
  .start input { current := root.emptied.toBranch }

/-- Reads a document from bytes into a root.  Returns the number of bytes consumed, or the error,
and what the root is then. -/
def read (root : Doc) (input : Array UInt8) : Except ParseError Nat × Doc :=
  match (initialState root input).parse TextGrammar.grammar (readBudget input.size)
      TextGrammar.document with
  | some (.ok consumed, state) => (.ok consumed, state.user.finish)
  | some (.error error, state) => (.error error, state.user.finish.clear)
  | none => (.error (.clipped {} "document nested too deeply"), root.emptied)

/-- Reads a document from a text. -/
def parse (text : String) : Except ParseError Doc :=
  let (result, root) := read {} (Utf8.encode text).toArray
  result.map fun _ ↦ root

end Doc
end DocGrammar
