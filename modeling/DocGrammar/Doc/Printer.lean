import DocGrammar.Doc.Basic
import DocGrammar.Number.Notation
import DocGrammar.Text

/-!
# Documents as text

`Doc.print` writes a document as canonical text.  The members of a root node stand on a line each,
as `name = value`, and so do the values of a root array; a root of any other type is a line by
itself.  Collections further in are written between brackets, a line for each child and a tab for
each level, or as a pair of brackets if they are empty.

Strings are always quoted; names only if they are not identifiers.  Decimals have seven places.
Components of vectors have as many digits as it takes to read them back, and always a point or an
exponent, so that they are not mistaken for integers.
-/

set_option autoImplicit false

namespace DocGrammar
namespace Doc

/-! ## Tokens -/

/-- Whether a name can be written without quotes. -/
def isBare (name : String) : Bool :=
  match Utf8.encode name with
  | [] => false
  | first :: rest => Byte.isIdentifierStart first && rest.all Byte.isIdentifier

/-- A member's name. -/
def nameText (name : String) : String := if isBare name then name else Quoted.encode name

/-- Places of a decimal. -/
def decimalPlaces : Nat := 7

/-- A vector's components between parentheses. -/
def vectorText (components : List Binary32) : String :=
  "(" ++ " ".intercalate (components.map fun x ↦ String.ofList x.toShortest) ++ ")"

/-- As many tabs as there are levels. -/
def indent (depth : Nat) : String := String.ofList (List.replicate depth '\t')

/-- The bracket that opens a collection. -/
def opener : Form → String
  | .array => "["
  | .node => "\x7b"

/-- The bracket that closes a collection. -/
def closer : Form → String
  | .array => "]"
  | .node => "\x7d"

/-- What stands before a child's value: in a node, its name. -/
def childHead (form : Form) (name : Name) : String :=
  match form with
  | .array => ""
  | .node => nameText name.text ++ " = "

/-! ## Values -/

mutual

/-- The value of a document, at a depth. -/
def valueText (depth : Nat) : Content Doc → String
  | .null => "null"
  | .integer value => Dump.int value.toInt
  | .decimal value => String.ofList (value.toPlaces decimalPlaces)
  | .boolean value => Dump.bool value
  | .string value => Quoted.encode value
  | .vector value => vectorText value.components
  | .collection form c => opener form ++ blockText depth form c ++ closer form

/-- What stands between the brackets of a collection. -/
def blockText (depth : Nat) (form : Form) : Collection Doc → String
  | ⟨[], _⟩ => ""
  | ⟨d :: rest, _⟩ => "\n" ++ linesText (depth + 1) form (d :: rest) ++ indent depth

/-- Children of a collection, a line for each. -/
def linesText (depth : Nat) (form : Form) : List Doc → String
  | [] => ""
  | ⟨name, content⟩ :: rest =>
    indent depth ++ childHead form name ++ valueText depth content ++ "\n" ++
      linesText depth form rest

end

/-- A document as canonical text. -/
def print (d : Doc) : String :=
  match d.content with
  | .collection form c => linesText 0 form c.items
  | content => valueText 0 content ++ "\n"

end Doc
end DocGrammar
