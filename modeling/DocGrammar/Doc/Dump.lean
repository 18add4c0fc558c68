import DocGrammar.Doc.Basic
import DocGrammar.Number.Notation
import DocGrammar.Text

/-!
# Documents in dump notation

For developers, a document in one line: its name if it has one, its type, and its value.
-/

set_option autoImplicit false

namespace DocGrammar
namespace Doc

/-- The components of a vector in dump notation. -/
def dumpComponents (components : List Binary32) : String :=
  Dump.list (components.map fun x ↦ String.ofList x.toShortest)

/-- A name and an equals sign, in front of a document that has a name. -/
def dumpName (name : Name) : String :=
  if name.isGiven then Dump.string name.text ++ " = " else ""

mutual

/-- A document in dump notation. -/
def dump : Doc → String
  | ⟨name, content⟩ => dumpName name ++ dumpContent content

/-- A content in dump notation. -/
def dumpContent : Content Doc → String
  | .null => "Null"
  | .integer value => Dump.apply "Integer" [Dump.int value.toInt]
  | .decimal value => Dump.apply "Decimal" [String.ofList value.toShortest]
  | .boolean value => Dump.apply "Boolean" [Dump.bool value]
  | .string value => Dump.apply "String" [Dump.string value]
  | .vector value => Dump.apply value.tag.name [dumpComponents value.components]
  | .collection form c => form.tag.name ++ " " ++ dumpCollection c

/-- The items of a collection in dump notation. -/
def dumpCollection : Collection Doc → String
  | ⟨items, _⟩ => Dump.list (dumpAll items)

/-- Documents in dump notation. -/
def dumpAll : List Doc → List String
  | [] => []
  | d :: rest => dump d :: dumpAll rest

end

end Doc
end DocGrammar
