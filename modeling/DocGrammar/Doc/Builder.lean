import DocGrammar.Doc.Basic

/-!
# Building a document

While a document is read, the collections whose opening bracket has been read and whose closing
one has not are *open*, one inside the other.  A `Builder` holds them: the innermost, which takes
the next value, and those around it.  It also holds the name that the next value is to have, and
the last string that was read.

A finished value is added at once.  A collection is added to the one around it when it is closed,
and dropped when the text inside it turns out to be wrong.
-/

set_option autoImplicit false

namespace DocGrammar

/-- A collection that is still open. -/
structure Branch where
  name : Name := .empty
  form : Form
  children : Collection Doc := {}

namespace Branch

/-- The collection as it is so far. -/
def toDoc (b : Branch) : Doc := ⟨b.name, .collection b.form b.children⟩

/-- Adds a child. -/
def push (b : Branch) (child : Doc) : Branch := { b with children := b.children.push child }

end Branch

/-- A document under construction. -/
structure Builder where
  /-- The innermost open collection. -/
  current : Branch
  /-- The open collections around it, the outermost last. -/
  enclosing : List Branch := []
  /-- The name of the next value. -/
  pending : Option String := none
  /-- The last string that was read. -/
  scratch : String := ""

namespace Builder

/-- The pending name, or none at all. -/
def nextName (b : Builder) : Name :=
  match b.pending with
  | some name => .ofString name
  | none => .empty

/-- Adds a value under the pending name. -/
def emit (b : Builder) (content : Content Doc) : Builder :=
  { b with current := b.current.push ⟨b.nextName, content⟩, pending := none }

/-- Starts a collection under the pending name. -/
def openBranch (b : Builder) (form : Form) : Builder :=
  { b with
    current := { name := b.nextName, form }
    enclosing := b.current :: b.enclosing
    pending := none }

/-- Adds the innermost open collection to the one around it. -/
def closeBranch (b : Builder) : Builder :=
  match b.enclosing with
  | parent :: rest => { b with current := parent.push b.current.toDoc, enclosing := rest }
  | [] => b

/-- Drops the innermost open collection. -/
def discardBranch (b : Builder) : Builder :=
  match b.enclosing with
  | parent :: rest => { b with current := parent, enclosing := rest }
  | [] => b

/-- The outermost open collection. -/
def finish (b : Builder) : Doc := ((b.enclosing.getLast?).getD b.current).toDoc

end Builder
end DocGrammar
