import DocGrammar.Doc.Basic
import DocGrammar.Text

/-!
# Adding and removing children

The operations of a `Collection`, for the children of a document.  On a document that is no
collection each of them is a misuse; the one exception is reserving room for no further children,
which is never one, because nothing has to be done for it.
-/

set_option autoImplicit false

namespace DocGrammar

/-! ## Misuse of a document

Some operations make sense on some documents only: a number has no children to remove, a
collection has no child at an index beyond its last, and there is a limit to the room it can
have.  An operation that is out of place answers with a `Misuse` instead of a document. -/

/-- Why an operation is out of place. -/
inductive Misuse where
  /-- The document has no children, and cannot have any. -/
  | notCollection (tag : Tag)
  /-- The collection has no child at the index. -/
  | noSuchIndex (index size : Nat)
  /-- The collection has no child of the name. -/
  | noMember (name : String)
  /-- No memory could hold that many children. -/
  | tooLarge (capacity : Nat)
  deriving DecidableEq

namespace Misuse

/-- What is wrong. -/
def message : Misuse → String
  | notCollection tag => tag.name ++ " is not a collection"
  | noSuchIndex index size =>
    "no child at index " ++ Dump.nat index ++ " of " ++ Dump.nat size
  | noMember name => "no member named " ++ Dump.string name
  | tooLarge capacity => "no room for " ++ Dump.nat capacity ++ " children"

end Misuse

/-! ## Operations on the children -/

namespace Doc

/-- Runs an operation on the children of a document. -/
def edit {β : Type} (d : Doc) (operation : Collection Doc → Except Misuse (β × Collection Doc)) :
    Except Misuse (β × Doc) :=
  match d.content with
  | .collection form c =>
    (operation c).map fun (result, c) ↦ (result, d.withContent (.collection form c))
  | _ => .error (.notCollection d.tag)

/-- Runs an operation on the children of a document that answers nothing. -/
def update (d : Doc) (operation : Collection Doc → Except Misuse (Collection Doc)) :
    Except Misuse Doc :=
  (d.edit fun c ↦ (operation c).map fun c ↦ ((), c)).map Prod.snd

/-- A collection with the room it has been given, if memory could hold that much. -/
def withinLimit (c : Collection Doc) : Except Misuse (Collection Doc) :=
  if c.isWithinLimit then .ok c else .error (.tooLarge c.capacity)

/-! ## Room -/

/-- Sets the exact capacity, and drops the children there is no room for any more. -/
def setCapacity (d : Doc) (n : Nat) : Except Misuse Doc :=
  d.update fun c ↦ withinLimit (c.setCapacity n)

/-- Doubles the capacity and adds eight, or makes it `least` if that is more. -/
def grow (d : Doc) (least : Nat) : Except Misuse Doc := d.update fun c ↦ withinLimit (c.grow least)

/-- Makes room for `additional` more children.  The sum `size + additional` is exact.  One that a
machine word does not hold is far beyond the limit and so `tooLarge`, as where arithmetic is checked
for overflow; it never wraps round to a small number that there is room for already. -/
def reserve (d : Doc) (additional : Nat) : Except Misuse Doc :=
  if d.capacity < d.size + additional then d.update fun c ↦ withinLimit (c.reserve additional)
  else .ok d

/-- Gives up all unused room. -/
def shrinkToFit (d : Doc) : Except Misuse Doc := d.update fun c ↦ .ok c.shrinkToFit

/-- Makes the number of children `n`, by dropping the last ones or by adding unnamed nulls. -/
def resize (d : Doc) (n : Nat) : Except Misuse Doc :=
  d.update fun c ↦ (withinLimit (c.ensure n)).map (·.fill n {})

/-! ## Children -/

/-- Adds a child at the end. -/
def push (d child : Doc) : Except Misuse Doc :=
  d.update fun c ↦ (withinLimit c.ensureSpace).map (·.append child)

/-- Takes the last child off, if there is one. -/
def pop (d : Doc) : Except Misuse (Option Doc × Doc) := d.edit fun c ↦ .ok c.pop

/-- An index that there may be no child at. -/
def orNoSuchIndex {β : Type} (index size : Nat) : Option β → Except Misuse β
  | some result => .ok result
  | none => .error (.noSuchIndex index size)

/-- Takes out the child at an index; the children after it move up. -/
def remove (d : Doc) (index : Nat) : Except Misuse (Doc × Doc) :=
  d.edit fun c ↦ orNoSuchIndex index c.size (c.remove? index)

/-- Takes out the child at an index; the last child moves into its place. -/
def removeOver (d : Doc) (index : Nat) : Except Misuse (Doc × Doc) :=
  d.edit fun c ↦ orNoSuchIndex index c.size (c.removeOver? index)

/-! ## Children in place -/

/-- The child at an index. -/
def child (d : Doc) (index : Nat) : Except Misuse Doc :=
  orNoSuchIndex index d.size d.children[index]?

/-- The last child. -/
def back? (d : Doc) : Option Doc := d.children.getLast?

/-- The document with its list of children replaced, if it is a collection. -/
def mapChildren (d : Doc) (f : List Doc → List Doc) : Doc :=
  match d.content with
  | .collection form c => d.withContent (.collection form { c with items := f c.items })
  | _ => d

/-- Changes the child at an index, if there is one. -/
def modifyChild (d : Doc) (index : Nat) (f : Doc → Doc) : Doc := d.mapChildren (·.modify index f)

/-- Runs an operation on the document that a path of indices leads to. -/
def editAt {β : Type} (operation : Doc → Except Misuse (β × Doc)) :
    List Nat → Doc → Except Misuse (β × Doc)
  | [], d => operation d
  | index :: path, d =>
    match d.child index with
    | .error misuse => .error misuse
    | .ok child =>
      (editAt operation path child).map fun (result, changed) ↦
        (result, d.modifyChild index fun _ ↦ changed)

/-- The document that a path of indices leads to. -/
def descend : List Nat → Doc → Except Misuse Doc
  | [], d => .ok d
  | index :: path, d =>
    match d.child index with
    | .error misuse => .error misuse
    | .ok child => descend path child

end Doc
end DocGrammar
