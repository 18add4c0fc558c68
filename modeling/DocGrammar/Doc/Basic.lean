import DocGrammar.Doc.Collection
import DocGrammar.Number.Format
import DocGrammar.Text

/-!
# Documents

A document is a tree.  Each of its nodes, a `Doc`, has a name, which may be empty, and a content:
a scalar, a string, a vector of one to four components, or a collection of further nodes.  There
are two forms of collection, arrays and nodes; the library treats them alike, but they are written
differently, and by convention the children of an array are unnamed.

The `Tag` of a document is the type of its content, and `Content.ofTag` the empty content of a type.
-/

set_option autoImplicit false

namespace DocGrammar

/-! ## Names

A document's children are found by name.  To make that fast a name carries a 32-bit hash of its
text, computed once: FNV-1a over the bytes, except that the empty name, which means having none,
hashes to zero.  The hash is part of the type together with the proof that it is right, so a name
cannot be changed without it. -/

/-- One round of FNV-1a. -/
def mixByte (hash : UInt32) (b : UInt8) : UInt32 := (hash ^^^ b.toUInt32) * 0x01000193

/-- The 32-bit FNV-1a hash of a byte string. -/
def fnv1a (bytes : List UInt8) : UInt32 := bytes.foldl mixByte 0x811C9DC5

/-- The hash of a name. -/
def hashName (text : String) : UInt32 := if text = "" then 0 else fnv1a (Utf8.encode text)

/-- A name with its hash. -/
structure Name where
  text : String := ""
  hash : UInt32 := hashName text
  hash_eq : hash = hashName text := by rfl

namespace Name

/-- The empty name: no name at all. -/
def empty : Name := {}

/-- The name with a given text. -/
def ofString (text : String) : Name := { text }

/-- Whether there is a name. -/
def isGiven (n : Name) : Bool := n.text != ""

/-- Names with equal texts have equal hashes. -/
theorem ext_text {m n : Name} (h : m.text = n.text) : m = n := by
  cases m with
  | mk t a ha =>
    cases n with
    | mk u b hb =>
      obtain rfl : t = u := h
      subst ha hb
      rfl

instance : DecidableEq Name := fun m n ↦
  if h : m.text = n.text then isTrue (ext_text h) else isFalse fun e ↦ h (e ▸ rfl)

end Name

/-! ## Vectors -/

/-- One to four single-precision components. -/
structure Vec where
  components : List Binary32
  one_le_length : 1 ≤ components.length
  length_le_four : components.length ≤ 4
  deriving DecidableEq

/-- The vector with the given components, if it is not too short or too long. -/
def Vec.ofList? (components : List Binary32) : Option Vec :=
  if h : 1 ≤ components.length ∧ components.length ≤ 4 then some ⟨components, h.1, h.2⟩ else none

/-! ## Types -/

/-- The type of a document's content. -/
inductive Tag where
  | null
  | integer
  | decimal
  | boolean
  | string
  | vec1
  | vec2
  | vec3
  | vec4
  | array
  | node
  deriving DecidableEq

namespace Tag

/-- The name of a type. -/
def name : Tag → String
  | null => "Null"
  | integer => "Integer"
  | decimal => "Decimal"
  | boolean => "Boolean"
  | string => "String"
  | vec1 => "Vec1"
  | vec2 => "Vec2"
  | vec3 => "Vec3"
  | vec4 => "Vec4"
  | array => "Array"
  | node => "Node"

/-- A vector, of any length. -/
def isVector : Tag → Bool
  | vec1 | vec2 | vec3 | vec4 => true
  | _ => false

/-- An array or a node. -/
def isCollection : Tag → Bool
  | array | node => true
  | _ => false

end Tag

/-- The type of a vector. -/
def Vec.tag (v : Vec) : Tag :=
  match v.components.length with
  | 1 => .vec1
  | 2 => .vec2
  | 3 => .vec3
  | _ => .vec4

/-- The two forms of collection. -/
inductive Form where
  | array
  | node
  deriving DecidableEq

/-- The type of a collection. -/
def Form.tag : Form → Tag
  | array => .array
  | node => .node

/-! ## Contents and documents -/

/-- The content of a document whose children are of the type `α`. -/
inductive Content (α : Type) where
  | null
  | integer (value : Int64)
  | decimal (value : Binary64)
  | boolean (value : Bool)
  | string (value : String)
  | vector (value : Vec)
  | collection (form : Form) (children : Collection α)

namespace Content

variable {α : Type}

/-- The type of a content. -/
def tag : Content α → Tag
  | null => .null
  | integer _ => .integer
  | decimal _ => .decimal
  | boolean _ => .boolean
  | string _ => .string
  | vector v => v.tag
  | collection form _ => form.tag

/-- The empty content of a type: zero, false, no characters, zero components, no children. -/
def ofTag : Tag → Content α
  | .null => null
  | .integer => integer 0
  | .decimal => decimal .zero
  | .boolean => boolean false
  | .string => string ""
  | .vec1 => vector ⟨[.zero], by decide, by decide⟩
  | .vec2 => vector ⟨[.zero, .zero], by decide, by decide⟩
  | .vec3 => vector ⟨[.zero, .zero, .zero], by decide, by decide⟩
  | .vec4 => vector ⟨[.zero, .zero, .zero, .zero], by decide, by decide⟩
  | .array => collection .array .empty
  | .node => collection .node .empty

end Content

/-- A document. -/
structure Doc where
  name : Name := .empty
  content : Content Doc := .null

namespace Doc

instance : Inhabited Doc := ⟨{}⟩

/-! ## Reading -/

/-- The type of a document. -/
def tag (d : Doc) : Tag := d.content.tag

/-- The children of a collection; a document of another type has none. -/
def children (d : Doc) : List Doc :=
  match d.content with
  | .collection _ c => c.items
  | _ => []

/-- The number of children. -/
def size (d : Doc) : Nat := d.children.length

/-- How many more children a collection has room for. -/
def space (d : Doc) : Nat :=
  match d.content with
  | .collection _ c => c.space
  | _ => 0

/-- How many children a collection has room for. -/
def capacity (d : Doc) : Nat := d.size + d.space

def integer? (d : Doc) : Option Int64 :=
  match d.content with
  | .integer value => some value
  | _ => none

def decimal? (d : Doc) : Option Binary64 :=
  match d.content with
  | .decimal value => some value
  | _ => none

def boolean? (d : Doc) : Option Bool :=
  match d.content with
  | .boolean value => some value
  | _ => none

def string? (d : Doc) : Option String :=
  match d.content with
  | .string value => some value
  | _ => none

def vector? (d : Doc) : Option Vec :=
  match d.content with
  | .vector value => some value
  | _ => none

/-! ## Making and changing -/

/-- An unnamed document with the empty content of a type. -/
def ofTag (t : Tag) : Doc := { content := .ofTag t }

/-- A document by another name. -/
def named (d : Doc) (name : String) : Doc := { d with name := .ofString name }

/-- A document without its name. -/
def unnamed (d : Doc) : Doc := { d with name := .empty }

/-- A document with another content. -/
def withContent (d : Doc) (content : Content Doc) : Doc := { d with content }

/-- Changes the type.  The content becomes the empty one, unless the type stays the same. -/
def setTag (d : Doc) (t : Tag) : Doc := if d.tag = t then d else d.withContent (.ofTag t)

/-- Makes the content the empty one of its type. -/
def clear (d : Doc) : Doc := d.withContent (.ofTag d.tag)

mutual

/-- A copy of a document.  Its collections have room for exactly the children they have. -/
def copy : Doc → Doc
  | ⟨name, content⟩ => ⟨name, copyContent content⟩

/-- A copy of a content. -/
def copyContent : Content Doc → Content Doc
  | .collection form c => .collection form (copyCollection c)
  | content => content

/-- A copy of a collection, with no room to spare. -/
def copyCollection : Collection Doc → Collection Doc
  | ⟨items, _⟩ => ⟨copyAll items, 0⟩

/-- Copies of documents. -/
def copyAll : List Doc → List Doc
  | [] => []
  | d :: rest => copy d :: copyAll rest

end

/-! ## Equality

Documents are the same if their names, types, values and children are.  Room does not
matter.  Numbers are compared as numbers, so a document that holds a NaN is not even the same as
itself. -/

/-- The components of two vectors are the same numbers, one by one. -/
def sameComponents : List Binary32 → List Binary32 → Bool
  | [], [] => true
  | x :: xs, y :: ys => x.same y && sameComponents xs ys
  | _, _ => false

mutual

/-- Two documents are the same. -/
def same : Doc → Doc → Bool
  | ⟨name, content⟩, ⟨name', content'⟩ => decide (name = name') && sameContent content content'

/-- Two contents are the same. -/
def sameContent : Content Doc → Content Doc → Bool
  | .null, .null => true
  | .integer x, .integer y => x == y
  | .decimal x, .decimal y => x.same y
  | .boolean x, .boolean y => x == y
  | .string x, .string y => x == y
  | .vector x, .vector y => sameComponents x.components y.components
  | .collection form c, .collection form' c' =>
    decide (form = form') && sameCollection c c'
  | _, _ => false

/-- Two collections have the same items. -/
def sameCollection : Collection Doc → Collection Doc → Bool
  | ⟨items, _⟩, ⟨items', _⟩ => sameAll items items'

/-- Documents are the same, one by one. -/
def sameAll : List Doc → List Doc → Bool
  | [], [] => true
  | d :: ds, e :: es => same d e && sameAll ds es
  | _, _ => false

end

end Doc
end DocGrammar
