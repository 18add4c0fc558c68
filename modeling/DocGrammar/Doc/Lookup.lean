import DocGrammar.Doc.Children

/-!
# Looking children up by name

A child is looked up by the hash of its name first, and only if that is right are the names
themselves compared.  Two different names with one hash do no harm, but they are worth a warning: a
lookup returns, besides what it found, every `Collision` it came across on the way.

When several children have the name, the first is meant.
-/

set_option autoImplicit false

namespace DocGrammar

/-- Two names with one hash, of which one was asked for and the other met. -/
structure Collision where
  stored : String
  asked : String
  hash : UInt32
  deriving DecidableEq

/-- The log line of a collision. -/
def Collision.line (c : Collision) : String :=
  let digits := Nat.toDigits 16 c.hash.toNat
  "WARN name hash collision: " ++ Dump.string c.stored ++ " and " ++ Dump.string c.asked ++
    " both hash to 0x" ++ String.ofList (List.replicate (8 - digits.length) '0' ++ digits)

namespace Doc

/-- The index of the first document of a name, counted from `index`, and the collisions before it.
-/
def searchName (name : Name) : Nat → List Doc → Option Nat × List Collision
  | _, [] => (none, [])
  | index, d :: rest =>
    if d.name.hash = name.hash then
      if d.name.text = name.text then (some index, [])
      else
        let (found, collisions) := searchName name (index + 1) rest
        (found, ⟨d.name.text, name.text, name.hash⟩ :: collisions)
    else searchName name (index + 1) rest

/-- The index of the first child of a name, and the collisions met before it. -/
def indexOf (d : Doc) (name : String) : Option Nat × List Collision :=
  searchName (.ofString name) 0 d.children

/-- The first child of a name, and the collisions met before it. -/
def find (d : Doc) (name : String) : Option Doc × List Collision :=
  let (index, collisions) := d.indexOf name
  (index.bind fun i ↦ d.children[i]?, collisions)

/-- Changes the first child of a name; `none` if there is none.  The collisions met are returned in
either case. -/
def updateMember (d : Doc) (name : String) (f : Doc → Doc) : Option Doc × List Collision :=
  let (index, collisions) := d.indexOf name
  (index.map fun i ↦ d.modifyChild i f, collisions)

/-- The first child of a name, which there has to be. -/
def member (d : Doc) (name : String) : Except Misuse Doc × List Collision :=
  match d.find name with
  | (some child, collisions) => (.ok child, collisions)
  | (none, collisions) => (.error (.noMember name), collisions)

/-- The index of the first child whose name has a given hash. -/
def indexOfHash (d : Doc) (hash : UInt32) : Option Nat :=
  d.children.findIdx? fun child ↦ child.name.hash == hash

/-- The first child whose name has a given hash. -/
def findHash (d : Doc) (hash : UInt32) : Option Doc :=
  d.children.find? fun child ↦ child.name.hash == hash

/-- Changes the first child whose name has a given hash; `none` if there is none. -/
def updateHash (d : Doc) (hash : UInt32) (f : Doc → Doc) : Option Doc :=
  (d.indexOfHash hash).map fun i ↦ d.modifyChild i f

end Doc
end DocGrammar
