/-!
# Collections with room

The children of a document are kept in a `Collection`: a list, and the number of children that could
be added before it has to grow (`space`).  How much room there is can be asked for and set, so every
operation says exactly what becomes of it.  Growing always means at least doubling the capacity and
eight more.  That the capacity is never less than the length holds by construction: the capacity is
the length and the space together.

Memory bounds the capacity of a collection (`Collection.limit`).  The operations here do not look
at the bound; whoever uses them asks `Collection.isWithinLimit` of the collection with the room it
is to have, before anything is put into that room.
-/

set_option autoImplicit false

namespace DocGrammar

/-- A list with room for more. -/
structure Collection (α : Type) where
  items : List α := []
  /-- How many items can be added without growing. -/
  space : Nat := 0
  deriving DecidableEq

namespace Collection

variable {α : Type}

/-- No items, no room. -/
def empty : Collection α := {}

/-- The number of items. -/
def size (c : Collection α) : Nat := c.items.length

/-- The number of items there is room for. -/
def capacity (c : Collection α) : Nat := c.items.length + c.space

/-! ## Room -/

/-- Sets the capacity, and drops the items there is no room for any more. -/
def setCapacity (c : Collection α) (n : Nat) : Collection α :=
  { items := c.items.take n, space := n - c.items.length }

/-- Doubles the capacity and adds eight, or makes it `least` if that is more. -/
def grow (c : Collection α) (least : Nat) : Collection α :=
  c.setCapacity (max (2 * c.capacity + 8) least)

/-- Grows if there is no room for `n` items. -/
def ensure (c : Collection α) (n : Nat) : Collection α := if c.capacity < n then c.grow n else c

/-- Makes room for `additional` more items. -/
def reserve (c : Collection α) (additional : Nat) : Collection α := c.ensure (c.size + additional)

/-- Grows if there is no room for another item. -/
def ensureSpace (c : Collection α) : Collection α := if c.space = 0 then c.grow 0 else c

/-- Gives up all unused room. -/
def shrinkToFit (c : Collection α) : Collection α := { c with space := 0 }

/-- One more than the greatest capacity: an item takes 64 bytes of an address space of 63 bits. -/
def limit : Nat := 1 <<< 57

/-- Whether memory could hold as many items as there is room for. -/
def isWithinLimit (c : Collection α) : Bool := c.capacity < limit

/-! ## Items -/

/-- Adds an item at the end, where there is space for it. -/
def append (c : Collection α) (item : α) : Collection α :=
  { items := c.items ++ [item], space := c.space - 1 }

/-- Adds an item at the end. -/
def push (c : Collection α) (item : α) : Collection α := c.ensureSpace.append item

/-- Makes the number of items `n`, within the capacity: drops items from the end, or adds copies of
`filler`. -/
def fill (c : Collection α) (n : Nat) (filler : α) : Collection α :=
  { items := c.items.take n ++ List.replicate (n - c.size) filler, space := c.capacity - n }

/-- Makes the number of items `n`.  Dropping items leaves the capacity as it is. -/
def resize (c : Collection α) (n : Nat) (filler : α) : Collection α := (c.ensure n).fill n filler

/-- Takes the last item off. -/
def pop (c : Collection α) : Option α × Collection α :=
  match c.items.getLast? with
  | some last => (some last, { items := c.items.dropLast, space := c.space + 1 })
  | none => (none, c)

/-- Takes the item at `i` out; the items after it move up. -/
def remove? (c : Collection α) (i : Nat) : Option (α × Collection α) :=
  c.items[i]?.map fun item ↦ (item, { items := c.items.eraseIdx i, space := c.space + 1 })

/-- Takes the item at `i` out; the last item moves into its place. -/
def removeOver? (c : Collection α) (i : Nat) : Option (α × Collection α) :=
  match c.items[i]?, c.items.getLast? with
  | some item, some last =>
    some (item, { items := (c.items.set i last).dropLast, space := c.space + 1 })
  | _, _ => none

end Collection
end DocGrammar
