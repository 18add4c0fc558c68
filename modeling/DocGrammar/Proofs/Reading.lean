import DocGrammar.Proofs.Direct.Document
import DocGrammar.Proofs.Root

/-!
# What reading a document comes to

The two halves of the theory meet here.  `Proofs.Direct.Document` says which bytes are a document
and what its members are; `Proofs.Root` says that the root is a node of its own name throughout, and
that nothing else of it is ever looked at.

So reading either takes all of the input and makes the root a node with the members that the direct
reader finds, or it makes the root an empty node; and which of the two it is, and with which error,
depends on the input alone.
-/

set_option autoImplicit false

namespace DocGrammar
namespace Doc

variable {input : Array UInt8}

/-- Reading starts from the same state whatever the root is, but for its name. -/
theorem initialState_eq (root root' : Doc) (input : Array UInt8) :
    initialState root input =
      (initialState root' input).mapUser (Builder.retitle root.name) := by
  rw [initialState, initialState, emptied_eq, emptied_eq]
  rfl

/-- A parse of a document comes to the same answer whatever the root is, but for its name. -/
theorem parse_eq (root root' : Doc) (input : Array UInt8) (budget : Nat) :
    (initialState root input).parse TextGrammar.grammar budget TextGrammar.document =
      ((initialState root' input).parse TextGrammar.grammar budget TextGrammar.document).map
        (State.Answer.mapUser (Builder.retitle root.name)) := by
  rw [initialState_eq root root' input]
  exact State.parse_mapUser (grammar_letsRetitle root.name) budget
    (grammar_letsRetitle root.name .document) _

/-- What the direct reader reads becomes the root. -/
theorem read_of_some {members : List Doc} (h : Direct.document input.toList = some members)
    (root : Doc) :
    root.read input = (.ok input.size, ⟨root.name, .collection .node (Direct.gather members)⟩) := by
  obtain ⟨⟨result, state⟩, hparse, hanswer⟩ := parse_document root input
  rw [h] at hanswer
  obtain ⟨rfl, hfinish⟩ := hanswer
  rw [read, hparse]
  exact congrArg (Prod.mk _) hfinish

/-- What the direct reader does not read is an error, the same for every root, and the root is left
empty. -/
theorem read_of_none (h : Direct.document input.toList = none) :
    ∃ error, ∀ root : Doc,
      root.read input = (.error error, ⟨root.name, .collection .node .empty⟩) := by
  obtain ⟨⟨result, state⟩, hparse, hanswer⟩ := parse_document {} input
  rw [h] at hanswer
  obtain ⟨error, rfl⟩ := hanswer
  refine ⟨error, fun root ↦ ?_⟩
  rw [read, parse_eq root {} input, hparse]
  show (Except.error error, (state.user.retitle root.name).finish.clear) = _
  rw [Builder.retitle_finish]
  rfl

/-- **The language of documents.**  A document is read if and only if the direct reader reads it.
Then all of the input has been consumed, and the root is a node of its own name with the members
that the direct reader finds. -/
theorem read_eq_ok_iff (root : Doc) (input : Array UInt8) (n : Nat) (d : Doc) :
    root.read input = (.ok n, d) ↔
      ∃ members, Direct.document input.toList = some members ∧ n = input.size ∧
        d = ⟨root.name, .collection .node (Direct.gather members)⟩ := by
  constructor
  · intro hread
    cases hdocument : Direct.document input.toList with
    | none =>
      obtain ⟨error, herror⟩ := read_of_none hdocument
      rw [herror root] at hread
      cases hread
    | some members =>
      rw [read_of_some hdocument root] at hread
      cases hread
      exact ⟨members, rfl, rfl, rfl⟩
  · rintro ⟨members, hdocument, rfl, rfl⟩
    exact read_of_some hdocument root

/-- **Reading is atomic.**  A document that cannot be read leaves an empty node of the root's name.
One that is read is read to its end, and leaves a node of the root's name.  Neither the result nor
the content that the root is left with depends on what the root was. -/
theorem read_atomic (root : Doc) (input : Array UInt8) :
    (match root.read input with
      | (.error _, d) => d = ⟨root.name, .collection .node .empty⟩ ∧ d.capacity = 0
      | (.ok n, d) => n = input.size ∧ d.name = root.name ∧ d.tag = .node) ∧
      ∀ root' : Doc, (root'.read input).1 = (root.read input).1 ∧
        (root'.read input).2.content = (root.read input).2.content := by
  cases hdocument : Direct.document input.toList with
  | none =>
    obtain ⟨error, herror⟩ := read_of_none hdocument
    rw [herror root]
    refine ⟨⟨rfl, rfl⟩, fun root' ↦ ?_⟩
    rw [herror root']
    exact ⟨rfl, rfl⟩
  | some members =>
    rw [read_of_some hdocument root]
    refine ⟨⟨rfl, rfl, rfl⟩, fun root' ↦ ?_⟩
    rw [read_of_some hdocument root']
    exact ⟨rfl, rfl⟩

end Doc
end DocGrammar
