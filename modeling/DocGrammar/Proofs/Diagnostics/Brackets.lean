import DocGrammar.Proofs.Diagnostics.Unclosed
import DocGrammar.Proofs.Reading

/-!
# Brackets that do not match

A document stays one when it is put somewhere else, except that brackets have to match.  If a
closing bracket follows it, that bracket is reported, whatever comes behind; and if it is put into a
node that is not closed, that is what is reported, at the end of the input.

Neither goes without saying.  A parse records a failure for everything it has tried in vain, also
inside the members that it has read, and the furthest of these is reported.  That none lies behind a
closing bracket is because the members are tidy (`Proofs.Diagnostics.Values`); and that there is a
failure at the end of the input, and the last one there is that of the innermost node, is shown in
`Proofs.Diagnostics.Unclosed`.
-/

set_option autoImplicit false

namespace DocGrammar
namespace Doc

open Direct (closesNothing Closes Ended)
open TextGrammar (Halts endReason openings AreOpeners)

variable {bytes : List UInt8}

/-! ## A closing bracket behind a document -/

theorem closes_cases {c : UInt8} (hc : c ∈ [0x7D, 0x5D, 0x29]) :
    c = 0x7D ∨ c = 0x5D ∨ c = 0x29 := by
  simpa using hc

/-- What is reported about a closing bracket that nothing was opened for. -/
def unbalancedMessage (c : UInt8) : String :=
  "unbalanced '" ++ String.singleton (Char.ofNat c.toNat) ++ "' at root level"

theorem endReason_message {c : UInt8} (hc : c ∈ [0x7D, 0x5D, 0x29]) (offset : Nat)
    (found : Option UInt8) :
    (⟨offset, found, endReason c⟩ : Failure).message = unbalancedMessage c := by
  rcases closes_cases hc with rfl | rfl | rfl
  · rfl
  · rfl
  · rfl

/-- **A closing bracket behind a document** is what is reported. -/
theorem read_unbalanced (root : Doc) (hbytes : Ended bytes) {docs : List Doc}
    (hdocument : Direct.document bytes = some docs) {c : UInt8} (hc : c ∈ [0x7D, 0x5D, 0x29])
    (suffix : List UInt8) :
    (root.read (bytes ++ c :: suffix).toArray).1 =
      .error ⟨({} : Location).skip bytes, unbalancedMessage c⟩ := by
  have hcloses : closesNothing c = false := by
    rcases closes_cases hc with rfl | rfl | rfl
    all_goals rfl
  have ht : Closes (c :: suffix) := by
    rintro b ⟨⟩
    exact hcloses
  have hbound : Halts (bytes ++ c :: suffix).toArray bytes.length :=
    ⟨c, by simp, TextGrammar.isNumberLike_of_closes hcloses⟩
  have hclip : Utf8.clip ParseError.messageLimit (unbalancedMessage c) = unbalancedMessage c := by
    rcases closes_cases hc with rfl | rfl | rfl
    all_goals decide
  have hmessage := endReason_message hc bytes.length (some c)
  have hreported : ∀ outcome s', TextGrammar.document.evaluate TextGrammar.grammar
      (readBudget (bytes ++ c :: suffix).toArray.size)
      (beginning root (bytes ++ c :: suffix).toArray) = some (outcome, s') →
        outcome = .fail ∧ s'.reported = some ⟨bytes.length, some c, endReason c⟩ := by
    intro outcome s' hreply
    obtain ⟨rest, hfluff⟩ := TextGrammar.fluff_of_document hbytes ht hdocument
    obtain ⟨less, o, s₁, s₂, hrest, huser, hresults, hheeds, hmembers, hend⟩ :=
      TextGrammar.document_reports rfl rfl (by rw [beginning_rest]; exact hfluff) hreply
    obtain ⟨hne, hleft⟩ := TextGrammar.members_reach hbytes ht hdocument (by simp)
      (by rw [hrest, hfluff]) hresults (huser ▸ beginning_idle) hmembers
    have hpeek : s₂.peek = some c := by
      rw [State.peek_eq, hleft]
      rfl
    have hcursor : s₂.cursor = bytes.length := by
      have hlength := s₂.length_rest
      have hle := s₂.cursor_le
      rw [hleft] at hlength
      simp only [List.length_cons, List.size_toArray, List.length_append] at hlength hle
      omega
    -- nothing has failed behind the bracket
    have hheeded := (hheeds bytes.length).trans
      ((TextGrammar.members_tidy hbound hcloses less hmembers).heeds hne hpeek)
    have hwithin := hheeded.within (Nat.le_of_eq hcursor) (beginning_within _)
    obtain ⟨hfail, hreported⟩ := hend hne c hpeek
    rw [hcursor] at hreported
    exact ⟨hfail, hreported.trans (hwithin.later_eq (f := ⟨_, _, _⟩))⟩
  rw [read_of_reported (Nat.le_of_lt hbound.lt) (by rw [hmessage, hclip]) hreported, hmessage,
    State.between_eq, List.drop_zero, Nat.sub_zero, List.take_left]

/-! ## Nodes that are not closed -/

/-- **Nodes that are opened before a document** and not closed are what is reported. -/
theorem read_unclosed (root : Doc) (hbytes : Ended bytes) {docs : List Doc}
    (hdocument : Direct.document bytes = some docs) {openers : List (String × List UInt8)}
    (hne : openers ≠ []) (hopeners : AreOpeners openers) :
    (root.read (openings openers ++ bytes).toArray).1 =
      .error ⟨({} : Location).skip (openings openers ++ bytes),
        "unclosed collection at end of input"⟩ := by
  obtain ⟨gap, hgap, hplace⟩ := TextGrammar.openings_place hne hopeners bytes
  generalize hinput : openings openers ++ bytes = input at hplace
  have hlength : bytes.length ≤ input.toArray.size := by
    simp only [← hinput, List.size_toArray, List.length_append]
    omega
  have hclip : Utf8.clip ParseError.messageLimit "unclosed collection at end of input" =
      "unclosed collection at end of input" := by
    decide
  have hmessage : (State.unclosed input.toArray).message = "unclosed collection at end of input" :=
    rfl
  have hread := read_of_fatal root (f := State.unclosed input.toArray) (.inr rfl) (Nat.le_refl _)
    (by rw [hmessage, hclip])
    (Nat.lt_add_of_pos_right (List.length_pos_of_ne_nil (List.cons_ne_nil _ _)))
    (TextGrammar.value_unclosed hgap hbytes hdocument hlength) hplace
  have hbefore : State.between input.toArray 0 (State.unclosed input.toArray).offset = input := by
    rw [State.between_eq, List.drop_zero, Nat.sub_zero]
    exact List.take_length
  rwa [hbefore, hmessage] at hread

/-! ## Both -/

/-- **Brackets that do not match are reported where they are.**  Let a document be read, and let it
be empty or end with a line.  If a closing bracket follows, and anything behind it, the bracket is
reported at its own location.  If nodes are opened before it, one or more inside one another, that
they are not closed is reported at the location of the end of the input. -/
theorem read_locates_brackets (root : Doc) (hbytes : bytes = [] ∨ bytes.getLast? = some 0x0A)
    {n : Nat} (hread : (root.read bytes.toArray).1 = .ok n) :
    (∀ c ∈ [0x7D, 0x5D, 0x29], ∀ suffix : List UInt8,
      (root.read (bytes ++ c :: suffix).toArray).1 =
        .error ⟨({} : Location).skip bytes, unbalancedMessage c⟩) ∧
    ∀ openers : List (String × List UInt8), openers ≠ [] → AreOpeners openers →
      (root.read (openings openers ++ bytes).toArray).1 =
        .error ⟨({} : Location).skip (openings openers ++ bytes),
          "unclosed collection at end of input"⟩ := by
  rcases hdocument : Direct.document bytes with _ | docs
  · obtain ⟨error, herror⟩ := read_of_none hdocument
    rw [herror root] at hread
    cases hread
  exact ⟨fun c hc suffix ↦ read_unbalanced root hbytes hdocument hc suffix,
    fun openers hne hopeners ↦ read_unclosed root hbytes hdocument hne hopeners⟩

/-- The bytes of `a=b` on a line. -/
def oneMember : List UInt8 := [0x61, 0x3D, 0x62, 0x0A]

/-- Two nodes, the second one on the line after its brace. -/
def twoOpeners : List (String × List UInt8) := [("outer", []), ("inner", [0x0A])]

/-- A brace and a slash behind the line, and two nodes around it. -/
theorem read_locates_brackets_oneMember :
    (oneMember = [] ∨ oneMember.getLast? = some 0x0A) ∧
      (({} : Doc).read oneMember.toArray).1 = .ok 4 ∧
      (({} : Doc).read (oneMember ++ 0x7D :: [0x2F]).toArray).1 =
        .error ⟨⟨2, 1⟩, "unbalanced '\x7d' at root level"⟩ ∧
      twoOpeners ≠ [] ∧ AreOpeners twoOpeners ∧
      (({} : Doc).read (openings twoOpeners ++ oneMember).toArray).1 =
        .error ⟨⟨3, 1⟩, "unclosed collection at end of input"⟩ := by
  have hended : oneMember = [] ∨ oneMember.getLast? = some 0x0A := by decide
  have hread : (({} : Doc).read oneMember.toArray).1 = .ok 4 := by
    have hdocument : (Direct.document oneMember).isSome = true := by decide
    obtain ⟨docs, hdocs⟩ := Option.isSome_iff_exists.1 hdocument
    exact congrArg Prod.fst (read_of_some hdocs {})
  have hopeners : AreOpeners twoOpeners := by
    have hall : ∀ opener ∈ twoOpeners, Doc.isBare opener.1 = true ∧
        ∀ b ∈ opener.2, Fluff.isSeparator b = true := by
      decide +kernel
    exact fun name gap h ↦ hall (name, gap) h
  obtain ⟨hunbalanced, hunclosed⟩ := read_locates_brackets {} hended hread
  have hline : ({} : Location).skip oneMember = ⟨2, 1⟩ := by decide
  have hend : ({} : Location).skip (openings twoOpeners ++ oneMember) = ⟨3, 1⟩ := by decide +kernel
  refine ⟨hended, hread, ?_, nofun, hopeners, ?_⟩
  · rw [hunbalanced 0x7D (by decide) [0x2F], hline]
    rfl
  · rw [hunclosed twoOpeners nofun hopeners, hend]

end Doc
end DocGrammar
