import DocGrammar.Doc.Grammar
import DocGrammar.Proofs.Actions

/-!
# The actions of the grammar of documents

What a theorem about the engine asks of the actions that are involved comes, for the grammar of
documents, to one obligation for each of its actions.  `WordActions` and `GrammarActions` are the
lists of these; the theorems say in which rules the actions occur, so that no other file has to take
the rules apart for that.

The lists are two because rules for words make do with the first: those actions consume no input.
-/

set_option autoImplicit false

namespace DocGrammar

open TextGrammar (TextRule grammar)

/-- The actions that consume no input have a property. -/
structure WordActions (P : Action Symbol Builder → Prop) : Prop where
  /-- The value of a keyword. -/
  okWith (value : Value) (h : value.slice? = none) :
    P (DirectAction.toAction fun s _ ↦ s.okWith value)
  closeDecimal : P (DirectAction.toAction Leaf.closeDecimal)
  closeUnsigned (radix : Nat) : P (DirectAction.toAction (Leaf.closeUnsigned radix))
  closeSigned : P (DirectAction.toAction Leaf.closeSigned)
  delimiter : P (DirectAction.toAction TextGrammar.delimiter)
  rejectNumber : P (DirectAction.toAction TextGrammar.rejectNumber)
  keepRaw : P (DirectAction.toAction TextGrammar.keepRaw)
  keepUnescaped : P (DirectAction.toAction TextGrammar.keepUnescaped)
  emitScalar : P (DirectAction.toAction TextGrammar.emitScalar)
  emitString : P (DirectAction.toAction TextGrammar.emitString)
  emitVector : P (DirectAction.toAction TextGrammar.emitVector)
  setName : P (DirectAction.toAction TextGrammar.setName)
  documentEnd : P (DirectAction.toAction TextGrammar.documentEnd)

/-- All direct actions of the grammar of documents have a property. -/
structure DirectActions (P : Action Symbol Builder → Prop) : Prop extends WordActions P where
  skip : P (DirectAction.toAction Fluff.skip)
  quotedEnd : P (DirectAction.toAction TextGrammar.quotedEnd)
  blockBody : P (DirectAction.toAction TextGrammar.blockBody)
  collectionEnd (form : Form) : P (DirectAction.toAction (TextGrammar.collectionEnd form))

/-- All actions of the grammar of documents have a property. -/
structure GrammarActions (P : Action Symbol Builder → Prop) : Prop extends DirectActions P where
  scope (form : Form) : P (TextGrammar.scope form)

variable {P : Action Symbol Builder → Prop}

/-! ## Words -/

namespace WordActions

variable (h : WordActions P)

include h

theorem delimited {r : TextRule} (hr : r.Every P) : (TextGrammar.delimited r).Every P :=
  ⟨hr, h.delimiter, trivial⟩

theorem decimalAny : Rule.Every P Leaf.decimalAny := by
  simp [Leaf.decimalAny, Leaf.decimalFrom, Leaf.signMaybe, Leaf.sign, Leaf.decimalDigits,
    Leaf.decimalDigit, Leaf.exponent, h.closeDecimal]

theorem signedAny : Rule.Every P Leaf.signedAny := by
  simp [Leaf.signedAny, Leaf.unsignedAny, Leaf.unsignedHex, Leaf.unsignedOctal,
    Leaf.unsignedDecimal, Leaf.signMaybe, Leaf.sign, Leaf.hexDigits, Leaf.hexDigit,
    Leaf.octalDigit, Leaf.decimalDigits, Leaf.decimalDigit, h.closeUnsigned, h.closeSigned]

theorem malformedNumber : TextGrammar.malformedNumber.Every P := by
  simp [TextGrammar.malformedNumber, TextGrammar.after, h.rejectNumber]

theorem scalar : TextGrammar.scalar.Every P :=
  ⟨⟨h.delimited ⟨trivial, h.okWith _ rfl⟩,
    h.delimited ⟨⟨trivial, h.okWith _ rfl⟩, ⟨trivial, h.okWith _ rfl⟩, trivial⟩,
    h.delimited h.decimalAny, h.delimited h.signedAny, trivial⟩, h.emitScalar⟩

theorem identifier : TextGrammar.identifier.Every P := by
  simp [TextGrammar.identifier, TextGrammar.after, TextGrammar.identifierStart, h.keepRaw]

end WordActions

/-! ## Everything else -/

namespace DirectActions

variable (h : DirectActions P)

include h

theorem thenFluff {r : TextRule} (hr : r.Every P) : (TextGrammar.thenFluff r).Every P :=
  ⟨hr, h.skip, trivial⟩

theorem string : TextGrammar.string.Every P := by
  have hidentifier := h.identifier
  simp [TextGrammar.string, TextGrammar.quotedString, TextGrammar.blockString, TextGrammar.after,
    TextGrammar.act, TextGrammar.escapePair, TextGrammar.plain, hidentifier, h.keepRaw,
    h.keepUnescaped, h.quotedEnd, h.blockBody]

theorem vector : TextGrammar.vector.Every P :=
  ⟨⟨h.skip, h.thenFluff ⟨h.delimited h.decimalAny, h.delimited h.signedAny, h.malformedNumber,
    trivial⟩, trivial⟩, h.emitVector⟩

theorem memberName : TextGrammar.memberName.Every P :=
  ⟨⟨h.string, ⟨trivial, trivial, trivial⟩, trivial, trivial⟩, h.setName⟩

theorem body (form : Form) (item : Symbol) : (TextGrammar.body form item).Every P :=
  ⟨trivial, h.skip, h.thenFluff (r := .symbol item) trivial, h.collectionEnd form, trivial⟩

end DirectActions

/-- **What holds of each of the actions holds of all that occur in the grammar.** -/
theorem GrammarActions.grammar (h : GrammarActions P) (n : Symbol) : (grammar n).Every P := by
  cases n with
  | document => exact ⟨h.skip, h.thenFluff (r := .symbol .member) trivial, h.documentEnd, trivial⟩
  | member => exact ⟨h.memberName, h.skip, trivial, trivial⟩
  | value =>
    exact ⟨h.scalar, h.malformedNumber, ⟨h.string, h.emitString⟩, h.vector, h.scope .array,
      h.scope .node, trivial⟩
  | nodeBody => exact h.body .node .member
  | arrayBody => exact h.body .array .value

end DocGrammar
