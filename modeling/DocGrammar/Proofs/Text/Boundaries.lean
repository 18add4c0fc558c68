import DocGrammar.Proofs.Printing.Utf8
import DocGrammar.Proofs.Scan.Rest

/-!
# Boundaries between characters

The grammar goes through its input byte by byte, and knows nothing of characters.  What it finds is
text all the same, if it begins and ends between two characters.  That is what `IsBoundary` says of
an offset: what stands before it is a text, and so is what stands behind it.

Two facts are all that is needed to see that an offset is a boundary.  A text that begins with
another goes on with one (`IsText.of_append`), so spans between boundaries are texts.  And a byte of
ASCII is a character of its own (`IsText.around_ascii`), so there are boundaries on both sides of
it.
-/

set_option autoImplicit false

namespace DocGrammar
namespace Utf8

/-! ## Texts -/

/-- A byte string that is the encoding of a text. -/
def IsText (bytes : List UInt8) : Prop := ∃ text, encode text = bytes

theorem isText_iff_decode {bytes : List UInt8} : IsText bytes ↔ (decode bytes).isSome := by
  refine ⟨?_, fun h ↦ ?_⟩
  · rintro ⟨text, rfl⟩
    rw [decode_encode, Option.isSome_some]
  · obtain ⟨text, htext⟩ := Option.isSome_iff_exists.1 h
    exact ⟨text, encode_of_decode htext⟩

theorem isText_iff_flatMap {bytes : List UInt8} :
    IsText bytes ↔ ∃ letters : List Char, letters.flatMap String.utf8EncodeChar = bytes := by
  refine ⟨?_, ?_⟩
  · rintro ⟨text, rfl⟩
    exact ⟨text.toList, (encode_eq_flatMap text).symm⟩
  · rintro ⟨letters, rfl⟩
    exact ⟨String.ofList letters, encode_ofList letters⟩

/-- The bytes of a character tell where it ends. -/
theorem encodeChar_append_inj {c d : Char} {bytes bytes' : List UInt8}
    (h : String.utf8EncodeChar c ++ bytes = String.utf8EncodeChar d ++ bytes') :
    c = d ∧ bytes = bytes' := by
  have hdecode (c : Char) (bytes : List UInt8) :
      ByteArray.utf8DecodeChar? (String.utf8EncodeChar c ++ bytes).toByteArray 0 = some c := by
    rw [List.toByteArray_append, ByteArray.utf8DecodeChar?_utf8EncodeChar_append]
  obtain rfl : c = d := Option.some.inj ((hdecode c bytes).symm.trans (h ▸ hdecode d bytes'))
  exact ⟨rfl, List.append_cancel_left h⟩

namespace IsText

variable {bytes bytes' before behind : List UInt8} {b : UInt8}

theorem nil : IsText [] := ⟨"", rfl⟩

theorem append (h : IsText bytes) (h' : IsText bytes') : IsText (bytes ++ bytes') := by
  obtain ⟨text, rfl⟩ := h
  obtain ⟨text', rfl⟩ := h'
  exact ⟨text ++ text', encode_append text text'⟩

theorem char (c : Char) : IsText (String.utf8EncodeChar c) :=
  isText_iff_flatMap.2 ⟨[c], List.flatMap_singleton _ _⟩

theorem ascii (hb : b < 0x80) : IsText [b] := by
  have hbyte : ∀ b : UInt8, b < 0x80 → String.utf8EncodeChar (Char.ofNat b.toNat) = [b] :=
    Byte.forall_of_lt (by decide +kernel)
  exact hbyte b hb ▸ char _

/-- **Behind a text that a text begins with there is a text.** -/
theorem of_append (h : IsText bytes) (h' : IsText (bytes ++ bytes')) : IsText bytes' := by
  obtain ⟨letters, rfl⟩ := isText_iff_flatMap.1 h
  clear h
  induction letters with
  | nil => exact h'
  | cons c letters ih =>
    refine ih ?_
    rw [List.flatMap_cons, List.append_assoc] at h'
    obtain ⟨letters', hletters⟩ := isText_iff_flatMap.1 h'
    cases letters' with
    | nil =>
      have hnil := (List.append_eq_nil_iff.1 hletters.symm).1
      exact absurd hnil String.utf8EncodeChar_ne_nil
    | cons d letters' =>
      rw [List.flatMap_cons] at hletters
      exact isText_iff_flatMap.2 ⟨letters', (encodeChar_append_inj hletters).2⟩

/-- **There is a text on both sides of a byte of ASCII.**  By induction on the characters: the byte
is the first one, or it is none of the first one's bytes. -/
theorem around_ascii (h : IsText (before ++ b :: behind)) (hb : b < 0x80) :
    IsText before ∧ IsText behind := by
  obtain ⟨letters, hletters⟩ := isText_iff_flatMap.1 h
  clear h
  induction letters generalizing before with
  | nil => cases before <;> cases hletters
  | cons c letters ih =>
    rw [List.flatMap_cons] at hletters
    obtain ⟨more, rfl, hmore⟩ | ⟨more, hchar, hmore⟩ := List.append_eq_append_iff.1 hletters
    · obtain ⟨hbefore, hbehind⟩ := ih hmore
      exact ⟨(char c).append hbefore, hbehind⟩
    · cases more with
      | nil =>
        rw [List.append_nil] at hchar
        have hrest : letters.flatMap String.utf8EncodeChar = [] ++ b :: behind := hmore.symm
        obtain ⟨-, hbehind⟩ := ih hrest
        exact ⟨hchar ▸ char c, hbehind⟩
      | cons b' more =>
        obtain ⟨rfl, rfl⟩ := List.cons.inj hmore
        -- a byte of ASCII is a whole character
        have hc : c.toNat < 0x80 := Nat.lt_of_not_le fun hc ↦
          absurd (encodeChar_high hc b (by simp [hchar])) (UInt8.not_le.2 hb)
        rw [encodeChar_ascii hc] at hchar
        cases before with
        | nil =>
          obtain ⟨-, rfl⟩ := List.cons.inj hchar
          exact ⟨nil, isText_iff_flatMap.2 ⟨letters, rfl⟩⟩
        | cons b' before => simp at hchar

theorem cons_ascii (hb : b < 0x80) (h : IsText behind) : IsText (b :: behind) := (ascii hb).append h

end IsText

/-! ## Boundaries -/

/-- An offset between two characters, or before the first or behind the last. -/
structure IsBoundary (input : Array UInt8) (offset : Nat) : Prop where
  offset_le : offset ≤ input.size
  /-- What stands before it is a text. -/
  before : IsText (input.toList.take offset)
  /-- What stands behind it is a text. -/
  behind : IsText (input.toList.drop offset)

namespace IsBoundary

variable {input : Array UInt8} {offset offset' : Nat} {b : UInt8}

theorem input_isText (h : IsBoundary input offset) : IsText input.toList := by
  rw [← List.take_append_drop offset input.toList]
  exact h.before.append h.behind

theorem zero (h : IsText input.toList) : IsBoundary input 0 := ⟨Nat.zero_le _, .nil, h⟩

theorem size (h : IsText input.toList) : IsBoundary input input.size := by
  refine ⟨Nat.le_refl _, ?_, ?_⟩
  · rwa [List.take_of_length_le (Nat.le_of_eq Array.length_toList)]
  · rw [List.drop_of_length_le (Nat.le_of_eq Array.length_toList)]
    exact .nil

/-- Behind a text that stands at a boundary there is a boundary. -/
theorem advance (h : IsBoundary input offset) {token rest : List UInt8}
    (hrest : input.toList.drop offset = token ++ rest) (htoken : IsText token) :
    IsBoundary input (offset + token.length) := by
  have hlength := congrArg List.length hrest
  rw [List.length_drop, List.length_append, Array.length_toList] at hlength
  have hle := h.offset_le
  refine ⟨by omega, ?_, ?_⟩
  · rw [List.take_add, hrest, List.take_left]
    exact h.before.append htoken
  · have hbehind := h.behind
    rw [hrest] at hbehind
    rw [← List.drop_drop, hrest, List.drop_left]
    exact htoken.of_append hbehind

/-- What stands between two boundaries is a text. -/
theorem between (h : IsBoundary input offset) (h' : IsBoundary input offset')
    (hle : offset ≤ offset') : IsText (State.between input offset offset') := by
  have hbefore := h'.before
  rw [← Nat.add_sub_cancel' hle, List.take_add, ← State.between_eq] at hbefore
  exact h.before.of_append hbefore

/-- There are boundaries on both sides of a byte of ASCII. -/
theorem around_ascii (h : IsText input.toList) (hoffset : input[offset]? = some b)
    (hb : b < 0x80) : IsBoundary input offset ∧ IsBoundary input (offset + 1) := by
  obtain ⟨hlt, hget⟩ := Array.getElem?_eq_some_iff.1 hoffset
  have hdrop : input.toList.drop offset = b :: input.toList.drop (offset + 1) := by
    rw [List.drop_eq_getElem_cons (by simpa using hlt), Array.getElem_toList, hget]
  have hsplit := List.take_append_drop offset input.toList
  rw [← hsplit, hdrop] at h
  obtain ⟨hbefore, hbehind⟩ := h.around_ascii hb
  have hhere : IsBoundary input offset :=
    ⟨Nat.le_of_lt hlt, hbefore, hdrop ▸ hbehind.cons_ascii hb⟩
  have hbyte : IsText [b] := .ascii hb
  exact ⟨hhere, hhere.advance hdrop hbyte⟩

end IsBoundary
end Utf8
end DocGrammar
