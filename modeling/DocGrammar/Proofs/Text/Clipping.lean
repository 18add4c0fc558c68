import DocGrammar.Grammar.Failure
import DocGrammar.Proofs.Text.Boundaries
import Mathlib.Order.Bounds.Defs

/-!
# Texts that are cut

A message that is too long is cut, but not within a character.  `Utf8.clip` goes through the
characters from the left and takes as many as there is room for.  One can also begin at the last
place that the limit allows and walk back, byte by byte, until there is a boundary between two
characters (`retreat`).  A look at one byte tells whether there is one (`isCut_iff`), and no
character has more than four of them.

Both come to the same: the longest part of the text, from its start, that ends at a boundary and has
no more bytes than the limit (`ParseError.message_clipped`).
-/

set_option autoImplicit false

namespace DocGrammar
namespace Utf8

/-! ## Boundaries, seen from a byte -/

/-- A byte that goes on with a character and begins none. -/
def isContinuation (b : UInt8) : Bool := 0x80 ≤ b && b < 0xC0

/-- Whether a place among bytes is at one of their ends or before a byte that begins a character. -/
def isCut (bytes : List UInt8) (n : Nat) : Bool :=
  n == 0 ||
    match bytes[n]? with
    | some b => !isContinuation b
    | none => n == bytes.length

theorem isContinuation_ofNat {n : Nat} (hlow : 0x80 ≤ n) (hhigh : n < 0xC0) :
    isContinuation (UInt8.ofNat n) = true := by
  simp [isContinuation, UInt8.le_iff_toNat_le, UInt8.lt_iff_toNat_lt,
    UInt8.toNat_ofNat_of_lt' (Nat.lt_trans hhigh (by decide)), hlow, hhigh]

theorem not_isContinuation_ofNat {n : Nat} (h : n < 0x80 ∨ 0xC0 ≤ n) (hn : n < 0x100) :
    isContinuation (UInt8.ofNat n) = false := by
  simp only [isContinuation, UInt8.le_iff_toNat_le, UInt8.lt_iff_toNat_lt,
    UInt8.toNat_ofNat_of_lt' hn, Bool.and_eq_false_iff, decide_eq_false_iff_not, Nat.not_le,
    Nat.not_lt]
  exact h

/-- The first byte of a character begins it, and the others go on with it. -/
theorem encodeChar_eq_cons (c : Char) : ∃ b rest, String.utf8EncodeChar c = b :: rest ∧
    isContinuation b = false ∧ ∀ b' ∈ rest, isContinuation b' = true := by
  have hbound := c.val.toNat_lt
  unfold String.utf8EncodeChar
  dsimp only
  split
  · exact ⟨_, [], rfl, not_isContinuation_ofNat (by omega) (by omega), by simp⟩
  split
  · refine ⟨_, _, rfl, not_isContinuation_ofNat (by omega) (by omega), ?_⟩
    simp only [List.forall_mem_cons, List.not_mem_nil]
    exact ⟨isContinuation_ofNat (by omega) (by omega), by simp⟩
  split
  · refine ⟨_, _, rfl, not_isContinuation_ofNat (by omega) (by omega), ?_⟩
    simp only [List.forall_mem_cons, List.not_mem_nil]
    exact ⟨isContinuation_ofNat (by omega) (by omega), isContinuation_ofNat (by omega) (by omega),
      by simp⟩
  · refine ⟨_, _, rfl, not_isContinuation_ofNat (by omega) (by omega), ?_⟩
    simp only [List.forall_mem_cons, List.not_mem_nil]
    exact ⟨isContinuation_ofNat (by omega) (by omega), isContinuation_ofNat (by omega) (by omega),
      isContinuation_ofNat (by omega) (by omega), by simp⟩

/-- A text that is not empty begins with a byte that begins a character. -/
theorem IsText.isContinuation_head {b : UInt8} {bytes : List UInt8} (h : IsText (b :: bytes)) :
    isContinuation b = false := by
  obtain ⟨letters, hletters⟩ := isText_iff_flatMap.1 h
  cases letters with
  | nil => simp at hletters
  | cons c letters =>
    obtain ⟨first, rest, hchar, hfirst, -⟩ := encodeChar_eq_cons c
    rw [List.flatMap_cons, hchar, List.cons_append] at hletters
    exact (List.cons.inj hletters).1 ▸ hfirst

/-- A place within a character is before one of its bytes that begin none. -/
theorem isCut_within (front more : List UInt8) (c : Char) {k : Nat} (hk : 0 < k)
    (hsize : k < c.utf8Size) :
    isCut (front ++ (String.utf8EncodeChar c ++ more)) (front.length + k) = false := by
  obtain ⟨first, rest, hchar, -, hrest⟩ := encodeChar_eq_cons c
  have hlength : c.utf8Size = rest.length + 1 := by
    rw [← String.length_utf8EncodeChar, hchar, List.length_cons]
  obtain ⟨i, rfl⟩ : ∃ i, k = i + 1 := ⟨k - 1, by omega⟩
  have hi : i < rest.length := by omega
  have hbyte : (front ++ (String.utf8EncodeChar c ++ more))[front.length + (i + 1)]? =
      some rest[i] := by
    rw [List.getElem?_append_right (Nat.le_add_right ..), Nat.add_sub_cancel_left, hchar,
      List.cons_append, List.getElem?_cons_succ, List.getElem?_append_left hi,
      List.getElem?_eq_getElem hi]
  have hcontinuation : isContinuation rest[i] = true := hrest _ (List.getElem_mem hi)
  simp [isCut, hbyte, hcontinuation]

theorem IsBoundary.isCut {bytes : List UInt8} {n : Nat} (h : IsBoundary bytes.toArray n) :
    isCut bytes n = true := by
  have hbehind : IsText (bytes.drop n) := h.behind
  have hle : n ≤ bytes.length := h.offset_le
  cases hbyte : bytes[n]? with
  | none =>
    have hge := List.getElem?_eq_none_iff.1 hbyte
    simp [Utf8.isCut, Nat.le_antisymm hle hge]
  | some b =>
    obtain ⟨hlt, rfl⟩ := List.getElem?_eq_some_iff.1 hbyte
    rw [List.drop_eq_getElem_cons hlt] at hbehind
    simp [Utf8.isCut, hbyte, hbehind.isContinuation_head]

/-! ## As many characters as fit -/

/-- What fits is followed by nothing or by a character for which there is no room. -/
theorem exists_fitting_append (room : Nat) (letters : List Char) :
    ∃ rest, letters = fitting room letters ++ rest ∧
      ((fitting room letters).flatMap String.utf8EncodeChar).length ≤ room ∧
      ∀ c ∈ rest.head?,
        room < ((fitting room letters).flatMap String.utf8EncodeChar).length + c.utf8Size := by
  induction letters generalizing room with
  | nil => exact ⟨[], by simp [fitting]⟩
  | cons c letters ih =>
    rw [fitting]
    split
    · obtain ⟨rest, hletters, hroom, hnext⟩ := ih (room - c.utf8Size)
      refine ⟨rest, by rw [List.cons_append, ← hletters], ?_, fun d hd ↦ ?_⟩
      · rw [List.flatMap_cons, List.length_append, String.length_utf8EncodeChar]
        omega
      · have := hnext d hd
        rw [List.flatMap_cons, List.length_append, String.length_utf8EncodeChar]
        omega
    · exact ⟨c :: letters, by simpa using ‹¬ c.utf8Size ≤ room›⟩

/-- What is left of a text is followed by nothing or by a character for which there is no room. -/
theorem exists_clip_append (limit : Nat) (text : String) :
    ∃ rest : List Char,
      encode text = encode (clip limit text) ++ rest.flatMap String.utf8EncodeChar ∧
      (encode (clip limit text)).length ≤ limit ∧
      ∀ c ∈ rest.head?, limit < (encode (clip limit text)).length + c.utf8Size := by
  obtain ⟨rest, hletters, hroom, hnext⟩ := exists_fitting_append limit text.toList
  have hclip : encode (clip limit text) =
      (fitting limit text.toList).flatMap String.utf8EncodeChar := encode_ofList _
  rw [← hclip] at hroom hnext
  refine ⟨rest, ?_, hroom, hnext⟩
  rw [encode_eq_flatMap text, hclip, ← List.flatMap_append, ← hletters]

/-- A text that is not too long stays as it is. -/
theorem clip_of_le {limit : Nat} {text : String} (h : (encode text).length ≤ limit) :
    clip limit text = text := by
  obtain ⟨rest, hbytes, -, hnext⟩ := exists_clip_append limit text
  cases rest with
  | nil => exact encode_inj.1 (by simpa using hbytes.symm)
  | cons c rest =>
    have hc := hnext c rfl
    have hlength := congrArg List.length hbytes
    simp only [List.flatMap_cons, List.length_append, String.length_utf8EncodeChar] at hlength
    omega

/-- Where a text that is too long is cut: at a boundary that is no more than three bytes from the
limit, with none between it and the limit. -/
structure CutAt (bytes : List UInt8) (limit n : Nat) : Prop where
  boundary : IsBoundary bytes.toArray n
  le_limit : n ≤ limit
  limit_lt : limit < n + 4
  within : ∀ k, n < k → k ≤ limit → Utf8.isCut bytes k = false

/-- **Where a text is cut that has more bytes than the limit.** -/
theorem exists_cutAt {limit : Nat} {text : String} (hlong : limit < (encode text).length) :
    ∃ n, encode (clip limit text) = (encode text).take n ∧ CutAt (encode text) limit n := by
  obtain ⟨rest, hbytes, hroom, hnext⟩ := exists_clip_append limit text
  have hboundary : IsBoundary (encode text).toArray (encode (clip limit text)).length := by
    refine ⟨by simp [hbytes], ?_, ?_⟩
    · rw [hbytes, List.take_left]
      exact ⟨_, rfl⟩
    · rw [hbytes, List.drop_left]
      exact isText_iff_flatMap.2 ⟨rest, rfl⟩
  -- the text goes on, with a character for which there is no room
  obtain ⟨c, rest, rfl⟩ : ∃ c rest', rest = c :: rest' := by
    refine List.exists_cons_of_ne_nil fun hnil ↦ ?_
    rw [hnil, List.flatMap_nil, List.append_nil] at hbytes
    rw [hbytes] at hlong
    omega
  have hc := hnext c rfl
  have hsize := c.utf8Size_le_four
  refine ⟨_, by rw [hbytes, List.take_left], hboundary, hroom, by omega, fun k hk hlimit ↦ ?_⟩
  obtain ⟨j, rfl⟩ := Nat.exists_eq_add_of_lt hk
  rw [hbytes, List.flatMap_cons, Nat.add_assoc]
  exact isCut_within _ _ c (Nat.succ_pos j) (by omega)

/-- A look at one byte tells whether a place is a boundary. -/
theorem isCut_iff {text : String} {n : Nat} :
    isCut (encode text) n = true ↔ IsBoundary (encode text).toArray n := by
  refine ⟨fun h ↦ ?_, IsBoundary.isCut⟩
  rcases Nat.lt_trichotomy n (encode text).length with hlt | rfl | hgt
  · obtain ⟨m, -, hcut⟩ := exists_cutAt hlt
    obtain rfl | hm := Nat.eq_or_lt_of_le hcut.le_limit
    · exact hcut.boundary
    · simp [hcut.within n hm (Nat.le_refl n)] at h
  · exact .size ⟨text, rfl⟩
  · have hnone : (encode text)[n]? = none := List.getElem?_eq_none (Nat.le_of_lt hgt)
    simp only [isCut, hnone, Bool.or_eq_true, beq_iff_eq] at h
    omega

/-! ## Walking back -/

/-- The first place at or before `n` that is a boundary, as seen from single bytes; none if there
is none among as many places as are looked at. -/
def retreat (bytes : List UInt8) : Nat → Nat → Option Nat
  | 0, _ => none
  | places + 1, n => if isCut bytes n then some n else retreat bytes places (n - 1)

namespace CutAt

variable {bytes : List UInt8} {limit n : Nat}

/-- No boundary within the limit is behind the one where the text is cut. -/
theorem isGreatest (h : CutAt bytes limit n) :
    IsGreatest {k | IsBoundary bytes.toArray k ∧ k ≤ limit} n := by
  refine ⟨⟨h.boundary, h.le_limit⟩, fun k ⟨hk, hlimit⟩ ↦ Nat.le_of_not_lt fun hlt ↦ ?_⟩
  have hcut := hk.isCut
  simp [h.within k hlt hlimit] at hcut

/-- From each place up to the limit the way back ends where the text is cut. -/
theorem retreat_eq (h : CutAt bytes limit n) {places k : Nat} (hk : n + k ≤ limit)
    (hplaces : k < places) : retreat bytes places (n + k) = some n := by
  induction k generalizing places with
  | zero =>
    obtain ⟨places, rfl⟩ := Nat.exists_eq_add_of_lt hplaces
    simp [retreat, h.boundary.isCut]
  | succ k ih =>
    cases places with
    | zero => omega
    | succ places =>
      have hnot := h.within (n + (k + 1)) (by omega) hk
      simp only [retreat, hnot, Bool.false_eq_true, if_false]
      exact ih (by omega) (by omega)

end CutAt
end Utf8

/-! ## Messages -/

namespace ParseError

open Utf8

/-- **A message of an error is the longest part of the text that fits.**  If the text has no more
bytes than the limit, it is the message.  Else it is cut at the last boundary between two characters
that is within the limit, and what is left is a text.  The boundary is no more than three bytes from
the limit; so walking back to it, with a look at one byte wherever one comes, takes four looks at
most. -/
theorem message_clipped (location : Location) (text : String) :
    (encode text).length ≤ messageLimit ∧ (clipped location text).message = text ∨
      messageLimit < (encode text).length ∧
        ∃ n, encode (clipped location text).message = (encode text).take n ∧
          decode ((encode text).take n) = some (clipped location text).message ∧
          IsGreatest {k | IsBoundary (encode text).toArray k ∧ k ≤ messageLimit} n ∧
          messageLimit - 3 ≤ n ∧
          retreat (encode text) 4 messageLimit = some n ∧
          ∀ k, isCut (encode text) k = true ↔ IsBoundary (encode text).toArray k := by
  rcases Nat.lt_or_ge messageLimit (encode text).length with hlong | hshort
  · obtain ⟨n, hbytes, hcut⟩ := exists_cutAt hlong
    have hle := hcut.le_limit
    have hlt := hcut.limit_lt
    have hback : retreat (encode text) 4 (n + (messageLimit - n)) = some n :=
      hcut.retreat_eq (by omega) (by omega)
    rw [Nat.add_sub_cancel' hle] at hback
    refine .inr ⟨hlong, n, hbytes, ?_, hcut.isGreatest, by omega, hback, fun k ↦ isCut_iff⟩
    rw [← hbytes, decode_encode, clipped]
  · exact .inl ⟨hshort, clip_of_le hshort⟩

end ParseError
end DocGrammar
