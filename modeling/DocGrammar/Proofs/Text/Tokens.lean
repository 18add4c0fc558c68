import DocGrammar.Proofs.Direct.Scalars
import DocGrammar.Proofs.Termination.Loops
import DocGrammar.Proofs.Text.Boundaries

/-!
# Where the bytes of a token end

All that the grammar takes without looking at every single byte ends at a boundary nevertheless,
because of what it ends at or with: a run of letters ends before a byte that is none of them, and
all bytes of characters beyond ASCII are; what stands in a quoted string ends before a quote, a
newline or a backslash, and in a block string before a fence; and fluff ends behind a separator,
behind a newline or behind a closing comment mark.

Resolving escapes takes bytes out and puts bytes in, but only such of ASCII
(`IsText.unescape`).  A backslash stands before a single byte, which may well be the first of
several of one character; that byte is kept, and so are the others.
-/

set_option autoImplicit false

namespace DocGrammar

open Utf8 (IsText IsBoundary)

/-! ## Ends of texts -/

/-- What stands before a byte of ASCII, or before nothing, is a text. -/
theorem Utf8.IsText.of_ends {token rest : List UInt8} (h : IsText (token ++ rest))
    (hrest : ∀ b ∈ rest.head?, b < 0x80) : IsText token := by
  cases rest with
  | nil => rwa [List.append_nil] at h
  | cons b rest => exact (h.around_ascii (hrest b rfl)).1

/-- A value that is a text, if it is a span. -/
def Value.IsText (value : Value) : Prop := ∀ span ∈ value.slice?, Utf8.IsText span

theorem Value.isText_of_slice?_eq_none {value : Value} (h : value.slice? = none) :
    value.IsText := by
  intro span hspan
  rw [h] at hspan
  cases hspan

/-- A scanner that takes texts off texts. -/
def Scanner.TakesText (p : Scanner) : Prop :=
  ∀ ⦃bytes token rest values⦄, p bytes = .ok token rest values → IsText (token ++ rest) →
    IsText token ∧ ∀ value ∈ values, value.IsText

/-- A scanner that adds nothing but the span it takes, and takes it up to a byte of ASCII. -/
theorem Scanner.TakesText.of_span {p : Scanner} (h : ∀ ⦃bytes token rest values⦄,
    p bytes = .ok token rest values → (∀ b ∈ rest.head?, b < 0x80) ∧ values = [.slice token]) :
    p.TakesText := by
  intro bytes token rest values hscan htext
  obtain ⟨hrest, rfl⟩ := h hscan
  have htoken := htext.of_ends hrest
  refine ⟨htoken, fun value hvalue span hspan ↦ ?_⟩
  obtain rfl := List.mem_singleton.1 hvalue
  cases hspan
  exact htoken

/-! ## Runs -/

namespace Direct

/-- A run is a text if all bytes of characters beyond ASCII may stand in it. -/
theorem headed_takesText {start more : UInt8 → Bool} (hmore : ∀ b, more b = false → b < 0x80) :
    (headed start more).TakesText := by
  refine .of_span fun bytes token rest values h ↦ ?_
  cases bytes with
  | nil => cases h
  | cons b bytes =>
    rw [headed_cons] at h
    split at h
    · cases h
      refine ⟨fun c hc ↦ hmore c ?_, rfl⟩
      have hhead := List.head?_dropWhile_not more bytes
      rwa [hc] at hhead
    · cases h

/-! ## Quoted strings -/

/-- What stands between quotes ends where no step can be taken. -/
theorem again_quotedStep_end : ∀ {rounds : Nat} {bytes : List UInt8}, bytes.length < rounds →
    isQuotedEnd (Scanner.again quotedStep rounds bytes).2.1 = true
  | 0, _, h => absurd h (Nat.not_lt_zero _)
  | rounds + 1, bytes, h => by
    rcases quotedStep_cases bytes with hend | ⟨c, rest, rfl⟩ | ⟨b, rest, rfl, hb⟩
    · rwa [Scanner.again, quotedStep_fail hend]
    · simp only [Scanner.again, quotedStep_escape, reduceCtorEq, if_false]
      exact again_quotedStep_end (by simp only [List.length_cons] at h; omega)
    · simp only [Scanner.again, quotedStep_plain hb, reduceCtorEq, if_false]
      exact again_quotedStep_end (Nat.lt_of_succ_lt_succ h)

/-- That is before a quote, a newline or a backslash, or at the end. -/
theorem head_of_isQuotedEnd : ∀ {bytes : List UInt8}, isQuotedEnd bytes = true →
    ∀ b ∈ bytes.head?, b < 0x80
  | [], _, _, hb => by cases hb
  | [b], h, _, hb => by
    cases hb
    exact Byte.forall_of_lt (P := fun b ↦ isQuotedEnd [b] = true → b < 0x80) (by decide +kernel) b h
  | b :: _ :: _, h, _, hb => by
    cases hb
    simp only [isQuotedEnd, Bool.or_eq_true, beq_iff_eq] at h
    rcases h with rfl | rfl <;> decide

theorem quotedRun_takesText : quotedRun.TakesText := by
  refine .of_span fun bytes token rest values h ↦ ?_
  rw [quotedRun, Scanner.flat, Scanner.lookahead, Scanner.optional, Scanner.repeated] at h
  cases hstep : quotedStep bytes with
  | ok token' rest' values' =>
    have hend := again_quotedStep_end (Nat.lt_succ_self rest'.length)
    simp only [hstep] at h
    cases h
    exact ⟨head_of_isQuotedEnd hend, rfl⟩
  | fail => simp [hstep] at h
  | noMatch => simp [hstep] at h

end Direct

/-! ## Escapes -/

namespace Utf8

/-- What no backslash stands in is left as it is. -/
theorem unescape_append {bytes : List UInt8} (h : ∀ b ∈ bytes, b ≠ 0x5C) (rest : List UInt8) :
    Quoted.unescape (bytes ++ rest) = bytes ++ Quoted.unescape rest := by
  induction bytes with
  | nil => rfl
  | cons b bytes ih =>
    have hrest := ih fun c hc ↦ h c (List.mem_cons_of_mem b hc)
    rw [List.cons_append, Direct.unescape_cons (h b List.mem_cons_self), hrest, List.cons_append]

theorem ofNat_lt {n : Nat} (hn : n < 0x80) : UInt8.ofNat n < 0x80 := by
  rwa [UInt8.lt_iff_toNat_lt, UInt8.toNat_ofNat_of_lt' (Nat.lt_trans hn (by decide))]

theorem resolve_ascii {b : UInt8} : b < 0x80 → Quoted.resolve b < 0x80 :=
  Byte.forall_of_lt (P := fun b ↦ b < 0x80 → Quoted.resolve b < 0x80) (by decide +kernel) b

theorem resolve_high {b : UInt8} : 0x80 ≤ b → Quoted.resolve b = b :=
  Byte.forall_of_lt (P := fun b ↦ 0x80 ≤ b → Quoted.resolve b = b) (by decide +kernel) b

/-- A backslash stands for nothing but itself. -/
theorem ne_backslash {c : Char} (hc : c ≠ '\\') : ∀ b ∈ String.utf8EncodeChar c, b ≠ 0x5C :=
  encodeChar_ne (by decide) hc

/-- Resolving the escapes of one character after the other.  A character behind a backslash is in
ASCII, or its first byte is kept, as the others are. -/
theorem isText_unescape_letters : ∀ letters : List Char,
    IsText (Quoted.unescape (letters.flatMap String.utf8EncodeChar))
  | [] => .nil
  | c :: letters => by
    have hletters := isText_unescape_letters letters
    rw [List.flatMap_cons]
    by_cases hc : c = '\\'
    · rw [hc, show String.utf8EncodeChar '\\' = [0x5C] from rfl, List.singleton_append]
      match letters with
      | [] => exact .ascii (by decide)
      | d :: letters =>
        have hletters := isText_unescape_letters letters
        rw [List.flatMap_cons]
        by_cases hd : d.toNat < 0x80
        · rw [encodeChar_ascii hd, List.singleton_append, Quoted.unescape, if_pos rfl]
          exact hletters.cons_ascii (resolve_ascii (ofNat_lt hd))
        · have hhigh := encodeChar_high (Nat.le_of_not_lt hd)
          obtain ⟨b, bytes, hbytes⟩ := List.exists_cons_of_ne_nil
            (String.utf8EncodeChar_ne_nil (c := d))
          have hkept : ∀ b' ∈ bytes, b' ≠ 0x5C := fun b' hb' heq ↦ by
            have := hhigh b' (hbytes ▸ List.mem_cons_of_mem b hb')
            rw [heq] at this
            exact absurd this (by decide)
          have htext := (IsText.char d).append hletters
          rw [hbytes] at hhigh htext ⊢
          rw [List.cons_append, Quoted.unescape, if_pos rfl,
            resolve_high (hhigh b List.mem_cons_self), unescape_append hkept]
          exact htext
    · rw [unescape_append (ne_backslash hc)]
      exact (IsText.char c).append hletters

/-- **Resolving the escapes of a text leaves a text.** -/
theorem IsText.unescape {bytes : List UInt8} (h : IsText bytes) :
    IsText (Quoted.unescape bytes) := by
  obtain ⟨letters, rfl⟩ := isText_iff_flatMap.1 h
  exact isText_unescape_letters letters

/-- The backslash is dropped from before the first of two bytes. -/
example : Quoted.unescape (encode "\\é\\n") = encode "é\n" := by
  decide +kernel

end Utf8

/-! ## Block strings -/

namespace TextGrammar

theorem isText_fence : IsText fence :=
  .cons_ascii (by decide) <| .cons_ascii (by decide) <| .ascii (by decide)

/-- A block string is a text. -/
theorem isText_beforeFence {bytes body : List UInt8} (h : beforeFence bytes = some body)
    (htext : IsText bytes) : IsText body := by
  have hbody := Direct.blockBody_eq bytes
  rw [h] at hbody
  obtain ⟨left, -, rfl⟩ := hbody
  rw [List.append_assoc] at htext
  refine htext.of_ends fun b hb ↦ ?_
  cases hb
  decide

end TextGrammar

/-! ## Fluff -/

namespace Fluff

variable {input : Array UInt8} {mode mode' : Mode} {offset offset' : Nat} {result : Ending × Nat}

theorem isSeparator_ascii {b : UInt8} : isSeparator b = true → b < 0x80 :=
  Byte.forall_of_lt (P := fun b ↦ isSeparator b = true → b < 0x80) (by decide +kernel) b

/-- Within a comment a round may take the scan anywhere.  It takes it back between comments only
behind a byte of ASCII, -/
theorem isBoundary_of_round_inr (h : IsText input.toList)
    (hround : round input mode offset = .inr (mode', offset')) (hmode' : mode' = .between) :
    IsBoundary input offset' := by
  have hbehind {i : Nat} {b : UInt8} (hi : input[i]? = some b) (hb : b < 0x80) :=
    (IsBoundary.around_ascii h hi hb).2
  unfold round at hround
  split at hround
  · cases hround
  · next b hb =>
    cases mode with
    | between =>
      dsimp only at hround
      split at hround
      · next hseparator =>
        cases hround
        exact hbehind hb (isSeparator_ascii hseparator)
      · split at hround
        · split at hround
          · cases hround
            cases hmode'
          · split at hround <;> cases hround
            cases hmode'
        · cases hround
    | line =>
      cases hround
      split at hmode'
      · next hnewline => exact hbehind hb (hnewline ▸ by decide)
      · cases hmode'
    | block depth =>
      dsimp only at hround
      split at hround
      · cases hround
        cases hmode'
      · split at hround
        · next hclose =>
          cases hround
          exact hbehind hclose.2 (by decide)
        · cases hround
          cases hmode'

/-- and ends it between comments or with the input. -/
theorem isBoundary_of_round_inl (h : IsText input.toList)
    (hmode : mode = .between → IsBoundary input offset)
    (hround : round input mode offset = .inl result) :
    IsBoundary input (min result.2 input.size) := by
  have hend (hnone : input[offset]? = none) : min offset input.size = input.size :=
    Nat.min_eq_right (Array.getElem?_eq_none_iff.1 hnone)
  have hhere (h : IsBoundary input offset) : IsBoundary input (min offset input.size) := by
    rwa [Nat.min_eq_left h.offset_le]
  unfold round at hround
  split at hround
  · next hnone =>
    cases hround
    show IsBoundary input (min offset input.size)
    exact (hend hnone).symm ▸ .size h
  · cases mode with
    | between =>
      dsimp only at hround
      split at hround
      · cases hround
      · split at hround
        · split at hround
          · cases hround
          · split at hround <;> cases hround
            exact hhere (hmode rfl)
        · cases hround
          exact hhere (hmode rfl)
    | line => cases hround
    | block depth =>
      dsimp only at hround
      split at hround
      · cases hround
      · split at hround <;> cases hround

theorem Rounds.isBoundary (h : IsText input.toList) (hrounds : Rounds input mode offset result)
    (hmode : mode = .between → IsBoundary input offset) :
    IsBoundary input (min result.2 input.size) := by
  induction hrounds with
  | last hround => exact isBoundary_of_round_inl h hmode hround
  | next hround _ _ ih => exact ih (isBoundary_of_round_inr h hround)

/-- **Fluff ends at a boundary**, if it begins at one. -/
theorem scan_isBoundary (hoffset : IsBoundary input offset) :
    IsBoundary input (min (scan input (input.size - offset) .between offset).2 input.size) :=
  (scan_rounds .between (by omega)).isBoundary hoffset.input_isText fun _ ↦ hoffset

end Fluff
end DocGrammar
