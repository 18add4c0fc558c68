import DocGrammar.Proofs.Direct.Tokens

/-!
# Strings

The engine first finds the span of a string and then decodes it; the direct reader does both at
once.  For quoted strings the two go through the bytes in the same steps, a backslash together with
the byte behind it being one step (`again_quoted`).
-/

set_option autoImplicit false

namespace DocGrammar
namespace Direct

variable {g : Grammar Symbol Builder} {loud : Bool}

/-! ## Identifiers -/

/-- The scanner of the span of a byte and as many further bytes as there are. -/
def headed (start more : UInt8 → Bool) : Scanner :=
  Scanner.flat <| Scanner.inOrder
    [Scanner.byte start, Scanner.optional (Scanner.run more)] false

theorem headed_cons (start more : UInt8 → Bool) (b : UInt8) (rest : List UInt8) :
    headed start more (b :: rest) =
      if start b then
        .ok (b :: rest.takeWhile more) (rest.dropWhile more) [.slice (b :: rest.takeWhile more)]
      else .fail := by
  rw [headed, Scanner.flat, Scanner.lookahead, Scanner.inOrder, Scanner.byte]
  by_cases hb : start b = true
  · simp only [if_pos hb]
    rw [Scanner.inOrder_optional_run]
    simp [Scanner.inOrder, Scan.after]
  · simp only [if_neg hb]

/-- The scanner of an identifier. -/
def identifierScanner : Scanner := headed Byte.isIdentifierStart Byte.isIdentifier

theorem identifierScanner_eq (bytes : List UInt8) :
    identifierScanner bytes =
      match identifier bytes with
      | some (token, rest) => .ok token rest [.slice token]
      | none => .fail := by
  cases bytes with
  | nil => rfl
  | cons b rest =>
    rw [identifierScanner, headed_cons, identifier]
    by_cases hb : Byte.isIdentifierStart b = true
    · rw [if_pos hb, if_pos hb]
    · rw [if_neg hb, if_neg hb]

theorem identifierStart_reads {classes : List (UInt8 → Bool)} {more : List TextGrammar.TextRule}
    (h : List.Forall₂ (fun r c ↦ r.Reads g loud 1 (.byte c)) more classes) :
    List.Forall₂ (fun r c ↦ r.Reads g loud 1 (.byte c)) (TextGrammar.identifierStart ++ more)
      ([fun b ↦ 0x61 ≤ b && b ≤ 0x7A, fun b ↦ 0x41 ≤ b && b ≤ 0x5A, (· == 0x5F),
        fun b ↦ 0x80 ≤ b && b ≤ 0xFF] ++ classes) :=
  .cons (.range _ _) <| .cons (.range _ _) <| .cons (.byte _) <| .cons (.range _ _) h

theorem identifier_reads : (Rule.flat (.allOf
      [.anyOf TextGrammar.identifierStart,
        (Rule.anyOf
          (TextGrammar.identifierStart ++ [.range 0x30 0x39, .byte 0x2D])).repeatedOrNone])
      : TextGrammar.TextRule).Reads g loud 3 identifierScanner := by
  have hstart : (Rule.anyOf TextGrammar.identifierStart : TextGrammar.TextRule).Reads g false 2
      (Scanner.byte Byte.isIdentifierStart) :=
    Rule.Reads.oneOf (identifierStart_reads .nil) <| Byte.forall_of_lt (by decide +kernel)
  have hmore : (Rule.anyOf (TextGrammar.identifierStart ++ [.range 0x30 0x39, .byte 0x2D])
      |>.repeatedOrNone : TextGrammar.TextRule).Reads g false 2
      (Scanner.optional (Scanner.run Byte.isIdentifier)) :=
    Scanner.repeated_byte Byte.isIdentifier ▸
      Rule.Reads.oneOf (identifierStart_reads (.cons (.range _ _) (.cons (.byte _) .nil)))
        (Byte.forall_of_lt (by decide +kernel))
  exact .allOf (m := { flat := true }) <| .cons hstart.of_quiet <| .cons hmore.of_quiet .nil

/-! ## Quoted strings -/

/-- A byte that stands for itself between quotes. -/
def isPlain (b : UInt8) : Bool := b != 0x22 && b != 0x5C && b != 0x0A

/-- The scanner of a step within a quoted string: an escape, or a byte that stands for itself. -/
def quotedStep : Scanner :=
  Scanner.firstOf
    [Scanner.inOrder [Scanner.byte (· == 0x5C), Scanner.byte fun _ ↦ true] false,
      Scanner.byte isPlain]

theorem quotedSteps_reads : List.Forall₂ (Rule.Reads g loud 2)
    [TextGrammar.escapePair, TextGrammar.plain]
    [Scanner.inOrder [Scanner.byte (· == 0x5C), Scanner.byte fun _ ↦ true] false,
      Scanner.byte isPlain] := by
  have hany {loud : Bool} : (Rule.range 0x00 0xFF : TextGrammar.TextRule).Reads g loud 1
      (Scanner.byte fun _ ↦ true) :=
    (Rule.Reads.range 0x00 0xFF).congr <| congrFun <| congrArg Scanner.byte <| funext <|
      Byte.forall_of_lt (by decide +kernel)
  have hplain : TextGrammar.plain.Reads g loud 2 (Scanner.byte isPlain) :=
    Rule.Reads.oneOf
      (.cons (.range _ _) <| .cons (.range _ _) <| .cons (.range _ _) <| .cons (.range _ _) .nil)
      (Byte.forall_of_lt (by decide +kernel))
  exact .cons (.allOf <| .cons (.byte 0x5C) <| .cons hany .nil) <| .cons hplain .nil

theorem quotedStep_escape (c : UInt8) (rest : List UInt8) :
    quotedStep (0x5C :: c :: rest) = .ok [0x5C, c] rest [.char 0x5C, .char c] := by
  simp [quotedStep, Scanner.firstOf, Scanner.inOrder, Scanner.byte, Scan.after]

theorem quotedStep_plain {b : UInt8} (hb : isPlain b = true) (rest : List UInt8) :
    quotedStep (b :: rest) = .ok [b] rest [.char b] := by
  have hne : (b == 0x5C) = false := by
    simp only [isPlain, Bool.and_eq_true, bne_iff_ne, ne_eq] at hb
    simpa using hb.1.2
  simp [quotedStep, Scanner.firstOf, Scanner.inOrder, Scanner.byte, hne, hb]

/-- Where there is no step: at the end, before a quote or a newline, and at a last backslash. -/
def isQuotedEnd : List UInt8 → Bool
  | [] => true
  | [b] => !isPlain b
  | b :: _ :: _ => b == 0x22 || b == 0x0A

theorem quotedStep_fail : ∀ {bytes : List UInt8}, isQuotedEnd bytes = true →
    quotedStep bytes = .fail
  | [], _ => rfl
  | [b], h => by
    have hb : isPlain b = false := by simpa [isQuotedEnd] using h
    by_cases hslash : b = 0x5C <;>
      simp [quotedStep, Scanner.firstOf, Scanner.inOrder, Scanner.byte, hslash, hb, Scan.after,
        show isPlain 0x5C = false from rfl]
  | b :: c :: rest, h => by
    simp only [isQuotedEnd, Bool.or_eq_true, beq_iff_eq] at h
    rcases h with rfl | rfl <;>
      simp [quotedStep, Scanner.firstOf, Scanner.inOrder, Scanner.byte, isPlain]

/-- The step that the bytes begin with. -/
theorem quotedStep_cases (bytes : List UInt8) :
    isQuotedEnd bytes = true ∨ (∃ c rest, bytes = 0x5C :: c :: rest) ∨
      ∃ b rest, bytes = b :: rest ∧ isPlain b = true := by
  match bytes with
  | [] => exact .inl rfl
  | [b] =>
    cases hb : isPlain b with
    | true => exact .inr (.inr ⟨b, [], rfl, hb⟩)
    | false => exact .inl (by rw [isQuotedEnd, hb, Bool.not_false])
  | b :: c :: rest =>
    by_cases h : b = 0x5C
    · exact .inr (.inl ⟨c, rest, by rw [h]⟩)
    · cases hb : isPlain b with
      | true => exact .inr (.inr ⟨b, c :: rest, rfl, hb⟩)
      | false =>
        refine .inl ?_
        have hslash : (b != 0x5C) = true := by simpa using h
        rw [isPlain, hslash, Bool.and_true, Bool.and_eq_false_iff] at hb
        simpa [isQuotedEnd] using hb

theorem quotedStep_consumes : quotedStep.Consumes := by
  intro bytes token rest values h
  rcases quotedStep_cases bytes with hend | ⟨c, rest', rfl⟩ | ⟨b, rest', rfl, hb⟩
  · rw [quotedStep_fail hend] at h
    cases h
  · rw [quotedStep_escape] at h
    cases h
    refine ⟨List.cons_ne_nil _ _, ?_⟩
    rw [List.length_cons, List.length_cons]
    omega
  · rw [quotedStep_plain hb] at h
    cases h
    exact ⟨List.cons_ne_nil _ _, Nat.lt_succ_self _⟩

/-- Only a backslash is not kept as it is. -/
theorem unescape_cons {b : UInt8} (hb : b ≠ 0x5C) (bytes : List UInt8) :
    Quoted.unescape (b :: bytes) = b :: Quoted.unescape bytes := by
  cases bytes with
  | nil => rfl
  | cons c rest => rw [Quoted.unescape, if_neg hb]

/-- Where there is no step, the string ends, or it is none. -/
theorem quotedBody_of_end : ∀ {bytes : List UInt8}, isQuotedEnd bytes = true →
    match quotedBody bytes with
    | some (body, left) => bytes = 0x22 :: left ∧ body = []
    | none => bytes.head? ≠ some 0x22
  | [], _ => nofun
  | [b], h => by
    simp only [isQuotedEnd, isPlain, Bool.not_and, Bool.or_eq_true, Bool.not_eq_true',
      bne_eq_false_iff_eq] at h
    rcases h with (rfl | rfl) | rfl <;> simp [quotedBody]
  | b :: c :: rest, h => by
    simp only [isQuotedEnd, Bool.or_eq_true, beq_iff_eq] at h
    rcases h with rfl | rfl <;> simp [quotedBody]

/-- **The engine and the direct reader agree on what stands between quotes**, as long as there are
enough rounds: either both come to the closing quote, or neither does. -/
theorem again_quoted : ∀ (rounds : Nat) (bytes : List UInt8), bytes.length < rounds →
    ∃ raw rest values, Scanner.again quotedStep rounds bytes = (raw, rest, values) ∧
      match quotedBody bytes with
      | some (body, left) => rest = 0x22 :: left ∧ Quoted.unescape raw = body
      | none => rest.head? ≠ some 0x22
  | 0, _, h => absurd h (Nat.not_lt_zero _)
  | rounds + 1, bytes, h => by
    rcases quotedStep_cases bytes with hend | ⟨c, rest, rfl⟩ | ⟨b, rest, rfl, hb⟩
    · refine ⟨[], bytes, [], by rw [Scanner.again, quotedStep_fail hend], ?_⟩
      have hbody := quotedBody_of_end hend
      cases hbytes : quotedBody bytes with
      | none => rwa [hbytes] at hbody
      | some found =>
        obtain ⟨body, left⟩ := found
        rw [hbytes] at hbody
        obtain ⟨hquote, rfl⟩ := hbody
        exact ⟨hquote, rfl⟩
    · obtain ⟨raw, left, values, hagain, hbody⟩ := again_quoted rounds rest
        (by simp only [List.length_cons] at h; omega)
      refine ⟨0x5C :: c :: raw, left, .char 0x5C :: .char c :: values, ?_, ?_⟩
      · simp [Scanner.again, quotedStep_escape, hagain]
      · rw [quotedBody_escaped]
        cases hrest : quotedBody rest with
        | none => rwa [hrest] at hbody
        | some found =>
          rw [hrest] at hbody
          exact ⟨hbody.1, by rw [Quoted.unescape, if_pos rfl, hbody.2]⟩
    · obtain ⟨raw, left, values, hagain, hbody⟩ := again_quoted rounds rest
        (Nat.lt_of_succ_lt_succ h)
      have hscan := quotedStep_plain hb rest
      simp only [isPlain, Bool.and_eq_true, bne_iff_ne] at hb
      refine ⟨b :: raw, left, .char b :: values, ?_, ?_⟩
      · simp [Scanner.again, hscan, hagain]
      · rw [quotedBody_plain hb.1.1 hb.2 hb.1.2]
        cases hrest : quotedBody rest with
        | none => rwa [hrest] at hbody
        | some found =>
          rw [hrest] at hbody
          exact ⟨hbody.1, by rw [unescape_cons hb.1.2, hbody.2]⟩

/-- The scanner of a string between quotes. -/
def quotedScanner : Scanner :=
  Scanner.inOrder
    [Scanner.lookahead (Scanner.byte (· == 0x22)),
      Scanner.flat (Scanner.optional (Scanner.repeated quotedStep)),
      Scanner.lookahead (Scanner.byte (· == 0x22))] false

theorem quotedScanner_spec (rest : List UInt8) :
    match quotedBody rest with
    | some (body, left) => ∃ token values,
        quotedScanner (0x22 :: rest) = .ok token left values ∧
          Quoted.unescape ((lastSpan values).getD []) = body
    | none => quotedScanner (0x22 :: rest) = .fail := by
  obtain ⟨raw, left, values, hagain, -, hscan⟩ := Scanner.inOrder_repeated quotedStep_consumes
    [Scanner.lookahead (Scanner.byte (· == 0x22))] true rest
  obtain ⟨raw', left', values', hagain', hbody⟩ := again_quoted (rest.length + 1) rest
    (Nat.lt_succ_self _)
  cases hagain.symm.trans hagain'
  rw [quotedScanner, Scanner.inOrder, Scanner.lookahead, Scanner.byte]
  simp only [beq_self_eq_true, if_true, hscan]
  cases hrest : quotedBody rest with
  | none =>
    rw [hrest] at hbody
    cases left with
    | nil => simp [Scanner.inOrder, Scanner.lookahead, Scanner.byte, Scan.after]
    | cons c left =>
      have hc : c ≠ 0x22 := fun hc ↦ hbody (congrArg some hc)
      simp [Scanner.inOrder, Scanner.lookahead, Scanner.byte, Scan.after, hc]
  | some found =>
    rw [hrest] at hbody
    obtain ⟨rfl, hraw⟩ := hbody
    by_cases hempty : raw = []
    · simp [Scanner.inOrder, Scanner.lookahead, Scanner.byte, Scan.after, hempty, lastSpan, ← hraw]
    · simp [Scanner.inOrder, Scanner.lookahead, Scanner.byte, Scan.after, hempty, lastSpan, ← hraw,
        Value.slice?]

theorem quotedScanner_fail {b : UInt8} (hb : b ≠ 0x22) (rest : List UInt8) :
    quotedScanner (b :: rest) = .fail := by
  simp [quotedScanner, Scanner.inOrder, Scanner.lookahead, Scanner.byte, hb]

theorem quotedEnd_reads : (TextGrammar.act TextGrammar.quotedEnd).Reads g loud 1
    (Scanner.lookahead (Scanner.byte (· == 0x22))) := by
  refine .leaf fun s _ ↦ ?_
  show Fits s _ _ (TextGrammar.quotedEnd s s.position)
  refine Evaluate.taken_fits (fun h ↦ ?_) fun h ↦ ?_
  · rw [TextGrammar.quotedEnd, h]
    rfl
  · rw [TextGrammar.quotedEnd]
    cases hpeek : s.peek with
    | none => exact ⟨_, rfl⟩
    | some b =>
      have hb : b ≠ 0x22 := fun hb ↦ h (hb ▸ hpeek)
      simp only [if_neg hb]
      split
      · exact ⟨_, rfl⟩
      · exact ⟨_, rfl⟩

/-- The scanner of what stands between quotes. -/
def quotedRun : Scanner := Scanner.flat (Scanner.optional (Scanner.repeated quotedStep))

theorem quotedRun_reads :
    (Rule.anyOf [TextGrammar.escapePair, TextGrammar.plain]).repeatedOrNone.flat.Reads g loud 3
      quotedRun :=
  .anyOf (m := { flat := true, repeatedOrNone := true }) quotedSteps_reads

theorem quoted_reads : (Rule.allOf
      [(Rule.byte 0x22).lookahead,
        (Rule.anyOf [TextGrammar.escapePair, TextGrammar.plain]).repeatedOrNone.flat,
        TextGrammar.act TextGrammar.quotedEnd]).Reads g loud 4 quotedScanner :=
  .allOf <| .cons ((Rule.Reads.byte 0x22).mono (by decide)) <| .cons quotedRun_reads <|
    .cons (quotedEnd_reads.mono (by decide)) .nil

/-! ## Block strings -/

/-- The scanner of what is in a block string, and of its closing fence. -/
def blockEndScanner : Scanner := fun bytes ↦
  match blockBody bytes with
  | some (body, left) => .ok (body ++ TextGrammar.fence) left [.slice body]
  | none => .fail

/-- The scanner of a block string. -/
def blockScanner : Scanner :=
  Scanner.inOrder [Scanner.lookahead (Scanner.word TextGrammar.fence), blockEndScanner] false

theorem blockBody_eq (bytes : List UInt8) :
    match TextGrammar.beforeFence bytes with
    | some body => ∃ left, blockBody bytes = some (body, left) ∧
        bytes = (body ++ TextGrammar.fence) ++ left
    | none => blockBody bytes = none := by
  induction bytes with
  | nil => rfl
  | cons b rest ih =>
    rw [TextGrammar.beforeFence, blockBody]
    by_cases hfence : TextGrammar.fence.isPrefixOf (b :: rest) = true
    · obtain ⟨left, hleft⟩ := List.isPrefixOf_iff_prefix.1 hfence
      simp only [if_pos hfence]
      refine ⟨rest.drop 2, rfl, ?_⟩
      rw [List.nil_append, ← hleft]
      obtain ⟨-, rfl⟩ := List.cons.inj hleft
      rfl
    · simp only [if_neg hfence]
      cases hbefore : TextGrammar.beforeFence rest with
      | none =>
        rw [hbefore] at ih
        simp only at ih
        simp only [ih, Option.map_none]
      | some body =>
        rw [hbefore] at ih
        obtain ⟨left, hbody, hrest⟩ := ih
        simp only [hbody, Option.map_some]
        exact ⟨left, rfl, by rw [hrest]; rfl⟩

theorem blockEnd_reads :
    (TextGrammar.act TextGrammar.blockBody).Reads g loud 1 blockEndScanner := by
  refine .leaf fun {input} s _ ↦ ?_
  show Fits s _ _ (TextGrammar.blockBody s s.position)
  have hbody := blockBody_eq s.rest
  rw [TextGrammar.blockBody, blockEndScanner]
  cases hbefore : TextGrammar.beforeFence s.rest with
  | none =>
    rw [hbefore] at hbody
    simp only at hbody
    rw [hbody]
    have hmoved := s.moveTo_took s.cursor_le (Nat.le_refl _)
    exact .fail (hmoved.beyond.trans ((s.moveTo input.size).failAt_same _ _).beyond)
  | some body =>
    rw [hbefore] at hbody
    obtain ⟨left, hbody, hrest⟩ := hbody
    rw [hbody]
    have htook := State.advance_push_took hrest (.slice body)
    rw [List.length_append] at htook
    exact .ok htook

theorem block_reads : (Rule.allOf
      [(Rule.literal TextGrammar.fence).lookahead, TextGrammar.act TextGrammar.blockBody]).Reads g
    loud 2 blockScanner :=
  .allOf <| .cons (.literal _) <| .cons blockEnd_reads .nil

theorem blockScanner_spec {bytes : List UInt8}
    (hfence : TextGrammar.fence.isPrefixOf bytes = true) :
    match blockBody (bytes.drop 3) with
    | some (body, left) => ∃ token, blockScanner bytes = .ok token left [.slice body]
    | none => blockScanner bytes = .fail := by
  rw [blockScanner, Scanner.inOrder, Scanner.lookahead, Scanner.word]
  simp only [if_pos hfence, Scanner.inOrder, blockEndScanner,
    show TextGrammar.fence.length = 3 from rfl]
  cases hbody : blockBody (bytes.drop 3) with
  | none => rfl
  | some found => exact ⟨_, rfl⟩

theorem blockScanner_fail {bytes : List UInt8}
    (hfence : ¬ TextGrammar.fence.isPrefixOf bytes = true) : blockScanner bytes = .fail := by
  rw [blockScanner, Scanner.inOrder, Scanner.lookahead, Scanner.word, if_neg hfence]

end Direct
end DocGrammar
