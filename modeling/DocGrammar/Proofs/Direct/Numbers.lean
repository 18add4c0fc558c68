import DocGrammar.Grammar.Leaf
import DocGrammar.Proofs.Direct.Tokens

/-!
# Numbers

The rules for numbers are sequences and choices of runs of digits, so what they read is settled by
computing with scanners.  A decimal is read in one piece and then valued; `Scanner.Spells` compares
the piece.  An integer is a sign and a magnitude, each a value of its own, which `closeSigned`
combines.

The bases overlap, but not where it matters.  If a number that begins with `0x` and a digit is out
of range as a hexadecimal one, then it is the octal zero that the engine goes on with, and that runs
on into the `x`; and what is out of range as an octal number is so as a decimal one.
-/

set_option autoImplicit false

namespace DocGrammar

/-! ## Sequences that begin with something optional -/

namespace Scanner

/-- A scanner spells what a direct reader of tokens reads, whatever the values are. -/
def Spells (p : Scanner) (reader : List UInt8 → Option (List UInt8 × List UInt8)) : Prop :=
  ∀ bytes, match reader bytes with
    | some (token, rest) => ∃ values, p bytes = .ok token rest values
    | none => p bytes = .fail

theorem inOrder_optional_sign (ps : List Scanner) (matched : Bool) (bytes : List UInt8) :
    inOrder (optional (byte Direct.isSign) :: ps) matched bytes =
      (inOrder ps (matched || !(Direct.sign bytes).1.isEmpty) (Direct.sign bytes).2).after
        (Direct.sign bytes).1 ((Direct.sign bytes).1.map .char) := by
  cases bytes with
  | nil => simp [inOrder, optional, byte, Direct.sign]
  | cons b rest =>
    by_cases hb : Direct.isSign b = true <;> simp [inOrder, optional, byte, Direct.sign, hb]

/-! ## Decimals -/

/-- The scanner of an exponent. -/
def exponent : Scanner :=
  inOrder
    [byte fun b ↦ b == 0x65 || b == 0x45, optional (byte Direct.isSign), run Byte.isDigit] false

theorem exponent_spells : exponent.Spells Direct.exponent := by
  intro bytes
  cases bytes with
  | nil => rfl
  | cons b rest =>
    rw [exponent, inOrder, byte]
    by_cases hb : b = 0x65 ∨ b = 0x45
    · have hb' : (b == 0x65 || b == 0x45) = true := by simpa using hb
      simp only [Direct.exponent, if_pos hb, hb', if_true]
      rw [inOrder_optional_sign]
      by_cases h : (Direct.sign rest).2.takeWhile Byte.isDigit = []
      · simp [inOrder, run, h, Scan.after]
      · simp [inOrder, run, h, Scan.after]
    · have hb' : (b == 0x65 || b == 0x45) = false := by simpa using hb
      simp [Direct.exponent, if_neg hb, hb']

/-- The scanner of a decimal. -/
def decimal : Scanner :=
  inOrder
    [optional (byte Direct.isSign),
      firstOf
        [inOrder
            [optional (run Byte.isDigit), byte (· == 0x2E), run Byte.isDigit, optional exponent]
            false,
          inOrder [run Byte.isDigit, exponent] false]]
    false

theorem decimal_spells : decimal.Spells Direct.decimalToken := by
  intro bytes
  rw [decimal, inOrder_optional_sign, inOrder, Direct.decimalToken]
  generalize Direct.sign bytes = signed
  obtain ⟨sign, unsigned⟩ := signed
  -- the two alternatives share the digits in front, which may be missing before a point only
  simp only [firstOf]
  rw [inOrder_optional_run]
  simp only [inOrder, run]
  generalize unsigned.takeWhile Byte.isDigit = whole
  cases unsigned.dropWhile Byte.isDigit with
  | nil => by_cases h : whole = [] <;> simp [h, byte, inOrder, exponent, Scan.after]
  | cons b rest =>
    by_cases hb : b = 0x2E
    · subst hb
      have hnone := exponent_spells (0x2E :: rest)
      rw [Direct.exponent, if_neg (by decide)] at hnone
      by_cases hfraction : rest.takeWhile Byte.isDigit = []
      · by_cases h : whole = [] <;> simp [h, hfraction, hnone, byte, Scan.after]
      · have hexponent := exponent_spells (rest.dropWhile Byte.isDigit)
        cases he : Direct.exponent (rest.dropWhile Byte.isDigit) with
        | none =>
          rw [he] at hexponent
          simp [hfraction, he, hexponent, byte, optional, Scan.after]
        | some found =>
          obtain ⟨e, left⟩ := found
          rw [he] at hexponent
          obtain ⟨values, hexponent⟩ := hexponent
          simp [hfraction, he, hexponent, byte, optional, Scan.after]
    · have hb' : (b == 0x2E) = false := by simpa using hb
      have hexponent := exponent_spells (b :: rest)
      by_cases h : whole = []
      · simp [h, hb, byte, Scan.after]
      · cases he : Direct.exponent (b :: rest) with
        | none =>
          rw [he] at hexponent
          simp [h, hb, he, hexponent, byte, Scan.after]
        | some found =>
          obtain ⟨e, left⟩ := found
          rw [he] at hexponent
          obtain ⟨values, hexponent⟩ := hexponent
          simp [h, hb, he, hexponent, byte, Scan.after]

end Scanner

/-! ## Actions that value what was matched -/

theorem State.Took.okReplace {input : Array UInt8} {U : Type} {s s₁ : State input U}
    {token rest : List UInt8} {values : List Value} {user : U}
    (h : s.Took token rest values user s₁) (value : Value) :
    s.Took token rest [value] user (s₁.okReplace s.position value).2 := by
  have hcut : s.Took token rest [] user (s₁.truncate s.position) :=
    ⟨h.input_eq, h.cursor_eq, by
      rw [State.heard_nil, List.append_nil]
      exact (List.prefix_iff_eq_take.1 h.extends.isPrefix).symm, h.errorsSilenced_eq,
      h.resultsSilenced_eq, h.user_eq⟩
  have hpushed := hcut.trans ((s₁.truncate s.position).push_took value)
  rwa [hcut.rest_eq, hcut.user_eq, List.append_nil] at hpushed

/-- An action that puts one value in place of those that were matched, or fails. -/
theorem Evaluate.Closes.replacing {U : Type} {act : DirectAction U}
    {f : List Value → Option Value}
    (hact : ∀ {input : Array UInt8} (s : State input U) (start : Position),
      match f (s.resultsSince start) with
      | some value => act s start = s.okReplace start value
      | none => ∃ reason, act s start = s.fail reason) :
    Evaluate.Closes @act fun _ values ↦ (f values).map fun value ↦ [value] := by
  intro input s s₁ token rest values hs h
  have hreply := hact s₁ s.position
  rw [h.resultsSince_eq hs] at hreply
  cases hf : f values with
  | some value =>
    rw [hf] at hreply
    simp only [hf, Option.map_some]
    exact ⟨_, hreply, h.okReplace value⟩
  | none =>
    rw [hf] at hreply
    obtain ⟨reason, hreply⟩ := hreply
    simp only [hf, Option.map_none]
    exact ⟨_, hreply, h.beyond.trans (s₁.failAt_same _ _).beyond⟩

/-! ## The rules for decimals -/

namespace Scanner

/-- A scanner gives what a direct reader of scalars reads, as one value. -/
def Gives (p : Scanner) (reader : List UInt8 → Option (Content Doc × List UInt8)) : Prop :=
  ∀ bytes, match reader bytes with
    | some (content, rest) =>
      ∃ token value, p bytes = .ok token rest [value] ∧ TextGrammar.scalar? value = some content
    | none => p bytes = .fail

/-- Matches nothing, unless the word before runs on. -/
def delimiter : Scanner := fun bytes ↦
  if Direct.isDelimited bytes then .ok [] bytes [] else .fail

end Scanner

namespace Direct

variable {N U : Type} {g : Grammar N U} {loud : Bool}

theorem signMaybe_reads : (Leaf.signMaybe : Rule N U).Reads g loud 2
    (Scanner.optional (Scanner.byte isSign)) :=
  Rule.Reads.oneOf (.cons (.byte _) (.cons (.byte _) .nil)) fun b ↦ by simp [isSign]

theorem decimalDigits_reads : (Leaf.decimalDigits : Rule N U).Reads g loud 1
    (Scanner.run Byte.isDigit) :=
  Scanner.repeated_byte Byte.isDigit ▸ Rule.Reads.range 0x30 0x39

theorem decimalDigitsMaybe_reads : (Leaf.decimalDigits.optional : Rule N U).Reads g loud 1
    (Scanner.optional (Scanner.run Byte.isDigit)) :=
  Scanner.repeated_byte Byte.isDigit ▸ Rule.Reads.range 0x30 0x39

theorem exponentLetter_reads : (Rule.anyOf [.byte 0x65, .byte 0x45] : Rule N U).Reads g loud 2
    (Scanner.byte fun b ↦ b == 0x65 || b == 0x45) :=
  Rule.Reads.oneOf (.cons (.byte _) (.cons (.byte _) .nil)) fun b ↦ by simp

theorem exponentMaybe_reads : (Leaf.exponent.optional : Rule N U).Reads g loud 3
    (Scanner.optional Scanner.exponent) :=
  Rule.Reads.allOf <| .cons exponentLetter_reads <| .cons signMaybe_reads <|
    .cons (decimalDigits_reads.mono (by decide)) .nil

theorem exponent_reads : (Leaf.exponent : Rule N U).Reads g loud 3 Scanner.exponent :=
  Rule.Reads.allOf <| .cons exponentLetter_reads <| .cons signMaybe_reads <|
    .cons (decimalDigits_reads.mono (by decide)) .nil

/-- The value of a decimal whose span is the last of the values. -/
def decimalValue? (values : List Value) : Option Value :=
  ((lastSpan values).bind Numeral.parse?).bind fun numeral ↦
    let number := numeral.round .binary64
    if number.isFinite then some (.float number) else none

theorem closeDecimal_closes : Evaluate.Closes (U := U) Leaf.closeDecimal
    fun _ values ↦ (decimalValue? values).map fun value ↦ [value] := by
  refine Evaluate.Closes.replacing fun s start ↦ ?_
  rw [Leaf.closeDecimal, State.sliceSince, decimalValue?, lastSpan]
  cases ((s.resultsSince start).reverse.findSome? Value.slice?).bind Numeral.parse? with
  | none => exact ⟨_, rfl⟩
  | some numeral =>
    simp only [Option.bind_some]
    by_cases h : (numeral.round .binary64).isFinite = true
    · simp only [if_pos h]
    · simp only [if_neg h]
      exact ⟨_, rfl⟩

/-- A point with digits around it, or digits with an exponent. -/
theorem unsignedDecimal_reads : (Rule.anyOf
      [.allOf [Leaf.decimalDigits.optional, .byte 0x2E, Leaf.decimalDigits, Leaf.exponent.optional],
        .allOf [Leaf.decimalDigits, Leaf.exponent]] : Rule N U).Reads g loud 5
    (Scanner.firstOf
      [Scanner.inOrder
          [Scanner.optional (Scanner.run Byte.isDigit), Scanner.byte (· == 0x2E),
            Scanner.run Byte.isDigit, Scanner.optional Scanner.exponent] false,
        Scanner.inOrder [Scanner.run Byte.isDigit, Scanner.exponent] false]) :=
  .anyOf <|
    .cons
      (.allOf <| .cons (decimalDigitsMaybe_reads.mono (by decide)) <|
        .cons ((Rule.Reads.byte 0x2E).mono (by decide)) <|
        .cons (decimalDigits_reads.mono (by decide)) <| .cons exponentMaybe_reads .nil) <|
    .cons (.allOf <| .cons (decimalDigits_reads.mono (by decide)) <| .cons exponent_reads .nil) .nil

theorem decimalAny_reads : (Leaf.decimalAny : Rule N U).Reads g true 7
    (Scanner.closing (Scanner.flat Scanner.decimal)
      fun _ values ↦ (decimalValue? values).map fun value ↦ [value]) :=
  .closing
    (.allOf (m := { flat := true }) <| .cons (signMaybe_reads.mono (by decide)) <|
      .cons unsignedDecimal_reads .nil)
    closeDecimal_closes

/-! ## Delimited numbers -/

theorem delimiter_reads {g : Grammar Symbol Builder} :
    (TextGrammar.act TextGrammar.delimiter).Reads g loud 1 Scanner.delimiter := by
  refine .leaf fun s _ ↦ ?_
  show Fits s _ _ (TextGrammar.delimiter s s.position)
  rw [TextGrammar.delimiter, State.peek_eq, Scanner.delimiter]
  cases hrest : s.rest with
  | nil => exact .ok (hrest ▸ State.Took.refl s)
  | cons b rest =>
    rw [isDelimited, List.head?_cons]
    by_cases hb : (Byte.isIdentifier b || b == 0x2E) = true
    · simp only [hb, if_true]
      exact .fail (s.failAt_same _ _).beyond
    · simp only [hb]
      exact .ok (hrest ▸ State.Took.refl s)

theorem delimited_reads {g : Grammar Symbol Builder} {rule : TextGrammar.TextRule} {depth : Nat}
    {p : Scanner} (h : rule.Reads g loud (depth + 1) p) :
    (TextGrammar.delimited rule).Reads g loud (depth + 2)
      (Scanner.inOrder [p, Scanner.delimiter] false) :=
  .allOf <| .cons (by simpa using h) <|
    .cons (delimiter_reads.mono (Nat.succ_le_succ (Nat.zero_le depth))) .nil

/-- The scanner of a decimal that does not run on. -/
def delimitedDecimal : Scanner :=
  Scanner.inOrder
    [Scanner.closing (Scanner.flat Scanner.decimal)
      fun _ values ↦ (decimalValue? values).map fun value ↦ [value], Scanner.delimiter] false

theorem delimitedDecimal_gives : delimitedDecimal.Gives decimal := by
  intro bytes
  have hspells := Scanner.decimal_spells bytes
  rw [decimal, delimitedDecimal, Scanner.inOrder, Scanner.closing, Scanner.flat, Scanner.lookahead]
  cases htoken : decimalToken bytes with
  | none =>
    rw [htoken] at hspells
    simp [hspells]
  | some found =>
    obtain ⟨token, left⟩ := found
    rw [htoken] at hspells
    obtain ⟨values, hspells⟩ := hspells
    simp only [hspells, Option.bind_some, decimalValue?, lastSpan,
      List.reverse_singleton, List.findSome?_cons, Value.slice?]
    cases Numeral.parse? token with
    | none => rfl
    | some numeral =>
      by_cases hfinite : (numeral.round .binary64).isFinite = true
      · by_cases hleft : isDelimited left = true
        · simp [hfinite, hleft, Scanner.inOrder, Scanner.delimiter, Scan.after,
            TextGrammar.scalar?]
        · simp [hfinite, hleft, Scanner.inOrder, Scanner.delimiter, Scan.after]
      · simp [hfinite]

end Direct
end DocGrammar
