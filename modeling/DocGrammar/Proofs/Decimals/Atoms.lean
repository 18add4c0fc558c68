import DocGrammar.Proofs.Decimals.Longest
import DocGrammar.Proofs.Integers.Atoms

/-!
# The rules for decimals take the longest literal

How decimals are written is a matter of three languages, `Decimals.basic`, `Decimals.scientific` and
`Decimals.any`, and `DecimalAt` says which decimal a byte string begins with: the longest one there
is, as the double-precision number nearest to it.

The rules read that decimal, or nothing (`Leaf.decimals_exact`).  Two things can be wrong with an
exponent, and they are not the same.  If it is not complete, then it is no part of the literal, and
is left unread.  But if it makes the number too large, then it is part of the literal all the same,
so there is no decimal.
-/

set_option autoImplicit false

namespace DocGrammar

/-! ## How decimals are written -/

namespace Decimals

/-- A minus, a plus, or neither. -/
def sign : Language UInt8 := single Direct.isSign + 1

/-- One digit or more. -/
def digits : Language UInt8 := many Byte.isDigit

def point : Language UInt8 := single (· == 0x2E)

/-- `e` or `E`, a sign or none, and digits. -/
def exponent : Language UInt8 := single (fun b ↦ b == 0x65 || b == 0x45) * (sign * digits)

/-- A sign or none, and digits around a point. -/
def basic : Language UInt8 := sign * digits * point * digits

/-- The same, with or without an exponent. -/
def scientific : Language UInt8 := sign * digits * point * digits * (exponent + 1)

/-- A sign or none, and either a point with digits behind it, and perhaps in front of it, with or
without an exponent, or digits with an exponent. -/
def any : Language UInt8 :=
  sign * ((digits + 1) * point * digits * (exponent + 1) + digits * exponent)

end Decimals

/-- Bytes begin with a decimal, and the number nearest to it is finite and the value. -/
def DecimalAt (L : Language UInt8) (bytes token : List UInt8) (value : Value) : Prop :=
  Longest L bytes token ∧ ∃ numeral, Numeral.parse? token = some numeral ∧
    (numeral.round .binary64).isFinite = true ∧ value = .float (numeral.round .binary64)

/-! ## Scanners of decimals -/

namespace Scanner

/-- The scanner of a decimal whose parts are given: what is taken is valued, if that is finite. -/
def decimalFrom (ps : List Scanner) : Scanner :=
  closing (flat (inOrder ps false)) fun _ values ↦
    (Direct.decimalValue? values).map fun value ↦ [value]

variable {L : Language UInt8} {ps : List Scanner}

/-- What is taken is the longest literal, and settles which decimal there is. -/
theorem MunchInOrder.settles (h : MunchInOrder ps L) (hnil : [] ∉ L) (bytes : List UInt8) :
    (decimalFrom ps bytes).Settles (DecimalAt L bytes) := by
  have hscan := h false bytes
  rw [decimalFrom, closing, flat, lookahead]
  generalize inOrder ps false bytes = scan at hscan ⊢
  cases scan with
  | ok token rest values =>
    obtain ⟨-, hlongest⟩ := hscan
    simp only [Direct.decimalValue?, lastSpan, List.reverse_singleton, List.findSome?_cons,
      Value.slice?, Option.bind_some]
    refine ⟨?_, fun hnone ↦ ?_⟩
    · rintro token' value ⟨hlongest', numeral, hparse, hfinite, rfl⟩
      obtain rfl := hlongest.unique hlongest'
      exact ⟨rest, by simp [hparse, hfinite]⟩
    · rcases hparse : Numeral.parse? token with _ | numeral
      · simp
      · by_cases hfinite : (numeral.round .binary64).isFinite = true
        · exact absurd ⟨hlongest, numeral, hparse, hfinite, rfl⟩ (hnone token _)
        · simp [hfinite]
  | fail =>
    exact ⟨fun token value hwritten ↦ absurd hwritten.1 (Absent.not_longest hscan), fun _ ↦ rfl⟩
  | noMatch => exact absurd (Longest.mem hscan) hnil

end Scanner

/-! ## What they take -/

namespace Decimals

open Scanner

section

variable {accepts : UInt8 → Bool}

theorem sign_beginsWithout (h : ∀ b, Direct.isSign b = true → accepts b = false) :
    BeginsWithout accepts sign :=
  ((single_madeOf _).beginsWithout h).maybe

theorem digits_beginsWithout (h : ∀ b, Byte.isDigit b = true → accepts b = false) :
    BeginsWithout accepts digits :=
  (many_madeOf _).beginsWithout h

/-- What begins with a point begins with nothing else. -/
theorem point_mul_beginsWithout (h : accepts 0x2E = false) (L : Language UInt8) :
    BeginsWithout accepts (point * L) :=
  ((single_madeOf _).beginsWithout fun _ hb ↦ eq_of_beq hb ▸ h).mul
    fun hnil ↦ absurd hnil nil_notMem_single

theorem exponent_beginsWithout (h : accepts 0x65 = false) (h' : accepts 0x45 = false) :
    BeginsWithout accepts exponent := by
  refine ((single_madeOf _).beginsWithout fun b hb ↦ ?_).mul
    fun hnil ↦ absurd hnil nil_notMem_single
  simp only [Bool.or_eq_true, beq_iff_eq] at hb
  rcases hb with rfl | rfl
  · exact h
  · exact h'

end

/-- A digit is no sign, no point, and does not begin an exponent. -/
theorem digit_apart : ∀ b, Byte.isDigit b = true →
    Direct.isSign b = false ∧ (b == 0x2E) = false ∧ (b == 0x65 || b == 0x45) = false :=
  Byte.forall_of_lt (by decide +kernel)

theorem digits_beginsWithout_sign : BeginsWithout Direct.isSign digits :=
  digits_beginsWithout fun b hb ↦ (digit_apart b hb).1

theorem digits_beginsWithout_point : BeginsWithout (· == 0x2E) digits :=
  digits_beginsWithout fun b hb ↦ (digit_apart b hb).2.1

/-- A sign, if there is one, and what does not begin with one. -/
theorem signed_munches {L : Language UInt8} {ps : List Scanner} (h : MunchInOrder ps L)
    (hL : BeginsWithout Direct.isSign L) :
    MunchInOrder (optional (byte Direct.isSign) :: ps) (sign * L) :=
  h.cons (byte_munches _).optional (single_madeOf _).maybe hL

/-- Digits, and what does not begin with one. -/
theorem behindDigits_munches {L : Language UInt8} {ps : List Scanner} (h : MunchInOrder ps L)
    (hL : BeginsWithout Byte.isDigit L) : MunchInOrder (run Byte.isDigit :: ps) (digits * L) :=
  h.cons (run_munches _) (many_madeOf _) hL

/-- A point, and what does not begin with one. -/
theorem behindPoint_munches {L : Language UInt8} {ps : List Scanner} (h : MunchInOrder ps L)
    (hL : BeginsWithout (· == 0x2E) L) : MunchInOrder (byte (· == 0x2E) :: ps) (point * L) :=
  h.cons (byte_munches _) (single_madeOf _) hL

theorem digits_munches : MunchInOrder [run Byte.isDigit] digits := .single (run_munches _)

theorem exponent_munches : Scanner.exponent.Munches exponent := by
  have hsigned := signed_munches digits_munches digits_beginsWithout_sign
  refine hsigned.cons (byte_munches _) (single_madeOf _)
    ((sign_beginsWithout fun b hb ↦ ?_).mul fun _ ↦ digits_beginsWithout fun b hb ↦ ?_) false
  · rw [Direct.isSign, Bool.or_eq_true, beq_iff_eq, beq_iff_eq] at hb
    rcases hb with rfl | rfl
    · rfl
    · rfl
  · exact (digit_apart b hb).2.2

theorem exponentMaybe_munches : MunchInOrder [optional Scanner.exponent] (exponent + 1) :=
  .single exponent_munches.optional

/-- A point and digits. -/
theorem fraction_munches :
    MunchInOrder [byte (· == 0x2E), run Byte.isDigit] (point * digits) :=
  behindPoint_munches digits_munches digits_beginsWithout_point

/-- A point and digits, with or without an exponent. -/
theorem scaledFraction_munches :
    MunchInOrder [byte (· == 0x2E), run Byte.isDigit, optional Scanner.exponent]
      (point * (digits * (exponent + 1))) :=
  behindPoint_munches
    (behindDigits_munches exponentMaybe_munches (exponent_beginsWithout rfl rfl).maybe)
    (digits_beginsWithout_point.mul fun hnil ↦ absurd hnil nil_notMem_many)

theorem basic_munches : MunchInOrder
    [optional (byte Direct.isSign), run Byte.isDigit, byte (· == 0x2E), run Byte.isDigit]
      basic := by
  rw [basic, mul_assoc, mul_assoc]
  refine signed_munches (behindDigits_munches fraction_munches (point_mul_beginsWithout rfl _)) ?_
  exact digits_beginsWithout_sign.mul fun hnil ↦ absurd hnil nil_notMem_many

theorem scientific_munches : MunchInOrder
    [optional (byte Direct.isSign), run Byte.isDigit, byte (· == 0x2E), run Byte.isDigit,
      optional Scanner.exponent] scientific := by
  rw [scientific, mul_assoc, mul_assoc, mul_assoc]
  refine signed_munches
    (behindDigits_munches scaledFraction_munches (point_mul_beginsWithout rfl _)) ?_
  exact digits_beginsWithout_sign.mul fun hnil ↦ absurd hnil nil_notMem_many

/-- The alternatives of `any` do not begin alike: behind the digits there is a point or there is
not. -/
theorem absent_or_absent (bytes : List UInt8) :
    Absent ((digits + 1) * (point * (digits * (exponent + 1)))) bytes ∨
      Absent (digits * exponent) bytes := by
  by_cases hpoint : (bytes.dropWhile Byte.isDigit).head? = some 0x2E
  · refine .inr fun token htoken hfront ↦ ?_
    obtain ⟨b, more, hmem, hhead⟩ := head?_dropWhile_of_mul (many_madeOf _)
      (exponent_beginsWithout rfl rfl) (nil_notMem_mul (.inl nil_notMem_single)) htoken hfront
    obtain rfl := Option.some.inj (hpoint.symm.trans hhead)
    have hnot : BeginsWithout (· == 0x2E) exponent := exponent_beginsWithout rfl rfl
    exact absurd (hnot _ more hmem) (by decide)
  · refine .inl fun token htoken hfront ↦ hpoint ?_
    obtain ⟨b, more, ⟨_, ⟨c, hc, rfl⟩, second, -, heq⟩, hhead⟩ := head?_dropWhile_of_mul
      (many_madeOf _).maybe (point_mul_beginsWithout rfl _)
        (nil_notMem_mul (.inl nil_notMem_single))
      htoken hfront
    cases heq
    rw [hhead, eq_of_beq hc]

theorem any_munches : MunchInOrder
    [optional (byte Direct.isSign),
      firstOf
        [inOrder
            [optional (run Byte.isDigit), byte (· == 0x2E), run Byte.isDigit,
              optional Scanner.exponent]
            false,
          inOrder [run Byte.isDigit, Scanner.exponent] false]]
    any := by
  have hpoint : MunchInOrder
      [optional (run Byte.isDigit), byte (· == 0x2E), run Byte.isDigit, optional Scanner.exponent]
      ((digits + 1) * (point * (digits * (exponent + 1)))) :=
    scaledFraction_munches.cons (run_munches _).optional (many_madeOf _).maybe
      (point_mul_beginsWithout rfl _)
  have hwhole : MunchInOrder [run Byte.isDigit, Scanner.exponent] (digits * exponent) :=
    behindDigits_munches (.single exponent_munches) (exponent_beginsWithout rfl rfl)
  have hpoint_nil : [] ∉ (digits + 1) * (point * (digits * (exponent + 1))) :=
    nil_notMem_mul (.inr (nil_notMem_mul (.inl nil_notMem_single)))
  have hchoice := Munches.or (hpoint false)
    ((hwhole false).only (nil_notMem_mul (.inl nil_notMem_many))) hpoint_nil absent_or_absent
  rw [any, mul_assoc, mul_assoc]
  refine signed_munches (.single hchoice) (.add (.mul ?_ fun _ ↦ ?_) (.mul ?_ fun hnil ↦ ?_))
  · exact digits_beginsWithout_sign.maybe
  · exact point_mul_beginsWithout rfl _
  · exact digits_beginsWithout_sign
  · exact absurd hnil nil_notMem_many

/-- No decimal is empty. -/
theorem nil_notMem : [] ∉ basic ∧ [] ∉ scientific ∧ [] ∉ any := by
  have hmany : [] ∉ digits := nil_notMem_many
  have hpoint (L : Language UInt8) : [] ∉ L * point := nil_notMem_mul (.inr nil_notMem_single)
  refine ⟨nil_notMem_mul (.inr hmany), nil_notMem_mul (.inl (nil_notMem_mul (.inr hmany))),
    nil_notMem_mul (.inr fun hnil ↦ ?_)⟩
  rcases (Language.mem_add _ _ _).1 hnil with hnil | hnil
  · exact nil_notMem_mul (.inl (nil_notMem_mul (.inr hmany))) hnil
  · exact nil_notMem_mul (.inl hmany) hnil

end Decimals

/-! ## The rules -/

namespace Leaf

open Decimals

variable {N U : Type} {input : Array UInt8} {g : Grammar N U}

theorem decimalFrom_reads {rules : List (Rule N U)} {ps : List Scanner} {depth : Nat}
    {name : Option String} (h : List.Forall₂ (Rule.Reads g false depth) rules ps) :
    Rule.Reads g true (depth + 2)
      ⟨name, {}, .closing (Rule.allOf rules).flat (DirectAction.toAction closeDecimal)⟩
      (Scanner.decimalFrom ps) :=
  .closing (.allOf (m := { flat := true }) h) Direct.closeDecimal_closes

theorem decimalBasic_reads : (decimalBasic : Rule N U).Reads g true 4 (Scanner.decimalFrom
    [.optional (.byte Direct.isSign), .run Byte.isDigit, .byte (· == 0x2E), .run Byte.isDigit]) :=
  decimalFrom_reads <| .cons Direct.signMaybe_reads <|
    .cons (Direct.decimalDigits_reads.mono (by decide)) <|
    .cons ((Rule.Reads.byte 0x2E).mono (by decide)) <|
    .cons (Direct.decimalDigits_reads.mono (by decide)) .nil

theorem decimalWithExponent_reads : (decimalWithExponent : Rule N U).Reads g true 5
    (Scanner.decimalFrom
      [.optional (.byte Direct.isSign), .run Byte.isDigit, .byte (· == 0x2E), .run Byte.isDigit,
        .optional .exponent]) :=
  decimalFrom_reads <| .cons (Direct.signMaybe_reads.mono (by decide)) <|
    .cons (Direct.decimalDigits_reads.mono (by decide)) <|
    .cons ((Rule.Reads.byte 0x2E).mono (by decide)) <|
    .cons (Direct.decimalDigits_reads.mono (by decide)) <| .cons Direct.exponentMaybe_reads .nil

/-- **The rules for decimals take the longest literal**, at every state in which results are heard:
they succeed if and only if the bytes at the cursor begin with one whose number is finite, take all
of it, and add the number nearest to it. -/
theorem decimals_exact (g : Grammar N U) {budget : Nat} (hbudget : 7 ≤ budget)
    (s : State input U) (hs : s.resultsSilenced = 0) :
    decimalBasic.ReadsExactly g budget s (DecimalAt basic s.rest) ∧
    decimalWithExponent.ReadsExactly g budget s (DecimalAt scientific s.rest) ∧
    decimalAny.ReadsExactly g budget s (DecimalAt any s.rest) := by
  obtain ⟨hbasic, hscientific, hany⟩ := nil_notMem
  exact ⟨decimalBasic_reads.exactly (by omega) hs (basic_munches.settles hbasic s.rest),
    decimalWithExponent_reads.exactly (by omega) hs (scientific_munches.settles hscientific s.rest),
    Direct.decimalAny_reads.exactly hbudget hs (any_munches.settles hany s.rest)⟩

/-- The bytes `7-.5E+03e+,`. -/
def cutShort : Array UInt8 :=
  #[0x37, 0x2D, 0x2E, 0x35, 0x45, 0x2B, 0x30, 0x33, 0x65, 0x2B, 0x2C]

/-- The bytes `1.5e999`. -/
def overflowing : Array UInt8 := #[0x31, 0x2E, 0x35, 0x65, 0x39, 0x39, 0x39]

/-- An exponent that is not complete is left unread, and one that is too large is not. -/
theorem decimals_exact_exponents :
    let s : State cutShort Unit := ⟨1, by decide, [.null], 2, 0, {}, 0, none, none, none, ()⟩
    let t : State overflowing Unit := ⟨0, by decide, [.null], 0, 0, {}, 0, none, none, none, ()⟩
    (s.resultsSilenced = 0 ∧ ∃ s',
      decimalAny.evaluate (N := Unit) (fun _ ↦ .nothing) 7 s = some (.ok, s') ∧ s'.cursor = 8 ∧
      s'.results = [.null, .float (.ofBits .binary64 0xC07F400000000000)]) ∧
    t.resultsSilenced = 0 ∧ ∃ t',
      decimalAny.evaluate (N := Unit) (fun _ ↦ .nothing) 7 t = some (.fail, t') ∧ t'.cursor = 0 ∧
      t'.results = [.null] := by
  intro s t
  refine ⟨⟨rfl, ?_⟩, rfl, ?_⟩
  · obtain ⟨-, -, ⟨outcome, s'⟩, hreply, hexact⟩ :=
      decimals_exact (N := Unit) (fun _ ↦ .nothing) (Nat.le_refl 7) s rfl
    have hwritten : DecimalAt any s.rest (cutShort.toList.extract 1 8)
        (.float (.ofBits .binary64 0xC07F400000000000)) :=
      ⟨(any_munches false s.rest).2, ⟨true, 5, 2⟩, by decide, by decide +kernel,
        by decide +kernel⟩
    obtain rfl : outcome = .ok := hexact.ok_iff.2 ⟨_, _, hwritten⟩
    exact ⟨s', hreply, hexact.cursor_eq _ _ hwritten, hexact.results_eq _ _ hwritten⟩
  · obtain ⟨-, -, ⟨outcome, t'⟩, hreply, hexact⟩ :=
      decimals_exact (N := Unit) (fun _ ↦ .nothing) (Nat.le_refl 7) t rfl
    have hlongest : Longest any t.rest overflowing.toList := (any_munches false t.rest).2
    have hne : outcome ≠ .ok := by
      intro hok
      obtain ⟨token, value, htoken, numeral, hparse, hfinite, -⟩ := hexact.ok_iff.1 hok
      obtain rfl := htoken.unique hlongest
      obtain rfl : (⟨false, 15, 998⟩ : Numeral) = numeral :=
        Option.some.inj ((by decide : Numeral.parse? overflowing.toList = _).symm.trans hparse)
      exact absurd hfinite (by decide +kernel)
    obtain ⟨rfl, hcursor, hresults⟩ := hexact.fail hne
    exact ⟨t', hreply, hcursor, hresults⟩

end Leaf
end DocGrammar
