import DocGrammar.Proofs.Direct.Numbers
import Mathlib.Data.List.TakeWhile

/-!
# Integers

An integer is a sign and a magnitude, each a value of its own, which `closeSigned` combines.

The bases overlap, but not where it matters.  If a number that begins with `0x` and a digit is out
of range as a hexadecimal one, then what the engine goes on with is the octal zero, and that runs on
into the `x`.  And what is out of range as an octal number is so as a decimal one.
-/

set_option autoImplicit false

namespace DocGrammar

/-! ## Values of digits -/

namespace Digits

/-- Digits of a radix stand for a number, and one that is not less than the number before them. -/
theorem valueFrom?_total {radix : Nat} : ∀ (digits : List UInt8) (start : Nat),
    (∀ b ∈ digits, ∃ d, digit? b = some d ∧ d < radix) →
      ∃ n, valueFrom? radix start digits = some n ∧ start ≤ n
  | [], start, _ => ⟨start, rfl, Nat.le_refl _⟩
  | b :: rest, start, h => by
    obtain ⟨d, hd, hlt⟩ := h b (by simp)
    obtain ⟨n, hn, hle⟩ := valueFrom?_total rest (start * radix + d) fun c hc ↦
      h c (List.mem_cons_of_mem _ hc)
    have hstart : start ≤ start * radix := Nat.le_mul_of_pos_right _ (Nat.zero_lt_of_lt hlt)
    refine ⟨n, ?_, by omega⟩
    rw [valueFrom?, hd]
    simp only [if_pos hlt, hn]

/-- A larger radix gives a larger number. -/
theorem valueFrom?_mono {radix radix' : Nat} (hradix : radix ≤ radix') :
    ∀ (digits : List UInt8) {start start' n : Nat}, start ≤ start' →
      valueFrom? radix start digits = some n →
        ∃ n', valueFrom? radix' start' digits = some n' ∧ n ≤ n'
  | [], start, start', n, hstart, h => by
    cases h
    exact ⟨start', rfl, hstart⟩
  | b :: rest, start, start', n, hstart, h => by
    rw [valueFrom?] at h ⊢
    cases hd : digit? b with
    | none => simp [hd] at h
    | some d =>
      simp only [hd] at h
      split at h
      · next hlt =>
        have hmul := Nat.mul_le_mul hstart hradix
        simp only [if_pos (Nat.lt_of_lt_of_le hlt hradix)]
        exact valueFrom?_mono hradix rest (by omega) h
      · cases h

theorem valueFrom?_append (radix : Nat) : ∀ (digits more : List UInt8) (start : Nat),
    valueFrom? radix start (digits ++ more) =
      (valueFrom? radix start digits).bind (valueFrom? radix · more)
  | [], _, _ => rfl
  | b :: rest, more, start => by
    rw [List.cons_append, valueFrom?, valueFrom?]
    cases digit? b with
    | none => rfl
    | some d =>
      simp only
      split
      · exact valueFrom?_append radix rest more _
      · rfl

end Digits

namespace Direct

/-! ## Digits of the three radices -/

/-- A class of bytes that are digits of a radix. -/
def IsRadix (radix : Nat) (isDigit : UInt8 → Bool) : Prop :=
  ∀ b, isDigit b = true → ∃ d, Digits.digit? b = some d ∧ d < radix

theorem isRadix_of_lt {radix : Nat} {isDigit : UInt8 → Bool}
    (h : ∀ n < 256, isDigit (UInt8.ofNat n) = true →
      (Digits.digit? (UInt8.ofNat n)).any (· < radix) = true) : IsRadix radix isDigit := by
  intro b hb
  have hdigit := Byte.forall_of_lt
    (P := fun b ↦ isDigit b = true → (Digits.digit? b).any (· < radix) = true) h b hb
  simpa only [Option.any_eq_true, decide_eq_true_eq] using hdigit

theorem isRadix_ten : IsRadix 10 Byte.isDigit := isRadix_of_lt (by decide +kernel)

theorem isRadix_eight : IsRadix 8 isOctalDigit := isRadix_of_lt (by decide +kernel)

theorem isRadix_sixteen : IsRadix 16 isHexDigit := isRadix_of_lt (by decide +kernel)

/-- A run of digits stands for a number. -/
theorem IsRadix.digits_eq {radix : Nat} {isDigit : UInt8 → Bool} (h : IsRadix radix isDigit)
    (bytes : List UInt8) :
    ∃ n, Digits.value? radix (bytes.takeWhile isDigit) = some n ∧
      digits radix isDigit bytes = some (n, bytes.dropWhile isDigit) := by
  obtain ⟨n, hn, -⟩ := Digits.valueFrom?_total (bytes.takeWhile isDigit) 0 fun b hb ↦
    h b (List.mem_takeWhile_imp hb)
  have hn : Digits.value? radix (bytes.takeWhile isDigit) = some n := hn
  exact ⟨n, hn, by rw [digits, hn, Option.map_some]⟩

/-- What a number is as an octal one, it is at least as a decimal one. -/
theorem octal_le_decimal {rest : List UInt8} {n : Nat}
    (h : Digits.value? 8 (rest.takeWhile isOctalDigit) = some n) :
    ∃ n', Digits.value? 10 ((0x30 :: rest).takeWhile Byte.isDigit) = some n' ∧ n ≤ n' := by
  have hdigits : rest.takeWhile Byte.isDigit = rest.takeWhile isOctalDigit ++
      (rest.dropWhile isOctalDigit).takeWhile Byte.isDigit := by
    conv_lhs => rw [← List.takeWhile_append_dropWhile (p := isOctalDigit) (l := rest)]
    refine List.takeWhile_append_of_pos fun b hb ↦ ?_
    have hoctal := List.mem_takeWhile_imp hb
    revert hoctal
    exact Byte.forall_of_lt (P := fun b ↦ isOctalDigit b = true → Byte.isDigit b = true)
      (by decide +kernel) b
  obtain ⟨m, hm, hle⟩ := Digits.valueFrom?_mono (by decide : 8 ≤ 10) _ (Nat.le_refl 0) h
  obtain ⟨n', hn', hle'⟩ := Digits.valueFrom?_total
    ((rest.dropWhile isOctalDigit).takeWhile Byte.isDigit) m fun b hb ↦
      isRadix_ten b (List.mem_takeWhile_imp hb)
  refine ⟨n', ?_, Nat.le_trans hle hle'⟩
  rw [List.takeWhile_cons_of_pos (by decide), hdigits]
  -- the zero in front is worth nothing
  show Digits.valueFrom? 10 0
    (rest.takeWhile isOctalDigit ++ (rest.dropWhile isOctalDigit).takeWhile Byte.isDigit) = some n'
  rw [Digits.valueFrom?_append, hm, Option.bind_some, hn']

/-! ## Magnitudes -/

/-- The value of digits whose span is the last of the values. -/
def unsignedResult? (radix : Nat) (values : List Value) : Option Value :=
  (Leaf.unsignedValue? radix ((lastSpan values).getD [])).map .unsigned

/-- The scanner of digits with a value. -/
def valued (radix : Nat) (p : Scanner) : Scanner :=
  Scanner.closing p fun _ values ↦ (unsignedResult? radix values).map fun value ↦ [value]

/-- The scanner of a hexadecimal magnitude. -/
def hexadecimal : Scanner :=
  valued 16 <| Scanner.inOrder
    [Scanner.lookahead (Scanner.firstOf [Scanner.word [0x30, 0x78], Scanner.word [0x30, 0x58]]),
      Scanner.flat (Scanner.run isHexDigit)] false

/-- The scanner of an octal magnitude. -/
def octal : Scanner :=
  valued 8 <| Scanner.inOrder
    [Scanner.lookahead (Scanner.byte (· == 0x30)),
      Scanner.flat (Scanner.optional (Scanner.run isOctalDigit))] false

/-- The scanner of a magnitude. -/
def unsigned : Scanner :=
  Scanner.firstOf [hexadecimal, octal, valued 10 (Scanner.flat (Scanner.run Byte.isDigit))]

theorem closeUnsigned_closes {U : Type} (radix : Nat) :
    Evaluate.Closes (U := U) (Leaf.closeUnsigned radix)
      fun _ values ↦ (unsignedResult? radix values).map fun value ↦ [value] := by
  refine Evaluate.Closes.replacing fun s start ↦ ?_
  rw [Leaf.closeUnsigned, State.sliceSince, unsignedResult?, lastSpan]
  cases Leaf.unsignedValue? radix
      (((s.resultsSince start).reverse.findSome? Value.slice?).getD []) with
  | none => exact ⟨_, rfl⟩
  | some value => rfl

section

variable {N U : Type} {g : Grammar N U} {loud : Bool}

theorem hexDigit_reads : (Leaf.hexDigits.flat : Rule N U).Reads g loud 2
    (Scanner.flat (Scanner.run isHexDigit)) :=
  Scanner.repeated_byte isHexDigit ▸
    Rule.Reads.oneOf (.cons (.range _ _) (.cons (.range _ _) (.cons (.range _ _) .nil)))
      fun b ↦ by simp [isHexDigit, Byte.isDigit, Bool.or_assoc]

theorem unsignedHex_reads : (Leaf.unsignedHex : Rule N U).Reads g true 4 hexadecimal :=
  .closing
    (.allOf <|
      .cons (.anyOf (m := { lookahead := true }) <| .cons (.literal _) <|
        .cons (.literal _) .nil) <|
      .cons hexDigit_reads .nil)
    (closeUnsigned_closes 16)

theorem unsignedOctal_reads : (Leaf.unsignedOctal : Rule N U).Reads g true 3 octal :=
  .closing
    (.allOf <| .cons (Rule.Reads.byte 0x30) <|
      .cons (Scanner.repeated_byte isOctalDigit ▸ Rule.Reads.range 0x30 0x37) .nil)
    (closeUnsigned_closes 8)

theorem unsignedDecimalDigits_reads : (Leaf.unsignedDecimal : Rule N U).Reads g true 2
    (valued 10 (Scanner.flat (Scanner.run Byte.isDigit))) :=
  .closing (Scanner.repeated_byte Byte.isDigit ▸ Rule.Reads.range 0x30 0x39)
    (closeUnsigned_closes 10)

theorem unsignedAny_reads : (Leaf.unsignedAny : Rule N U).Reads g true 5 unsigned :=
  .anyOf <| .cons unsignedHex_reads <| .cons (unsignedOctal_reads.mono (by decide)) <|
    .cons (unsignedDecimalDigits_reads.mono (by decide)) .nil

end

/-! ### What they read -/

/-- What a match comes to whose last span are digits that stand for `n`. -/
def sized (n : Nat) (token rest : List UInt8) : Scan :=
  if n < UInt64.size then .ok token rest [.unsigned (UInt64.ofNat n)] else .fail

theorem valued_eq {radix n : Nat} {p : Scanner} {bytes token rest digits : List UInt8}
    (values : List Value) (hp : p bytes = .ok token rest values)
    (hvalues : (lastSpan values).getD [] = digits)
    (h : Digits.value? radix digits = some n) : valued radix p bytes = sized n token rest := by
  rw [valued, Scanner.closing, hp, sized]
  simp only [unsignedResult?, Leaf.unsignedValue?, hvalues, h]
  by_cases hn : n < UInt64.size
  · simp only [if_pos hn, Option.map_some]
  · simp only [if_neg hn, Option.map_none]

theorem decimal_eq {bytes : List UInt8} {n : Nat} (hbytes : bytes.takeWhile Byte.isDigit ≠ [])
    (h : Digits.value? 10 (bytes.takeWhile Byte.isDigit) = some n) :
    valued 10 (Scanner.flat (Scanner.run Byte.isDigit)) bytes =
      sized n (bytes.takeWhile Byte.isDigit) (bytes.dropWhile Byte.isDigit) := by
  refine valued_eq [.slice _] ?_ rfl h
  simp only [Scanner.flat, Scanner.lookahead, Scanner.run, if_neg hbytes]

theorem octal_eq (rest : List UInt8) {n : Nat}
    (h : Digits.value? 8 (rest.takeWhile isOctalDigit) = some n) :
    octal (0x30 :: rest) =
      sized n (0x30 :: rest.takeWhile isOctalDigit) (rest.dropWhile isOctalDigit) := by
  by_cases hrest : rest.takeWhile isOctalDigit = []
  · have hdrop : rest.dropWhile isOctalDigit = rest := by
      have happend := List.takeWhile_append_dropWhile (p := isOctalDigit) (l := rest)
      rwa [hrest] at happend
    rw [hrest] at h ⊢
    refine valued_eq [] ?_ rfl h
    simp [Scanner.inOrder, Scanner.flat, Scanner.lookahead, Scanner.optional, Scanner.byte,
      Scanner.run, hrest, hdrop, Scan.after]
  · refine valued_eq [.slice _] ?_ rfl h
    simp [Scanner.inOrder, Scanner.flat, Scanner.lookahead, Scanner.optional, Scanner.byte,
      Scanner.run, hrest, Scan.after]

theorem hexadecimal_eq {x : UInt8} (hx : x = 0x78 ∨ x = 0x58) {rest : List UInt8} {n : Nat}
    (hrest : rest.takeWhile isHexDigit ≠ [])
    (h : Digits.value? 16 (rest.takeWhile isHexDigit) = some n) :
    hexadecimal (0x30 :: x :: rest) =
      sized n (0x30 :: x :: rest.takeWhile isHexDigit) (rest.dropWhile isHexDigit) := by
  refine valued_eq [.slice _] ?_ rfl h
  rcases hx with rfl | rfl <;>
    simp [Scanner.inOrder, Scanner.flat, Scanner.lookahead, Scanner.firstOf, Scanner.word,
      Scanner.run, hrest, Scan.after, List.isPrefixOf]

/-- Without `0x` and a digit there is no hexadecimal magnitude. -/
theorem hexadecimal_fail {bytes : List UInt8}
    (h : ∀ x c rest, bytes = 0x30 :: x :: c :: rest → (x = 0x78 ∨ x = 0x58) →
      isHexDigit c = false) :
    hexadecimal bytes = .fail := by
  rw [hexadecimal, valued, Scanner.closing, Scanner.inOrder, Scanner.lookahead]
  by_cases hmark : ∃ x rest, bytes = 0x30 :: x :: rest ∧ (x = 0x78 ∨ x = 0x58)
  · obtain ⟨x, rest, rfl, hx⟩ := hmark
    have hnone : rest.takeWhile isHexDigit = [] := by
      cases rest with
      | nil => rfl
      | cons c rest => simp [h x c rest rfl hx]
    rcases hx with rfl | rfl <;>
      simp [Scanner.inOrder, Scanner.flat, Scanner.lookahead, Scanner.firstOf, Scanner.word,
        Scanner.run, hnone, Scan.after, List.isPrefixOf]
  · have hword (x : UInt8) (hx : x = 0x78 ∨ x = 0x58) : ¬ [0x30, x] <+: bytes := by
      rintro ⟨rest, hrest⟩
      exact hmark ⟨x, rest, hrest.symm, hx⟩
    simp [Scanner.firstOf, Scanner.word, hword 0x78 (.inl rfl), hword 0x58 (.inr rfl)]

theorem octal_fail {b : UInt8} (hb : b ≠ 0x30) (rest : List UInt8) :
    octal (b :: rest) = .fail := by
  simp [octal, valued, Scanner.closing, Scanner.inOrder, Scanner.lookahead, Scanner.byte, hb]

theorem decimal_fail {b : UInt8} (hb : Byte.isDigit b = false) (rest : List UInt8) :
    valued 10 (Scanner.flat (Scanner.run Byte.isDigit)) (b :: rest) = .fail := by
  simp [valued, Scanner.closing, Scanner.flat, Scanner.lookahead, Scanner.run, hb]

/-- What the engine has read agrees with a number and a rest: exactly, if the number has 64 bits,
and otherwise it is nothing, or something that runs on. -/
def Reached (scan : Scan) (n : Nat) (left : List UInt8) : Prop :=
  (n < UInt64.size ∧ ∃ token, scan = .ok token left [.unsigned (UInt64.ofNat n)]) ∨
    (UInt64.size ≤ n ∧ (scan = .fail ∨ ∃ token left' n',
      scan = .ok token left' [.unsigned n'] ∧ isDelimited left' = false))

theorem unsigned_hexadecimal {x : UInt8} (hx : x = 0x78 ∨ x = 0x58) {rest : List UInt8} {n : Nat}
    (hrest : rest.takeWhile isHexDigit ≠ [])
    (h : Digits.value? 16 (rest.takeWhile isHexDigit) = some n) :
    Reached (unsigned (0x30 :: x :: rest)) n (rest.dropWhile isHexDigit) := by
  rw [unsigned, Scanner.firstOf, hexadecimal_eq hx hrest h, sized]
  by_cases hn : n < UInt64.size
  · rw [if_pos hn]
    exact .inl ⟨hn, _, rfl⟩
  · -- the zero in front is read on its own
    have hzero : octal (0x30 :: x :: rest) = .ok [0x30] (x :: rest) [.unsigned 0] := by
      have hx' : isOctalDigit x = false := by rcases hx with rfl | rfl <;> rfl
      rw [octal_eq (x :: rest) (n := 0) (by simp [hx', Digits.value?, Digits.valueFrom?])]
      simp [sized, hx']
    rw [if_neg hn, Scanner.firstOf, hzero]
    refine .inr ⟨Nat.le_of_not_lt hn, .inr ⟨_, _, _, rfl, ?_⟩⟩
    rcases hx with rfl | rfl <;> rfl

theorem unsigned_octal {rest : List UInt8} {n : Nat}
    (hmark : ∀ x c rest', rest = x :: c :: rest' → (x = 0x78 ∨ x = 0x58) → isHexDigit c = false)
    (h : Digits.value? 8 (rest.takeWhile isOctalDigit) = some n) :
    Reached (unsigned (0x30 :: rest)) n (rest.dropWhile isOctalDigit) := by
  rw [unsigned, Scanner.firstOf, hexadecimal_fail fun x c rest' hbytes ↦
    hmark x c rest' (List.cons.inj hbytes).2, Scanner.firstOf, octal_eq rest h, sized]
  by_cases hn : n < UInt64.size
  · rw [if_pos hn]
    exact .inl ⟨hn, _, rfl⟩
  · obtain ⟨n', hn', hle⟩ := octal_le_decimal h
    rw [if_neg hn, Scanner.firstOf, decimal_eq (by simp [Byte.isDigit]) hn', sized,
      if_neg fun hlt ↦ hn (Nat.lt_of_le_of_lt hle hlt)]
    exact .inr ⟨Nat.le_of_not_lt hn, .inl rfl⟩

theorem unsigned_decimal {b : UInt8} (hb : b ≠ 0x30) {rest : List UInt8} {n : Nat}
    (hdigit : Byte.isDigit b = true)
    (h : Digits.value? 10 ((b :: rest).takeWhile Byte.isDigit) = some n) :
    Reached (unsigned (b :: rest)) n ((b :: rest).dropWhile Byte.isDigit) := by
  rw [unsigned, Scanner.firstOf, hexadecimal_fail fun x c rest' hbytes ↦
    absurd (List.cons.inj hbytes).1 hb, Scanner.firstOf, octal_fail hb, Scanner.firstOf,
    decimal_eq (by simp [hdigit]) h, sized]
  by_cases hn : n < UInt64.size
  · rw [if_pos hn]
    exact .inl ⟨hn, _, rfl⟩
  · rw [if_neg hn]
    exact .inr ⟨Nat.le_of_not_lt hn, .inl rfl⟩

theorem magnitude_hexadecimal {x c : UInt8} (hx : x = 0x78 ∨ x = 0x58) (hc : isHexDigit c = true)
    (rest : List UInt8) :
    magnitude (0x30 :: x :: c :: rest) = digits 16 isHexDigit (c :: rest) := by
  simp [magnitude, hx, hc]

theorem magnitude_octal {rest : List UInt8}
    (hmark : ∀ x c rest', rest = x :: c :: rest' → (x = 0x78 ∨ x = 0x58) → isHexDigit c = false) :
    magnitude (0x30 :: rest) = digits 8 isOctalDigit rest := by
  rw [magnitude.eq_def]
  match rest with
  | [] => rfl
  | [x] => rfl
  | x :: c :: rest' =>
    have hno : ¬((x = 0x78 ∨ x = 0x58) ∧ isHexDigit c = true) := fun ⟨hx, hc⟩ ↦
      Bool.false_ne_true ((hmark x c rest' rfl hx).symm.trans hc)
    simp only [if_true, if_neg hno]

/-- **What the engine reads as a magnitude** agrees with what the direct reader does. -/
theorem unsigned_spec (bytes : List UInt8) :
    match magnitude bytes with
    | none => unsigned bytes = .fail
    | some (n, left) => Reached (unsigned bytes) n left := by
  cases bytes with
  | nil => rfl
  | cons b rest =>
    by_cases hb : b = 0x30
    · subst hb
      by_cases hmark : ∃ x c rest',
          rest = x :: c :: rest' ∧ (x = 0x78 ∨ x = 0x58) ∧ isHexDigit c = true
      · obtain ⟨x, c, rest', rfl, hx, hc⟩ := hmark
        obtain ⟨n, hn, hdigits⟩ := isRadix_sixteen.digits_eq (c :: rest')
        rw [magnitude_hexadecimal hx hc, hdigits]
        exact unsigned_hexadecimal hx (by simp [hc]) hn
      · have hmark (x c rest') (hrest : rest = x :: c :: rest') (hx : x = 0x78 ∨ x = 0x58) :
            isHexDigit c = false :=
          Bool.eq_false_iff.2 fun hc ↦ hmark ⟨x, c, rest', hrest, hx, hc⟩
        obtain ⟨n, hn, hdigits⟩ := isRadix_eight.digits_eq rest
        rw [magnitude_octal hmark, hdigits]
        exact unsigned_octal hmark hn
    · rw [magnitude.eq_def]
      simp only [if_neg hb]
      cases hdigit : Byte.isDigit b with
      | true =>
        obtain ⟨n, hn, hdigits⟩ := isRadix_ten.digits_eq (b :: rest)
        simp only [if_true, hdigits]
        exact unsigned_decimal hb hdigit hn
      | false =>
        simp only [Bool.false_eq_true, if_false]
        rw [unsigned, Scanner.firstOf, hexadecimal_fail fun x c rest' hbytes ↦
          absurd (List.cons.inj hbytes).1 hb, Scanner.firstOf, octal_fail hb, Scanner.firstOf,
          decimal_fail hdigit]
        rfl

/-! ## Signed numbers -/

/-- The value of a sign and a magnitude. -/
def signedResult? (values : List Value) : Option Value :=
  (Leaf.signedParts? values).bind fun (negative, magnitude) ↦
    (Leaf.signedValue? negative magnitude).map .signed

theorem closeSigned_closes {U : Type} : Evaluate.Closes (U := U) Leaf.closeSigned
    fun _ values ↦ (signedResult? values).map fun value ↦ [value] := by
  refine Evaluate.Closes.replacing fun s start ↦ ?_
  rw [Leaf.closeSigned, signedResult?]
  cases Leaf.signedParts? (s.resultsSince start) with
  | none => exact ⟨_, rfl⟩
  | some parts =>
    obtain ⟨negative, magnitude⟩ := parts
    simp only [Option.bind_some]
    cases Leaf.signedValue? negative magnitude with
    | none => exact ⟨_, rfl⟩
    | some value => rfl

/-- The scanner of an integer. -/
def signed : Scanner :=
  Scanner.closing (Scanner.inOrder [Scanner.optional (Scanner.byte isSign), unsigned] false)
    fun _ values ↦ (signedResult? values).map fun value ↦ [value]

theorem signedAny_reads {N U : Type} {g : Grammar N U} :
    (Leaf.signedAny : Rule N U).Reads g true 7 signed :=
  .closing (.allOf <| .cons (signMaybe_reads.mono (by decide)) <| .cons unsignedAny_reads .nil)
    closeSigned_closes

/-- The sign in front is one byte or none. -/
theorem sign_cases (bytes : List UInt8) :
    (sign bytes).1 = [0x2D] ∨ (sign bytes).1 = [0x2B] ∨ (sign bytes).1 = [] := by
  cases bytes with
  | nil => exact .inr (.inr rfl)
  | cons b rest =>
    rw [sign]
    by_cases hb : isSign b = true
    · simp only [if_pos hb]
      simp only [isSign, Bool.or_eq_true, beq_iff_eq] at hb
      rcases hb with rfl | rfl
      · exact .inl rfl
      · exact .inr (.inl rfl)
    · rw [if_neg hb]
      exact .inr (.inr rfl)

/-- A sign and a magnitude of 64 bits are a number, if that has 64 bits with its sign. -/
theorem signedResult?_eq (bytes : List UInt8) {n : Nat} (hn : n < UInt64.size) :
    signedResult? ((sign bytes).1.map .char ++ [.unsigned (UInt64.ofNat n)]) =
      let number : Int := if (sign bytes).1 = [0x2D] then -n else n
      if -0x8000000000000000 ≤ number ∧ number < 0x8000000000000000 then
        some (.signed (Int64.ofInt number))
      else none := by
  have htoNat : (UInt64.ofNat n).toNat = n := by
    rw [UInt64.toNat_ofNat', Nat.mod_eq_of_lt hn]
  -- a plus is no minus, and so is no sign at all
  have hpositive (h : (sign bytes).1 ≠ [0x2D])
      (hresult : signedResult? ((sign bytes).1.map .char ++ [.unsigned (UInt64.ofNat n)]) =
        (Leaf.signedValue? false (UInt64.ofNat n)).map .signed) :
      signedResult? ((sign bytes).1.map .char ++ [.unsigned (UInt64.ofNat n)]) =
        let number : Int := if (sign bytes).1 = [0x2D] then -n else n
        if -0x8000000000000000 ≤ number ∧ number < 0x8000000000000000 then
          some (.signed (Int64.ofInt number))
        else none := by
    rw [hresult, if_neg h, Leaf.signedValue?, htoNat]
    by_cases hlt : n < 0x8000000000000000
    · have hbounds : -0x8000000000000000 ≤ (n : Int) ∧ (n : Int) < 0x8000000000000000 := by omega
      simp only [Bool.false_eq_true, if_false, if_pos hlt, if_pos hbounds, Option.map_some,
        Int64.ofInt_eq_ofNat]
    · have hbounds : ¬(-0x8000000000000000 ≤ (n : Int) ∧ (n : Int) < 0x8000000000000000) := by omega
      simp only [Bool.false_eq_true, if_false, if_neg hlt, if_neg hbounds, Option.map_none]
  rcases sign_cases bytes with h | h | h
  · rw [h]
    simp only [List.map_cons, List.map_nil, List.cons_append, List.nil_append, signedResult?,
      Leaf.signedParts?, Option.bind_some, Leaf.signedValue?, htoNat, beq_self_eq_true, if_true]
    by_cases hle : n ≤ 0x8000000000000000
    · have hbounds : -0x8000000000000000 ≤ -(n : Int) ∧ -(n : Int) < 0x8000000000000000 := by omega
      simp only [if_pos hle, if_pos hbounds, Option.map_some]
    · have hbounds : ¬(-0x8000000000000000 ≤ -(n : Int) ∧ -(n : Int) < 0x8000000000000000) := by
        omega
      simp only [if_neg hle, if_neg hbounds, Option.map_none]
  · exact hpositive (by rw [h]; decide) (by rw [h]; rfl)
  · exact hpositive (by rw [h]; decide) (by rw [h]; rfl)

/-- The scanner of an integer that does not run on. -/
def delimitedInteger : Scanner := Scanner.inOrder [signed, Scanner.delimiter] false

theorem delimitedInteger_gives : delimitedInteger.Gives integer := by
  intro bytes
  have hspec := unsigned_spec (sign bytes).2
  rw [delimitedInteger, Scanner.inOrder, signed, Scanner.closing, Scanner.inOrder_optional_sign,
    Scanner.inOrder, integer]
  dsimp only
  cases hmagnitude : magnitude (sign bytes).2 with
  | none =>
    rw [hmagnitude] at hspec
    simp only [hspec, Option.bind_none, Scan.after]
  | some found =>
    obtain ⟨n, left⟩ := found
    rw [hmagnitude] at hspec
    simp only [Option.bind_some]
    generalize hnumber : (if (sign bytes).1 = [0x2D] then -(n : Int) else n) = number
    rcases hspec with ⟨hn, token, hscan⟩ | ⟨hn, hscan⟩
    · have hresult := signedResult?_eq bytes hn
      simp only [hnumber] at hresult
      simp only [hscan, Scanner.inOrder, if_true, Scan.after, List.append_nil, hresult]
      by_cases hbounds : -0x8000000000000000 ≤ number ∧ number < 0x8000000000000000
      · rw [if_pos hbounds]
        by_cases hleft : isDelimited left = true
        · rw [if_pos ⟨hbounds.1, hbounds.2, hleft⟩]
          simp [hleft, Scanner.delimiter, TextGrammar.scalar?]
        · rw [if_neg fun h ↦ hleft h.2.2]
          simp [hleft, Scanner.delimiter]
      · rw [if_neg hbounds, if_neg fun h ↦ hbounds ⟨h.1, h.2.1⟩]
        rfl
    · -- with either sign the number is out of range
      have hbounds : ¬(-0x8000000000000000 ≤ number ∧ number < 0x8000000000000000 ∧
          isDelimited left = true) := by
        have hn : 0x10000000000000000 ≤ n := hn
        subst hnumber
        split <;> omega
      rw [if_neg hbounds]
      rcases hscan with hscan | ⟨token, left', n', hscan, hleft⟩
      · simp only [hscan, Scan.after]
      · simp only [hscan, Scanner.inOrder, if_true, Scan.after, List.append_nil]
        cases (signedResult? ((sign bytes).1.map .char ++ [.unsigned n'])).map fun v ↦ [v] with
        | none => rfl
        | some values => simp [Scanner.delimiter, hleft]

end Direct
end DocGrammar
