import DocGrammar.Number.Notation
import DocGrammar.Proofs.Printing.Tokens
import Mathlib.Algebra.Group.Nat.Defs
import Mathlib.Data.List.TakeDrop

/-!
# Numbers as they are spelled

However a number with a point or an exponent is printed, what is printed is a `Spelling`: a sign,
digits, digits behind a point, and an exponent.  A spelling is in ASCII, it is taken off the input
as a whole if what follows does not go on in it, and it stands for the number that its parts say
(`Direct.decimal_spelling`).

The digits of a spelling are a run of characters; `IsRun` says which number they stand for when they
are read.
-/

set_option autoImplicit false

namespace DocGrammar

/-! ## Digits as characters -/

namespace Utf8

/-- The byte of a character in ASCII. -/
def byte (c : Char) : UInt8 := UInt8.ofNat c.toNat

theorem digit_range {c : Char} (h : c.isDigit = true) : 48 ≤ c.toNat ∧ c.toNat ≤ 57 := by
  rw [Char.isDigit, Bool.and_eq_true, decide_eq_true_iff, decide_eq_true_iff] at h
  exact h

theorem ascii_of_isDigit {letters : List Char} (h : ∀ c ∈ letters, c.isDigit = true) :
    ∀ c ∈ letters, c.toNat < 0x80 :=
  fun c hc ↦ Nat.lt_of_le_of_lt (digit_range (h c hc)).2 (by decide)

theorem byte_isDigit {c : Char} (h : c.isDigit = true) : Byte.isDigit (byte c) = true := by
  obtain ⟨hlow, hhigh⟩ := digit_range h
  rw [Byte.isDigit, Bool.and_eq_true, decide_eq_true_iff, decide_eq_true_iff, UInt8.le_iff_toNat_le,
    UInt8.le_iff_toNat_le, byte,
    UInt8.toNat_ofNat_of_lt' (Nat.lt_of_le_of_lt hhigh (by decide))]
  exact ⟨hlow, hhigh⟩

theorem bytes_isDigit {letters : List Char} (h : ∀ c ∈ letters, c.isDigit = true) :
    ∀ b ∈ letters.map byte, Byte.isDigit b = true := by
  intro b hb
  obtain ⟨c, hc, rfl⟩ := List.mem_map.1 hb
  exact byte_isDigit (h c hc)

/-- The bytes of a text in ASCII. -/
theorem encode_ascii {letters : List Char} (h : ∀ c ∈ letters, c.toNat < 0x80) :
    encode (String.ofList letters) = letters.map byte := by
  rw [encode_ofList]
  induction letters with
  | nil => rfl
  | cons c letters ih =>
    obtain ⟨hc, hletters⟩ := List.forall_mem_cons.1 h
    rw [List.flatMap_cons, encodeChar_ascii hc, ih hletters]
    rfl

end Utf8

/-- The number read before digits counts as many times as there are digits behind it. -/
theorem Digits.valueFrom?_add (start start' : Nat) : ∀ bytes : List UInt8,
    valueFrom? 10 (start + start') bytes =
      (valueFrom? 10 start' bytes).map (start * 10 ^ bytes.length + ·)
  | [] => by
    rw [valueFrom?, valueFrom?, List.length_nil, Nat.pow_zero, Nat.mul_one]
    rfl
  | b :: rest => by
    rw [valueFrom?, valueFrom?]
    cases digit? b with
    | none => rfl
    | some d =>
      dsimp only
      split
      · rw [Nat.add_mul, Nat.add_assoc, valueFrom?_add, List.length_cons, Nat.pow_succ',
          Nat.mul_assoc]
      · rfl

/-- Digits that stand for a number, with leading zeros or without. -/
structure IsRun (n : Nat) (letters : List Char) : Prop where
  isDigit : ∀ c ∈ letters, c.isDigit = true
  value_eq : Digits.value? 10 (letters.map Utf8.byte) = some n

namespace IsRun

variable {m n : Nat} {letters more : List Char}

theorem bytes (h : IsRun n letters) : ∀ b ∈ letters.map Utf8.byte, Byte.isDigit b = true :=
  Utf8.bytes_isDigit h.isDigit

theorem text (n : Nat) : IsRun n (Digits.text n) := by
  have hdigits : ∀ c ∈ Digits.text n, c.isDigit = true := fun c hc ↦
    Nat.isDigit_of_mem_toDigits (by decide) (by decide) hc
  refine ⟨hdigits, ?_⟩
  rw [← Utf8.encode_ascii (Utf8.ascii_of_isDigit hdigits)]
  exact (Direct.nat_isDecimal n).value_eq

/-- Digits are read on from the number before them. -/
theorem append (h : IsRun m letters) (h' : IsRun n more) :
    IsRun (m * 10 ^ more.length + n) (letters ++ more) := by
  refine ⟨fun c hc ↦ (List.mem_append.1 hc).elim (h.isDigit c) (h'.isDigit c), ?_⟩
  have hvalue : Digits.valueFrom? 10 0 _ = some m := h.value_eq
  have hvalue' : Digits.valueFrom? 10 0 _ = some n := h'.value_eq
  rw [List.map_append, Digits.value?, Digits.valueFrom?_append, hvalue, Option.bind_some]
  have hadd := Digits.valueFrom?_add m 0 (more.map Utf8.byte)
  rw [Nat.add_zero, hvalue', List.length_map] at hadd
  exact hadd

theorem zeros : ∀ k : Nat, IsRun 0 (List.replicate k '0')
  | 0 => ⟨fun _ hc ↦ absurd hc List.not_mem_nil, rfl⟩
  | k + 1 => by
    have hzero : IsRun 0 ['0'] := text 0
    have happend := hzero.append (zeros k)
    rwa [Nat.zero_mul] at happend

theorem padded {width : Nat} : IsRun n (Digits.padded width n) := by
  have happend := (zeros (width - (Digits.text n).length)).append (text n)
  rwa [Nat.zero_mul, Nat.zero_add] at happend

end IsRun

theorem padded_length {width n : Nat} (hwidth : 0 < width) (hn : n < 10 ^ width) :
    (Digits.padded width n).length = width := by
  have hle : (Digits.text n).length ≤ width :=
    (Nat.length_toDigits_le_iff (by decide) hwidth).2 hn
  rw [Digits.padded, List.length_append, List.length_replicate]
  omega

theorem text_ne_nil (n : Nat) : Digits.text n ≠ [] := by
  intro h
  have hne := (Direct.nat_isDecimal n).ne_nil
  rw [show Dump.nat n = String.ofList (Digits.text n) from rfl, h] at hne
  exact hne rfl

/-! ## Spellings -/

/-- The parts of a number as it is printed: a sign, digits, digits behind a point, and an
exponent. -/
structure Spelling where
  negative : Bool
  whole : List Char
  fraction : List Char
  exponent : Option Int

/-- A minus sign, if there is to be one. -/
def minus (negative : Bool) : List Char := if negative then ['-'] else []

namespace Spelling

/-- The point and the digits behind it, if there are any. -/
def pointed (s : Spelling) : List Char := if s.fraction = [] then [] else '.' :: s.fraction

/-- The exponent, if there is one. -/
def power (s : Spelling) : List Char :=
  match s.exponent with
  | none => []
  | some e => 'e' :: Decimal.integerText e

/-- A spelling as text. -/
def letters (s : Spelling) : List Char :=
  minus s.negative ++ (s.whole ++ (s.pointed ++ s.power))

/-- The number that a spelling stands for. -/
def numeral (s : Spelling) : Numeral where
  negative := s.negative
  digits := Digits.decimalValue ((s.whole ++ s.fraction).map Utf8.byte)
  exponent := s.exponent.getD 0 - s.fraction.length

/-- A spelling that is not mistaken for anything but a decimal: its digits are digits, there are
some before the point, and there is a point or an exponent. -/
structure IsDecimal (s : Spelling) : Prop where
  whole_isDigit : ∀ c ∈ s.whole, c.isDigit = true
  whole_ne_nil : s.whole ≠ []
  fraction_isDigit : ∀ c ∈ s.fraction, c.isDigit = true
  marked : s.fraction ≠ [] ∨ s.exponent ≠ none

end Spelling

namespace Direct

/-! ## Reading a spelling -/

theorem endsDigits_of_isDelimited {rest : List UInt8} (h : isDelimited rest = true) :
    EndsDigits rest := by
  rintro b hb
  cases rest with
  | nil => cases hb
  | cons c rest =>
    cases hb
    rw [isDelimited, Byte.isIdentifier] at h
    cases hdigit : Byte.isDigit b with
    | false => rfl
    | true => simp [hdigit] at h

theorem exponent_eq_none {rest : List UInt8} (h : isDelimited rest = true) :
    exponent rest = none := by
  cases rest with
  | nil => rfl
  | cons b rest =>
    rw [exponent, if_neg]
    rintro (rfl | rfl) <;> exact Bool.false_ne_true h

/-- A minus sign before digits is taken off. -/
theorem sign_minus (negative : Bool) {run : List UInt8} (hrun : ∀ b ∈ run, Byte.isDigit b = true)
    (hne : run ≠ []) (rest : List UInt8) :
    sign ((minus negative).map Utf8.byte ++ (run ++ rest)) =
        ((minus negative).map Utf8.byte, run ++ rest) ∧
      Numeral.takeSign ((minus negative).map Utf8.byte ++ (run ++ rest)) =
        (negative, run ++ rest) := by
  cases negative with
  | true => exact ⟨rfl, rfl⟩
  | false =>
    obtain ⟨b, run, rfl⟩ := List.exists_cons_of_ne_nil hne
    obtain ⟨hsign, hminus, hplus⟩ := isSign_of_isDigit (hrun b List.mem_cons_self)
    show sign (b :: (run ++ rest)) = _ ∧ Numeral.takeSign (b :: (run ++ rest)) = _
    rw [sign, hsign, Numeral.takeSign, if_neg hminus, if_neg hplus]
    exact ⟨rfl, rfl⟩

theorem integerText_eq (e : Int) :
    Decimal.integerText e = minus (decide (e < 0)) ++ Digits.text e.natAbs := by
  cases e with
  | ofNat n => rfl
  | negSucc n =>
    rw [decide_eq_true (Int.negSucc_lt_zero n)]
    rfl

/-- An exponent is read back, -/
theorem exponent_integerText (e : Int) {rest : List UInt8} (hrest : EndsDigits rest) :
    exponent (0x65 :: ((Decimal.integerText e).map Utf8.byte ++ rest)) =
      some (0x65 :: (Decimal.integerText e).map Utf8.byte, rest) := by
  have hrun := (IsRun.text e.natAbs).bytes
  have hne : (Digits.text e.natAbs).map Utf8.byte ≠ [] :=
    fun h ↦ text_ne_nil _ (List.map_eq_nil_iff.1 h)
  rw [integerText_eq, List.map_append, List.append_assoc, exponent, if_pos (.inl rfl),
    (sign_minus _ hrun hne rest).1]
  dsimp only
  rw [(span_digits hrun hrest).1, (span_digits hrun hrest).2, if_neg hne]

/-- and it is the number that was written. -/
theorem exponent?_integerText (e : Int) :
    Numeral.exponent? (0x65 :: (Decimal.integerText e).map Utf8.byte) = some e := by
  have hrun := IsRun.text e.natAbs
  have hne : (Digits.text e.natAbs).map Utf8.byte ≠ [] :=
    fun h ↦ text_ne_nil _ (List.map_eq_nil_iff.1 h)
  have hsign := (sign_minus (decide (e < 0)) hrun.bytes hne []).2
  rw [List.append_nil] at hsign
  rw [integerText_eq, List.map_append, Numeral.exponent?, if_pos (.inl rfl), hsign]
  dsimp only
  rw [if_neg hne, hrun.value_eq]
  show some (if decide (e < 0) = true then -(e.natAbs : Int) else e.natAbs) = some e
  congr 1
  split
  · next h =>
    have := of_decide_eq_true h
    omega
  · next h =>
    have := of_decide_eq_false (Bool.eq_false_iff.2 h)
    omega

variable {s : Spelling}

/-- What stands behind the digits before the point. -/
theorem endsDigits_tail (h : s.IsDecimal) (rest : List UInt8) :
    EndsDigits (s.pointed.map Utf8.byte ++ (s.power.map Utf8.byte ++ rest)) := by
  rintro b hb
  rw [Spelling.pointed, Spelling.power] at hb
  obtain hfraction | hexponent := h.marked
  · rw [if_neg hfraction] at hb
    cases hb
    rfl
  · obtain ⟨e, he⟩ := Option.ne_none_iff_exists'.1 hexponent
    rw [he] at hb
    split at hb
    · cases hb
      rfl
    · cases hb
      rfl

/-- What stands behind the digits behind the point is read as the exponent. -/
theorem exponent_power (s : Spelling) (rest : List UInt8) (hrest : isDelimited rest = true) :
    exponent (s.power.map Utf8.byte ++ rest) =
        (if s.exponent = none then none else some (s.power.map Utf8.byte, rest)) ∧
      EndsDigits (s.power.map Utf8.byte ++ rest) := by
  rw [Spelling.power]
  cases s.exponent with
  | none => exact ⟨exponent_eq_none hrest, endsDigits_of_isDelimited hrest⟩
  | some e =>
    refine ⟨exponent_integerText e (endsDigits_of_isDelimited hrest), ?_⟩
    rintro b ⟨⟩
    rfl

/-- A spelling as bytes, before more input. -/
theorem letters_bytes (s : Spelling) (rest : List UInt8) :
    s.letters.map Utf8.byte ++ rest = (minus s.negative).map Utf8.byte ++
      (s.whole.map Utf8.byte ++ (s.pointed.map Utf8.byte ++ (s.power.map Utf8.byte ++ rest))) := by
  rw [Spelling.letters]
  simp only [List.map_append, List.append_assoc]

/-- A spelling is taken off the input. -/
theorem decimalToken_spelling (h : s.IsDecimal) {rest : List UInt8}
    (hrest : isDelimited rest = true) :
    decimalToken (s.letters.map Utf8.byte ++ rest) = some (s.letters.map Utf8.byte, rest) := by
  have hwhole := Utf8.bytes_isDigit h.whole_isDigit
  have hne : s.whole.map Utf8.byte ≠ [] := fun hnil ↦ h.whole_ne_nil (List.map_eq_nil_iff.1 hnil)
  have htoken := letters_bytes s []
  obtain ⟨htake, hdrop⟩ := span_digits hwhole (endsDigits_tail h rest)
  obtain ⟨hpower, hends⟩ := exponent_power s rest hrest
  simp only [List.append_nil] at htoken
  rw [decimalToken, letters_bytes, (sign_minus _ hwhole hne _).1]
  dsimp only
  rw [htake, hdrop, htoken]
  by_cases hfraction : s.fraction = []
  · obtain ⟨e, he⟩ := Option.ne_none_iff_exists'.1 (h.marked.resolve_left (not_not.2 hfraction))
    have hpointed : s.pointed = [] := if_pos hfraction
    have hletters : s.power = 'e' :: Decimal.integerText e := by rw [Spelling.power, he]
    rw [if_neg (he ▸ Option.some_ne_none e)] at hpower
    rw [hpointed, List.map_nil, List.nil_append, List.nil_append]
    rw [hletters] at hpower ⊢
    show (if (0x65 : UInt8) = 0x2E then _ else if s.whole.map Utf8.byte = [] then none
      else (exponent (('e' :: Decimal.integerText e).map Utf8.byte ++ rest)).map _) = _
    rw [if_neg (by decide), if_neg hne, hpower]
    rfl
  · have hpointed : s.pointed = '.' :: s.fraction := if_neg hfraction
    have hne' : s.fraction.map Utf8.byte ≠ [] := fun hnil ↦ hfraction (List.map_eq_nil_iff.1 hnil)
    obtain ⟨htake', hdrop'⟩ := span_digits (Utf8.bytes_isDigit h.fraction_isDigit) hends
    rw [hpointed, List.map_cons, List.cons_append]
    show (if (0x2E : UInt8) = 0x2E then _ else _) = _
    rw [if_pos rfl, htake', hdrop', if_neg hne', hpower]
    by_cases he : s.exponent = none
    · have hletters : s.power = [] := by rw [Spelling.power, he]
      rw [if_pos he, hletters, List.map_nil, List.append_nil]
      rfl
    · rw [if_neg he]
      rfl

theorem takeFraction_spelling (h : s.IsDecimal) :
    Numeral.takeFraction (s.pointed.map Utf8.byte ++ s.power.map Utf8.byte) =
      (s.fraction.map Utf8.byte, s.power.map Utf8.byte) := by
  by_cases hfraction : s.fraction = []
  · rw [Spelling.pointed, if_pos hfraction, hfraction, Spelling.power]
    cases s.exponent with
    | none => rfl
    | some e => rfl
  · have hends := (exponent_power s [] rfl).2
    rw [List.append_nil] at hends
    obtain ⟨htake, hdrop⟩ := span_digits (Utf8.bytes_isDigit h.fraction_isDigit) hends
    rw [Spelling.pointed, if_neg hfraction]
    show Numeral.takeDigits (s.fraction.map Utf8.byte ++ s.power.map Utf8.byte) = _
    rw [Numeral.takeDigits, List.span_eq_takeWhile_dropWhile, htake, hdrop]

/-- A spelling stands for its number. -/
theorem parse_spelling (h : s.IsDecimal) :
    Numeral.parse? (s.letters.map Utf8.byte) = some s.numeral := by
  have hwhole := Utf8.bytes_isDigit h.whole_isDigit
  have hne : s.whole.map Utf8.byte ≠ [] := fun hnil ↦ h.whole_ne_nil (List.map_eq_nil_iff.1 hnil)
  have htoken := letters_bytes s []
  obtain ⟨htake, hdrop⟩ := span_digits hwhole (endsDigits_tail h [])
  have hexponent : Numeral.exponent? (s.power.map Utf8.byte) = some (s.exponent.getD 0) := by
    rw [Spelling.power]
    cases s.exponent with
    | none => rfl
    | some e => exact exponent?_integerText e
  have hfraction := takeFraction_spelling h
  simp only [List.append_nil] at htoken htake hdrop
  rw [Numeral.parse?, htoken, (sign_minus _ hwhole hne _).2]
  dsimp only
  rw [Numeral.takeDigits, List.span_eq_takeWhile_dropWhile, htake, hdrop]
  dsimp only
  rw [hfraction]
  dsimp only
  rw [if_neg fun hnil ↦ hne (List.append_eq_nil_iff.1 hnil).1, hexponent, Spelling.numeral,
    List.map_append, List.length_map]
  rfl

/-- **Spellings.**  A spelling before something that does not go on is read as the nearest
double-precision number, if that is finite. -/
theorem decimal_spelling (h : s.IsDecimal) {rest : List UInt8} (hrest : isDelimited rest = true)
    (hfinite : (s.numeral.round .binary64).isFinite = true) :
    decimal (s.letters.map Utf8.byte ++ rest) =
      some (.decimal (s.numeral.round .binary64), rest) := by
  rw [decimal, decimalToken_spelling h hrest, Option.bind_some]
  dsimp only
  rw [parse_spelling h, Option.bind_some, hfinite, hrest]
  rfl

end Direct

namespace Spelling

variable {s : Spelling}

/-- A spelling is in ASCII. -/
theorem letters_ascii (h : s.IsDecimal) : ∀ c ∈ s.letters, c.toNat < 0x80 := by
  have hminus (negative : Bool) : ∀ c ∈ minus negative, c.toNat < 0x80 := by
    cases negative with
    | true => exact List.forall_mem_singleton.2 (by decide)
    | false => exact fun _ hc ↦ absurd hc List.not_mem_nil
  have hpointed : ∀ c ∈ s.pointed, c.toNat < 0x80 := by
    rw [pointed]
    split
    · exact fun _ hc ↦ absurd hc List.not_mem_nil
    · exact List.forall_mem_cons.2 ⟨by decide, Utf8.ascii_of_isDigit h.fraction_isDigit⟩
  have hpower : ∀ c ∈ s.power, c.toNat < 0x80 := by
    rw [power]
    split
    · exact fun _ hc ↦ absurd hc List.not_mem_nil
    · rw [Direct.integerText_eq]
      exact List.forall_mem_cons.2 ⟨by decide,
        List.forall_mem_append.2 ⟨hminus _, Utf8.ascii_of_isDigit (IsRun.text _).isDigit⟩⟩
  exact List.forall_mem_append.2 ⟨hminus _, List.forall_mem_append.2
    ⟨Utf8.ascii_of_isDigit h.whole_isDigit, List.forall_mem_append.2 ⟨hpointed, hpower⟩⟩⟩

theorem numeral_eq {n : Nat} (h : IsRun n (s.whole ++ s.fraction)) :
    s.numeral = ⟨s.negative, n, s.exponent.getD 0 - s.fraction.length⟩ := by
  rw [numeral, Digits.decimalValue, h.value_eq]
  rfl

end Spelling

end DocGrammar
