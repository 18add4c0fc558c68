import DocGrammar.Doc.Printer
import DocGrammar.Proofs.Direct.Integers
import DocGrammar.Proofs.Direct.Progress
import DocGrammar.Proofs.Printing.Utf8

/-!
# Printed tokens are read back

What the printer writes for a leaf, for a name and for the space between them is put before more
input, and the direct reader is shown to take exactly that off again, and to make of it what was
printed.  In a printed document a value is always followed by the end of its line.

The reader is more liberal than the printer, so each kind of token has its own trap.  A bare name
must not go on in what follows it.  A quoted text must not contain a byte that ends it, although it
is escaped by characters and read by bytes.  A whole number must not begin with a zero, or it would
be read in base eight.
-/

set_option autoImplicit false

namespace DocGrammar
namespace Direct

/-! ## Fluff -/

/-- What does not begin with fluff. -/
def IsSolid (bytes : List UInt8) : Prop :=
  ∀ b ∈ bytes.head?, Fluff.isSeparator b = false ∧ b ≠ 0x2F

theorem fluff_cons {b : UInt8} (hb : Fluff.isSeparator b = true) (bytes : List UInt8) :
    fluff (b :: bytes) = fluff bytes :=
  fluffFrom_separator hb bytes

theorem fluff_append {space : List UInt8} (hspace : ∀ b ∈ space, Fluff.isSeparator b = true)
    (bytes : List UInt8) : fluff (space ++ bytes) = fluff bytes := by
  induction space with
  | nil => rfl
  | cons b space ih =>
    obtain ⟨hb, hspace⟩ := List.forall_mem_cons.1 hspace
    rw [List.cons_append, fluff_cons hb, ih hspace]

theorem IsSolid.fluff_eq {bytes : List UInt8} (h : IsSolid bytes) : fluff bytes = some bytes := by
  cases bytes with
  | nil => rfl
  | cons b rest =>
    obtain ⟨hseparator, hslash⟩ := h b rfl
    exact fluffFrom_solid hseparator hslash rest

/-! ## Quoted texts -/

/-- Bytes that stand for themselves between quotes. -/
theorem quotedBody_append {plain : List UInt8}
    (hplain : ∀ b ∈ plain, b ≠ 0x22 ∧ b ≠ 0x0A ∧ b ≠ 0x5C) (bytes : List UInt8) :
    quotedBody (plain ++ bytes) =
      (quotedBody bytes).map fun (body, left) ↦ (plain ++ body, left) := by
  induction plain with
  | nil => simp
  | cons b plain ih =>
    obtain ⟨⟨hquote, hnewline, hbackslash⟩, hplain⟩ := List.forall_mem_cons.1 hplain
    rw [List.cons_append, quotedBody_plain hquote hnewline hbackslash, ih hplain, Option.map_map]
    rfl

theorem encodeChar_plain {c : Char} (hnewline : c ≠ '\n') (hbackslash : c ≠ '\\')
    (hquote : c ≠ '\"') :
    ∀ b ∈ String.utf8EncodeChar c, b ≠ 0x22 ∧ b ≠ 0x0A ∧ b ≠ 0x5C := fun b hb ↦
  ⟨Utf8.encodeChar_ne (by decide) hquote b hb, Utf8.encodeChar_ne (by decide) hnewline b hb,
    Utf8.encodeChar_ne (by decide) hbackslash b hb⟩

/-- One character with its escape. -/
theorem quotedBody_escape (c : Char) (bytes : List UInt8) :
    quotedBody ((Quoted.escape c).flatMap String.utf8EncodeChar ++ bytes) =
      (quotedBody bytes).map fun (body, left) ↦ (String.utf8EncodeChar c ++ body, left) := by
  rw [Quoted.escape]
  split
  · next h =>
    subst h
    exact quotedBody_escaped 0x74 bytes
  split
  · next h =>
    subst h
    exact quotedBody_escaped 0x6E bytes
  split
  · next h =>
    subst h
    exact quotedBody_escaped 0x72 bytes
  split
  · next h =>
    subst h
    exact quotedBody_escaped 0x5C bytes
  split
  · next h =>
    subst h
    exact quotedBody_escaped 0x22 bytes
  · next hnewline _ hbackslash hquote =>
    rw [List.flatMap_singleton]
    exact quotedBody_append (encodeChar_plain hnewline hbackslash hquote) bytes

/-- What is escaped is resolved, up to the closing quote. -/
theorem quotedBody_body (text : String) (rest : List UInt8) :
    quotedBody (Utf8.encode (Quoted.body text) ++ 0x22 :: rest) =
      some (Utf8.encode text, rest) := by
  rw [Quoted.body, Utf8.encode_ofList, Utf8.encode_eq_flatMap text]
  induction text.toList with
  | nil =>
    exact quotedBody_quote rest
  | cons c letters ih =>
    rw [List.flatMap_cons, List.flatMap_append, List.append_assoc, quotedBody_escape, ih,
      List.flatMap_cons]
    rfl

theorem encode_quoted (text : String) :
    Utf8.encode (Quoted.encode text) = 0x22 :: (Utf8.encode (Quoted.body text) ++ [0x22]) := by
  rw [Quoted.encode, Utf8.encode_append, Utf8.encode_append]
  rfl

/-- **Quoted texts.**  A text that was quoted is read back. -/
theorem string_quoted (text : String) (rest : List UInt8) :
    string (Utf8.encode (Quoted.encode text) ++ rest) = some (text, rest) := by
  rw [encode_quoted, List.cons_append, List.append_assoc, string, if_pos rfl]
  rw [List.singleton_append, quotedBody_body, Option.bind_some, Direct.text, Utf8.decode_encode]
  rfl

/-! ## Names -/

/-- A bare name takes as many identifier bytes as there are, and a blank is none. -/
theorem string_bare {name : String} (hname : Doc.isBare name = true) (rest : List UInt8) :
    string (Utf8.encode name ++ 0x20 :: rest) = some (name, 0x20 :: rest) := by
  rw [Doc.isBare] at hname
  cases hencode : Utf8.encode name with
  | nil => simp [hencode] at hname
  | cons b letters =>
    rw [hencode] at hname
    obtain ⟨hstart, hletters⟩ := Bool.and_eq_true_iff.1 hname
    have hall : ∀ c ∈ letters, Byte.isIdentifier c = true := List.all_eq_true.1 hletters
    have hquote : b ≠ 0x22 := by
      rintro rfl
      exact absurd hstart (by decide)
    have hfence : ¬ TextGrammar.fence.isPrefixOf (b :: (letters ++ 0x20 :: rest)) = true := by
      intro h
      obtain ⟨left, hleft⟩ := List.isPrefixOf_iff_prefix.1 h
      obtain ⟨rfl, -⟩ := List.cons.inj hleft
      exact absurd hstart (by decide)
    have hblank : ¬ Byte.isIdentifier 0x20 = true := by decide
    rw [List.cons_append, string, if_neg hquote, if_neg hfence, identifier, if_pos hstart,
      List.takeWhile_append_of_pos hall, List.dropWhile_append_of_pos hall,
      List.takeWhile_cons_of_neg hblank, List.dropWhile_cons_of_neg hblank, List.append_nil,
      Option.bind_some, Direct.text, ← hencode, Utf8.decode_encode]
    rfl

theorem string_nameText (name : String) (rest : List UInt8) :
    string (Utf8.encode (Doc.nameText name) ++ 0x20 :: rest) = some (name, 0x20 :: rest) := by
  rw [Doc.nameText]
  split
  · next hname => exact string_bare hname rest
  · exact string_quoted name _

/-- **Names.**  A name is read back, however it was written. -/
theorem heading_nameText (name : String) (rest : List UInt8) :
    heading (Utf8.encode (Doc.nameText name ++ " = ") ++ rest) = some (name, 0x20 :: rest) := by
  rw [Utf8.encode_append, List.append_assoc, heading]
  show (string (Utf8.encode (Doc.nameText name) ++ 0x20 :: 0x3D :: 0x20 :: rest)).bind _ = _
  rw [string_nameText]
  rfl

/-! ## Whole numbers -/

/-- The byte of a decimal digit. -/
theorem encode_digitChar {d : Nat} (h : d < 10) :
    String.utf8EncodeChar d.digitChar = [UInt8.ofNat (48 + d)] := by
  have htoNat := Nat.toNat_digitChar_of_lt_ten h
  rw [Utf8.encodeChar_ascii (by omega), htoNat]

theorem digit_ofNat : ∀ d < 10, Digits.digit? (UInt8.ofNat (48 + d)) = some d ∧
    Byte.isDigit (UInt8.ofNat (48 + d)) = true := by
  decide

/-- The bytes of a number in base ten: its digits, none of which is a leading zero. -/
structure IsDecimal (n : Nat) (bytes : List UInt8) : Prop where
  isDigit : ∀ b ∈ bytes, Byte.isDigit b = true
  value_eq : Digits.value? 10 bytes = some n
  ne_nil : bytes ≠ []
  head : bytes = [0x30] ∨ bytes.head? ≠ some 0x30

theorem value_zero : Digits.value? 10 [0x30] = some 0 := rfl

theorem IsDecimal.digit {d : Nat} (h : d < 10) : IsDecimal d [UInt8.ofNat (48 + d)] := by
  obtain ⟨hdigit, hclass⟩ := digit_ofNat d h
  refine ⟨fun b hb ↦ List.mem_singleton.1 hb ▸ hclass, ?_, List.cons_ne_nil _ _, ?_⟩
  · rw [Digits.value?, Digits.valueFrom?, hdigit]
    simp only [if_pos h, Digits.valueFrom?, Nat.zero_mul, Nat.zero_add]
  · by_cases hzero : UInt8.ofNat (48 + d) = 0x30
    · exact .inl (congrArg (fun b ↦ [b]) hzero)
    · exact .inr fun heq ↦ hzero (Option.some.inj heq)

theorem IsDecimal.snoc {q d : Nat} {bytes : List UInt8} (h : IsDecimal q bytes) (hq : 0 < q)
    (hd : d < 10) : IsDecimal (10 * q + d) (bytes ++ [UInt8.ofNat (48 + d)]) := by
  obtain ⟨hdigit, hclass⟩ := digit_ofNat d hd
  refine ⟨fun b hb ↦ ?_, ?_, by simp, .inr ?_⟩
  · rcases List.mem_append.1 hb with hb | hb
    · exact h.isDigit b hb
    · exact List.mem_singleton.1 hb ▸ hclass
  · have hvalue : Digits.valueFrom? 10 0 bytes = some q := h.value_eq
    rw [Digits.value?, Digits.valueFrom?_append, hvalue, Option.bind_some, Digits.valueFrom?,
      hdigit]
    simp only [if_pos hd, Digits.valueFrom?, Nat.mul_comm]
  · rw [List.head?_append_of_ne_nil _ h.ne_nil]
    rcases h.head with rfl | hne
    · have hzero := h.value_eq
      rw [value_zero] at hzero
      exact absurd (Option.some.inj hzero) (Nat.ne_of_lt hq)
    · exact hne

theorem nat_isDecimal (n : Nat) : IsDecimal n (Utf8.encode (Dump.nat n)) := by
  rw [Dump.nat, Utf8.encode_ofList]
  induction n using Nat.strongRecOn with
  | ind n ih =>
    by_cases hn : n < 10
    · rw [Nat.toDigits_of_lt_base hn, List.flatMap_singleton, encode_digitChar hn]
      exact .digit hn
    · obtain ⟨d, q, hd, hq, rfl⟩ : ∃ d q, d < 10 ∧ 0 < q ∧ n = 10 * q + d :=
        ⟨n % 10, n / 10, Nat.mod_lt _ (by decide), by omega, (Nat.div_add_mod n 10).symm⟩
      rw [← Nat.toDigits_append_toDigits (by decide) hq hd, List.flatMap_append,
        Nat.toDigits_of_lt_base hd, List.flatMap_singleton, encode_digitChar hd]
      exact (ih q (by omega)).snoc hq hd

/-- What does not go on a run of digits. -/
def EndsDigits (rest : List UInt8) : Prop := ∀ b ∈ rest.head?, Byte.isDigit b = false

theorem span_digits {run rest : List UInt8} (hrun : ∀ b ∈ run, Byte.isDigit b = true)
    (hrest : EndsDigits rest) :
    (run ++ rest).takeWhile Byte.isDigit = run ∧ (run ++ rest).dropWhile Byte.isDigit = rest := by
  rw [List.takeWhile_append_of_pos hrun, List.dropWhile_append_of_pos hrun]
  cases rest with
  | nil => exact ⟨List.append_nil run, rfl⟩
  | cons b rest =>
    have hb : ¬ Byte.isDigit b = true := Bool.eq_false_iff.1 (hrest b rfl)
    rw [List.takeWhile_cons_of_neg hb, List.dropWhile_cons_of_neg hb, List.append_nil]
    exact ⟨rfl, rfl⟩

theorem IsDecimal.span {n : Nat} {bytes : List UInt8} (h : IsDecimal n bytes)
    (rest : List UInt8) :
    (bytes ++ 0x0A :: rest).takeWhile Byte.isDigit = bytes ∧
      (bytes ++ 0x0A :: rest).dropWhile Byte.isDigit = 0x0A :: rest := by
  refine span_digits h.isDigit ?_
  rintro b ⟨⟩
  rfl

/-- Without a point or an exponent there is no decimal. -/
theorem decimal_eq_none {n : Nat} {bytes unsigned sign' : List UInt8} (h : IsDecimal n unsigned)
    {rest : List UInt8} (hsign : sign bytes = (sign', unsigned ++ 0x0A :: rest)) :
    decimal bytes = none := by
  have htoken : decimalToken bytes = none := by
    rw [decimalToken, hsign]
    simp only [h.span rest, if_neg h.ne_nil]
    rfl
  rw [decimal, htoken]
  rfl

theorem magnitude_eq {n : Nat} {bytes : List UInt8} (h : IsDecimal n bytes) (rest : List UInt8) :
    magnitude (bytes ++ 0x0A :: rest) = some (n, 0x0A :: rest) := by
  rcases h.head with rfl | hne
  · have hzero := h.value_eq
    rw [value_zero] at hzero
    cases hzero
    cases rest with
    | nil => rfl
    | cons h rest => rfl
  · obtain ⟨b, more, rfl⟩ := List.exists_cons_of_ne_nil h.ne_nil
    have hdigit := h.isDigit b List.mem_cons_self
    have hb : b ≠ 0x30 := fun hb ↦ hne (congrArg some hb)
    obtain ⟨htake, hdrop⟩ := h.span rest
    rw [List.cons_append] at htake hdrop ⊢
    rw [magnitude.eq_def]
    dsimp only
    rw [if_neg hb, if_pos hdigit, digits, htake, hdrop, h.value_eq]
    rfl

theorem isSign_of_isDigit {b : UInt8} (h : Byte.isDigit b = true) :
    isSign b = false ∧ b ≠ 0x2D ∧ b ≠ 0x2B :=
  Byte.forall_of_lt
    (P := fun b ↦ Byte.isDigit b = true → isSign b = false ∧ b ≠ 0x2D ∧ b ≠ 0x2B)
    (by decide +kernel) b h

theorem sign_digits {n : Nat} {bytes : List UInt8} (h : IsDecimal n bytes) (rest : List UInt8) :
    sign (bytes ++ rest) = ([], bytes ++ rest) := by
  obtain ⟨b, more, rfl⟩ := List.exists_cons_of_ne_nil h.ne_nil
  have hsign := isSign_of_isDigit (h.isDigit b List.mem_cons_self)
  rw [List.cons_append, sign, hsign.1, if_neg Bool.false_ne_true]

/-- The bytes of a whole number: its digits, behind a minus sign if it is negative. -/
theorem encode_int (i : Int) :
    ∃ digits, IsDecimal i.natAbs digits ∧
      ((0 ≤ i ∧ Utf8.encode (Dump.int i) = digits) ∨
        (i < 0 ∧ Utf8.encode (Dump.int i) = 0x2D :: digits)) := by
  cases i with
  | ofNat n => exact ⟨_, nat_isDecimal n, .inl ⟨Int.natCast_nonneg n, rfl⟩⟩
  | negSucc n =>
    refine ⟨_, nat_isDecimal (n + 1), .inr ⟨Int.negSucc_lt_zero n, ?_⟩⟩
    rw [Dump.int, Utf8.encode_append]
    rfl

/-- **Whole numbers.**  Every number of 64 bits is read back, the least one included. -/
theorem number_int (value : Int64) (rest : List UInt8) :
    number (Utf8.encode (Dump.int value.toInt) ++ 0x0A :: rest) =
      some (.integer value, 0x0A :: rest) := by
  obtain ⟨digits, hdigits, hint⟩ := encode_int value.toInt
  have hlow : -0x8000000000000000 ≤ value.toInt := value.le_toInt
  have hhigh : value.toInt < 0x8000000000000000 := value.toInt_lt
  rcases hint with ⟨hsign, hint⟩ | ⟨hsign, hint⟩
  · have hunsigned := sign_digits hdigits (0x0A :: rest)
    have hnumber : (value.toInt.natAbs : Int) = value.toInt := Int.natAbs_of_nonneg hsign
    rw [hint, number, decimal_eq_none hdigits hunsigned, Option.none_or, integer, hunsigned]
    dsimp only
    rw [magnitude_eq hdigits, Option.bind_some]
    dsimp only
    rw [if_neg (List.cons_ne_nil _ _).symm, hnumber, if_pos ⟨hlow, hhigh, rfl⟩, Int64.ofInt_toInt]
  · have hunsigned : sign (0x2D :: digits ++ 0x0A :: rest) = ([0x2D], digits ++ 0x0A :: rest) := rfl
    have hnumber : -(value.toInt.natAbs : Int) = value.toInt := by omega
    rw [hint, number, decimal_eq_none hdigits hunsigned, Option.none_or, integer, hunsigned]
    dsimp only
    rw [magnitude_eq hdigits, Option.bind_some]
    dsimp only
    rw [if_pos rfl, hnumber, if_pos ⟨hlow, hhigh, rfl⟩, Int64.ofInt_toInt]

/-! ## Items one after the other -/

section

variable {α : Type} {read : List UInt8 → Option (α × List UInt8)} {closer : Option UInt8}

/-- Space before items does not matter. -/
theorem enclosed_append {space : List UInt8} (hspace : ∀ b ∈ space, Fluff.isSeparator b = true)
    (bytes : List UInt8) : enclosed read closer (space ++ bytes) = enclosed read closer bytes := by
  rw [enclosed, enclosed, fluff_append hspace]

/-- An item, and the items behind it. -/
theorem enclosed_cons (hshortens : Shortens read) {bytes more left : List UInt8} {x : α}
    {xs : List α} (hsolid : IsSolid bytes) (hhead : bytes.head? ≠ closer)
    (hread : read bytes = some (x, more)) (hmore : enclosed read closer more = some (xs, left)) :
    enclosed read closer bytes = some (x :: xs, left) := by
  obtain ⟨behind, hfluff, hitems⟩ := Option.bind_eq_some_iff.1 hmore
  have hitem : withFluff read bytes = some (x, behind) := by
    rw [withFluff, hread, Option.bind_some]
    dsimp only
    rw [hfluff]
    rfl
  have hlength := withFluff_shortens hshortens hitem
  rw [enclosed, hsolid.fluff_eq, Option.bind_some, items, if_neg hhead, hitem, Option.bind_some]
  dsimp only
  rw [items_eq_of_lt hshortens closer hlength (Nat.lt_succ_self _), hitems]
  rfl

/-- Nothing is read up to a closing byte. -/
theorem enclosed_nil {b : UInt8} {rest : List UInt8} (hsolid : IsSolid (b :: rest)) :
    enclosed read (some b) (b :: rest) = some ([], rest) := by
  rw [enclosed, hsolid.fluff_eq, Option.bind_some, items]
  exact if_pos rfl

end

end Direct
end DocGrammar
