import DocGrammar.Proofs.Direct.Integers
import DocGrammar.Proofs.Direct.Progress

/-!
# Direct reading is local

What a document is read as does not depend on what follows it, if that begins with a closing
bracket: no word goes on with one, and whatever else could go on has its own end within the
document.  The one exception is a comment that ends with the line, so the document has to end with
its last line.

Words are read the same way whether they are found or not (`Stable`).  Of strings, fluff and values
only what is found stays the same (`Persists`): a comment that is not closed may be closed by what
follows.
-/

set_option autoImplicit false

namespace DocGrammar
namespace Direct

/-- Everything but the closing brackets. -/
def closesNothing (b : UInt8) : Bool := b != 0x7D && b != 0x5D && b != 0x29

/-- There is nothing, or it begins with a closing bracket. -/
def Closes (t : List UInt8) : Prop := ∀ b ∈ t.head?, closesNothing b = false

/-- A newline or a closing bracket.  No word goes on with one. -/
def isBreak (b : UInt8) : Bool := b == 0x0A || !closesNothing b

/-- There is nothing, or it begins with a byte with which no word goes on. -/
def Breaks (t : List UInt8) : Prop := ∀ b ∈ t.head?, isBreak b = true

theorem Closes.breaks {t : List UInt8} (h : Closes t) : Breaks t := fun b hb ↦ by
  rw [isBreak, h b hb]
  exact Bool.or_true _

theorem closesNothing_cases {b : UInt8} (h : closesNothing b = false) :
    b = 0x7D ∨ b = 0x5D ∨ b = 0x29 := by
  simpa [closesNothing, or_assoc, or_iff_not_imp_left] using h

/-- Nothing, or bytes that end with a line. -/
def Ended (bytes : List UInt8) : Prop := bytes = [] ∨ bytes.getLast? = some 0x0A

theorem Ended.suffix {bytes rest : List UInt8} (h : Ended bytes) (hrest : rest <:+ bytes) :
    Ended rest := by
  rcases eq_or_ne rest [] with rfl | hne
  · exact .inl rfl
  obtain ⟨before, rfl⟩ := hrest
  refine h.imp (fun hnil ↦ (List.append_eq_nil_iff.1 hnil).2) fun hlast ↦ ?_
  rwa [List.getLast?_append, List.getLast?_eq_some_getLast hne, Option.some_or,
    ← List.getLast?_eq_some_getLast hne] at hlast

theorem Ended.tail {b : UInt8} {bytes : List UInt8} (h : Ended (b :: bytes)) : Ended bytes :=
  h.suffix (List.suffix_cons b bytes)

/-- A byte that is no newline is not the last one. -/
theorem Ended.ne_nil {b : UInt8} {bytes : List UInt8} (h : Ended (b :: bytes)) (hb : b ≠ 0x0A) :
    bytes ≠ [] := by
  rintro rfl
  rcases h with h | h
  · cases h
  · exact hb (Option.some.inj h)

variable {α β : Type} {t : List UInt8}

/-- What is found, with more bytes behind. -/
def followed (t : List UInt8) (found : α × List UInt8) : α × List UInt8 := (found.1, found.2 ++ t)

/-- A reader comes to the same whether the bytes follow or not. -/
def Stable (t : List UInt8) (read : List UInt8 → Option (α × List UInt8)) : Prop :=
  ∀ bytes, read (bytes ++ t) = (read bytes).map (followed t)

/-- What the first reader finds in bytes that end with a line, the second one finds when more
follows; and what is left ends with a line too. -/
def Persists (t : List UInt8) (read read' : List UInt8 → Option (α × List UInt8)) : Prop :=
  ∀ ⦃bytes x rest⦄, Ended bytes → read bytes = some (x, rest) →
    Ended rest ∧ read' (bytes ++ t) = some (x, rest ++ t)

/-! ## Runs and words -/

section

variable {f : UInt8 → Bool}

/-- A class of bytes with which words may go on. -/
def OfWords (f : UInt8 → Bool) : Prop := ∀ b, isBreak b = true → f b = false

theorem ofWords_of_all (h : [0x0A, 0x7D, 0x5D, 0x29].all (!f ·) = true) : OfWords f := by
  simp only [List.all_cons, List.all_nil, Bool.and_true, Bool.and_eq_true, Bool.not_eq_true'] at h
  obtain ⟨hline, hbrace, hbracket, hparen⟩ := h
  intro b hb
  rcases Bool.or_eq_true_iff.1 hb with hb | hb
  · rwa [beq_iff_eq.1 hb]
  · rcases closesNothing_cases (Bool.not_eq_true' _ ▸ hb) with rfl | rfl | rfl
    · exact hbrace
    · exact hbracket
    · exact hparen

variable (ht : Breaks t)

include ht

theorem OfWords.head (hf : OfWords f) {b : UInt8} {u : List UInt8} (h : t = b :: u) :
    f b = false :=
  hf b (ht b (by rw [h]; rfl))

theorem takeWhile_append (hf : OfWords f) (bytes : List UInt8) :
    (bytes ++ t).takeWhile f = bytes.takeWhile f := by
  induction bytes with
  | nil =>
    rcases h : t with _ | ⟨b, u⟩
    · rfl
    · exact List.takeWhile_cons_of_neg (Bool.eq_false_iff.1 (hf.head ht h))
  | cons b bytes ih => rw [List.cons_append, List.takeWhile_cons, List.takeWhile_cons, ih]

theorem dropWhile_append (hf : OfWords f) (bytes : List UInt8) :
    (bytes ++ t).dropWhile f = bytes.dropWhile f ++ t := by
  induction bytes with
  | nil =>
    rcases h : t with _ | ⟨b, u⟩
    · rfl
    · exact List.dropWhile_cons_of_neg (Bool.eq_false_iff.1 (hf.head ht h))
  | cons b bytes ih =>
    rw [List.cons_append, List.dropWhile_cons, List.dropWhile_cons, ih]
    split
    · rfl
    · rfl

/-- A word does not reach into what follows. -/
theorem isPrefixOf_append {letters : List UInt8} (hletters : letters.all (!isBreak ·) = true)
    (bytes : List UInt8) : letters.isPrefixOf (bytes ++ t) = letters.isPrefixOf bytes := by
  induction letters generalizing bytes with
  | nil => rfl
  | cons c letters ih =>
    obtain ⟨hc, hletters⟩ := Bool.and_eq_true_iff.1 (List.all_cons ▸ hletters)
    rcases bytes with _ | ⟨b, bytes⟩
    · rcases h : t with _ | ⟨b, u⟩
      · rfl
      · have hb := ht b (by rw [h]; rfl)
        have hne : (c == b) = false := beq_false_of_ne fun heq ↦ by
          rw [heq, hb] at hc
          exact absurd hc (by decide)
        simp only [List.nil_append, List.isPrefixOf, hne, Bool.false_and]
    · simp only [List.cons_append, List.isPrefixOf, ih hletters bytes]

theorem isDelimited_append (bytes : List UInt8) : isDelimited (bytes ++ t) = isDelimited bytes := by
  rcases bytes with _ | ⟨b, bytes⟩
  · rcases h : t with _ | ⟨b, u⟩
    · rfl
    · have hb : OfWords fun b ↦ Byte.isIdentifier b || b == 0x2E :=
        ofWords_of_all (by decide)
      simp only [List.nil_append, isDelimited, hb.head ht h, Bool.not_false]
  · rfl

end

theorem Stable.or {read read' : List UInt8 → Option (α × List UInt8)} (h : Stable t read)
    (h' : Stable t read') : Stable t fun bytes ↦ (read bytes).or (read' bytes) := by
  intro bytes
  simp only [h bytes, h' bytes]
  rcases read bytes with _ | found
  · rfl
  · rfl

section

variable (ht : Breaks t)

include ht

theorem identifier_stable : Stable t identifier := by
  have hidentifier : OfWords Byte.isIdentifier := ofWords_of_all (by decide)
  have hstart : OfWords Byte.isIdentifierStart := ofWords_of_all (by decide)
  rintro (_ | ⟨b, rest⟩)
  · rcases h : t with _ | ⟨b, u⟩
    · rfl
    · simp [identifier, hstart.head ht h]
  · simp only [List.cons_append, identifier, takeWhile_append ht hidentifier,
      dropWhile_append ht hidentifier]
    split
    · rfl
    · rfl

theorem word_stable {spelling : String} (hspelling : (Utf8.encode spelling).all (!isBreak ·) = true)
    (content : Content Doc) : Stable t (word spelling content) := by
  intro bytes
  by_cases h : (Utf8.encode spelling).isPrefixOf bytes = true
  · have hle := (List.isPrefixOf_iff_prefix.1 h).length_le
    simp only [word, isPrefixOf_append ht hspelling, List.drop_append_of_le_length hle,
      isDelimited_append ht]
    split
    · rfl
    · rfl
  · simp only [word, isPrefixOf_append ht hspelling, h, Bool.false_and, Bool.false_eq_true,
      if_false,
      Option.map_none]

theorem keyword_stable : Stable t keyword :=
  Stable.or (word_stable ht (by decide) _) <|
    Stable.or (word_stable ht (by decide) _) (word_stable ht (by decide) _)

theorem sign_append (bytes : List UInt8) :
    sign (bytes ++ t) = ((sign bytes).1, (sign bytes).2 ++ t) := by
  rcases bytes with _ | ⟨b, rest⟩
  · rcases h : t with _ | ⟨b, u⟩
    · rfl
    · have hsign : OfWords isSign := ofWords_of_all (by decide)
      simp [sign, hsign.head ht h]
  · simp only [List.cons_append, sign]
    split
    · rfl
    · rfl

omit ht in
theorem digit_ofWords : OfWords Byte.isDigit := ofWords_of_all (by decide)

theorem exponent_stable : Stable t exponent := by
  rintro (_ | ⟨b, rest⟩)
  · rcases h : t with _ | ⟨b, u⟩
    · rfl
    · have hletter : OfWords fun b ↦ b == 0x65 || b == 0x45 := ofWords_of_all (by decide)
      have hb := hletter.head ht h
      simp only [Bool.or_eq_false_iff, beq_eq_false_iff_ne] at hb
      simp [exponent, hb.1, hb.2]
  · simp only [List.cons_append, exponent, sign_append ht, takeWhile_append ht digit_ofWords,
      dropWhile_append ht digit_ofWords]
    split
    · split
      · rfl
      · rfl
    · rfl

/-- Where the digits end, there is neither a point nor an exponent in what follows. -/
theorem decimalToken_stable : Stable t decimalToken := by
  intro bytes
  simp only [decimalToken, sign_append ht, takeWhile_append ht digit_ofWords,
    dropWhile_append ht digit_ofWords]
  generalize (sign bytes).2.takeWhile Byte.isDigit = whole
  rcases (sign bytes).2.dropWhile Byte.isDigit with _ | ⟨b, rest⟩
  · rcases h : t with _ | ⟨b, u⟩
    · rfl
    · have hpoint : OfWords (· == 0x2E) := ofWords_of_all (by decide)
      have hb : b ≠ 0x2E := by simpa using hpoint.head ht h
      have hexponent : exponent (b :: u) = none := by
        have hnone := exponent_stable ht []
        rwa [List.nil_append, h] at hnone
      simp [hb, hexponent]
  · simp only [List.cons_append, takeWhile_append ht digit_ofWords,
      dropWhile_append ht digit_ofWords]
    split
    · split
      · rfl
      · rw [exponent_stable ht]
        rcases exponent (rest.dropWhile Byte.isDigit) with _ | ⟨e, left⟩
        · rfl
        · rfl
    · split
      · rfl
      · rw [← List.cons_append, exponent_stable ht, Option.map_map, Option.map_map]
        rfl

theorem decimal_stable : Stable t decimal := by
  intro bytes
  rw [decimal, decimalToken_stable ht, decimal]
  rcases decimalToken bytes with _ | ⟨token, left⟩
  · rfl
  · simp only [Option.map_some, Option.bind_some, followed, isDelimited_append ht]
    rcases Numeral.parse? token with _ | numeral
    · rfl
    · simp only [Option.bind_some]
      split
      · rfl
      · rfl

theorem digits_stable (radix : Nat) {isDigit : UInt8 → Bool} (h : OfWords isDigit) :
    Stable t (digits radix isDigit) := by
  intro bytes
  simp only [digits, takeWhile_append ht h, dropWhile_append ht h, Option.map_map]
  rfl

theorem magnitude_stable : Stable t magnitude := by
  have hhex : OfWords isHexDigit := ofWords_of_all (by decide)
  have hoctal : Stable t (digits 8 isOctalDigit) :=
    digits_stable ht 8 (ofWords_of_all (by decide))
  rintro (_ | ⟨b, rest⟩)
  · rcases h : t with _ | ⟨b, u⟩
    · rfl
    · have hzero : OfWords (· == 0x30) := ofWords_of_all (by decide)
      have hb : b ≠ 0x30 := by simpa using hzero.head ht h
      rw [List.nil_append, magnitude.eq_def]
      simp [hb, digit_ofWords.head ht h, magnitude]
  by_cases hzero : b = 0x30
  · subst hzero
    by_cases hx : ∃ x c left, rest = x :: c :: left ∧ (x = 0x78 ∨ x = 0x58) ∧ isHexDigit c = true
    · obtain ⟨x, c, left, rfl, hx⟩ := hx
      simp only [List.cons_append, magnitude_hexadecimal hx.1 hx.2]
      exact digits_stable ht 16 hhex (c :: left)
    · have hno (x c : UInt8) (left : List UInt8) (h : rest = x :: c :: left)
          (hletter : x = 0x78 ∨ x = 0x58) : isHexDigit c = false :=
        Bool.eq_false_iff.2 fun hdigit ↦ hx ⟨x, c, left, h, hletter, hdigit⟩
      rw [List.cons_append, magnitude_octal hno, magnitude_octal, hoctal]
      -- neither the letter nor the digit ends a word
      intro x c left h hletter
      rcases rest with _ | ⟨x', _ | ⟨c', rest⟩⟩
      · have hletters : OfWords fun b ↦ b == 0x78 || b == 0x58 := ofWords_of_all (by decide)
        have hfalse := hletters.head ht h
        simp only [Bool.or_eq_false_iff, beq_eq_false_iff_ne] at hfalse
        exact (hletter.elim hfalse.1 hfalse.2).elim
      · exact hhex.head ht (List.cons.inj h).2
      · simp only [List.cons_append, List.cons.injEq] at h
        obtain ⟨rfl, rfl, -⟩ := h
        exact hno _ _ _ rfl hletter
  · rw [List.cons_append, magnitude.eq_def, magnitude.eq_def]
    simp only [hzero, if_false]
    split
    · exact digits_stable ht 10 digit_ofWords (b :: rest)
    · rfl

theorem integer_stable : Stable t integer := by
  intro bytes
  simp only [integer, sign_append ht]
  rw [magnitude_stable ht]
  rcases magnitude (sign bytes).2 with _ | ⟨n, left⟩
  · rfl
  · simp only [Option.map_some, Option.bind_some, followed, isDelimited_append ht]
    generalize (if (sign bytes).1 = [0x2D] then -(n : Int) else n) = number
    split
    · rfl
    · rfl

theorem number_stable : Stable t number := (decimal_stable ht).or (integer_stable ht)

end

/-! ## Strings -/

theorem quotedBody_persists {bytes body rest : List UInt8} (t : List UInt8)
    (h : quotedBody bytes = some (body, rest)) :
    quotedBody (bytes ++ t) = some (body, rest ++ t) := by
  fun_induction quotedBody bytes generalizing body rest with
  | case1 => cases h
  | case2 rest' =>
    cases h
    exact quotedBody_quote _
  | case3 => cases h
  | case4 => cases h
  | case5 c rest' _ _ ih =>
    obtain ⟨⟨body', left⟩, hbody, heq⟩ := Option.map_eq_some_iff.1 h
    cases heq
    rw [List.cons_append, List.cons_append, quotedBody_escaped, ih hbody]
    rfl
  | case6 b rest' hquote hnewline hbackslash ih =>
    obtain ⟨⟨body', left⟩, hbody, heq⟩ := Option.map_eq_some_iff.1 h
    cases heq
    rw [List.cons_append, quotedBody_plain hquote hnewline hbackslash, ih hbody]
    rfl

theorem fence_append (ht : Breaks t) (bytes : List UInt8) :
    TextGrammar.fence.isPrefixOf (bytes ++ t) = TextGrammar.fence.isPrefixOf bytes :=
  isPrefixOf_append ht (by decide) bytes

/-- There are two bytes more of a fence behind its first one. -/
theorem fence_drop {b : UInt8} {rest : List UInt8}
    (h : TextGrammar.fence.isPrefixOf (b :: rest) = true) (t : List UInt8) :
    (rest ++ t).drop 2 = rest.drop 2 ++ t := by
  have hle := (List.isPrefixOf_iff_prefix.1 h).length_le
  simp only [TextGrammar.fence, List.length_cons, List.length_nil] at hle
  exact List.drop_append_of_le_length (by omega)

theorem blockBody_persists (ht : Breaks t) {bytes body rest : List UInt8}
    (h : blockBody bytes = some (body, rest)) :
    blockBody (bytes ++ t) = some (body, rest ++ t) := by
  fun_induction blockBody bytes generalizing body rest with
  | case1 => cases h
  | case2 b rest' hfence =>
    cases h
    rw [List.cons_append, blockBody, ← List.cons_append, fence_append ht, if_pos hfence,
      fence_drop hfence]
  | case3 b rest' hfence ih =>
    obtain ⟨⟨body', left⟩, hbody, heq⟩ := Option.map_eq_some_iff.1 h
    cases heq
    rw [List.cons_append, blockBody, ← List.cons_append, fence_append ht, if_neg hfence, ih hbody]
    rfl

/-- A text is what is left of the bytes that spell it. -/
theorem text_persists {found found' : Option (List UInt8 × List UInt8)} {behind : List UInt8}
    {x : String} {rest : List UInt8} (h : found.bind text = some (x, rest))
    (hfound : ∀ body left, found = some (body, left) →
      left <:+ behind ∧ found' = some (body, left ++ t)) :
    rest <:+ behind ∧ found'.bind text = some (x, rest ++ t) := by
  obtain ⟨⟨body, left⟩, hbody, hx⟩ := Option.bind_eq_some_iff.1 h
  obtain ⟨hsuffix, hbody'⟩ := hfound body left hbody
  obtain ⟨x', hdecode, heq⟩ := Option.map_eq_some_iff.1 hx
  cases heq
  refine ⟨hsuffix, ?_⟩
  rw [hbody', Option.bind_some, text, hdecode]
  rfl

theorem string_persists (ht : Breaks t) : Persists t string string := by
  intro bytes x rest hbytes h
  refine .imp_left hbytes.suffix ?_
  rcases bytes with _ | ⟨b, bytes⟩
  · cases h
  rw [string] at h
  rw [List.cons_append, string, ← List.cons_append, fence_append ht]
  split at h
  · next hquote =>
    rw [if_pos hquote]
    exact text_persists h fun body left hbody ↦
      ⟨suffix_cons_of (quotedBody_suffix hbody), quotedBody_persists t hbody⟩
  · next hquote =>
    rw [if_neg hquote]
    split at h
    · next hfence =>
      rw [if_pos hfence, fence_drop hfence]
      exact text_persists h fun body left hbody ↦
        ⟨suffix_cons_of ((blockBody_suffix hbody).trans (List.drop_suffix 2 bytes)),
          blockBody_persists ht hbody⟩
    · next hfence =>
      rw [if_neg hfence]
      refine text_persists h fun body left hbody ↦ ⟨identifier_suffix hbody, ?_⟩
      rw [identifier_stable ht, hbody]
      rfl

/-! ## Fluff -/

/-- No fluff goes on with a closing bracket. -/
theorem fluffFrom_closes (ht : Closes t) : fluffFrom .between t = some t := by
  rcases htail : t with _ | ⟨b, u⟩
  · rfl
  · have hb : Fluff.isSeparator b = false ∧ b ≠ 0x2F := by
      rcases closesNothing_cases (ht b (by rw [htail]; rfl)) with rfl | rfl | rfl
      all_goals decide
    exact fluffFrom_solid hb.1 hb.2 u

/-- The reader may only be between pieces where the bytes end: what is in a line has the newline to
come, and what is in a comment has the closing mark. -/
theorem fluffFrom_persists (ht : Closes t) {mode : Fluff.Mode} {bytes rest : List UInt8}
    (hbytes : Ended bytes) (hmode : bytes = [] → mode = .between)
    (h : fluffFrom mode bytes = some rest) : fluffFrom mode (bytes ++ t) = some (rest ++ t) := by
  fun_induction fluffFrom mode bytes with
  | case1 => cases h
  | case2 mode _ =>
    cases h
    obtain rfl := hmode rfl
    exact fluffFrom_closes ht
  | case3 b rest' hseparator ih =>
    exact (fluffFrom_separator hseparator _).trans (ih hbytes.tail (fun _ ↦ rfl) h)
  | case4 => cases h
  | case5 rest' _ ih =>
    have hne : rest' ≠ [] := hbytes.tail.ne_nil (by decide)
    exact (fluffFrom_slashes _).trans (ih hbytes.tail.tail (absurd · hne) h)
  | case6 rest' _ _ ih =>
    have hne : rest' ≠ [] := hbytes.tail.ne_nil (by decide)
    exact (fluffFrom_slash_star _).trans (ih hbytes.tail.tail (absurd · hne) h)
  | case7 => cases h
  | case8 b rest' hseparator hslash =>
    cases h
    exact fluffFrom_solid (Bool.eq_false_iff.2 hseparator) hslash _
  | case9 b rest' ih =>
    refine (fluffFrom_line b _).trans (ih hbytes.tail (fun hnil ↦ ?_) h)
    by_cases hb : b = 0x0A
    · rw [if_pos hb]
    · exact absurd hnil (hbytes.ne_nil hb)
  | case10 => cases h
  | case11 depth b c rest' hopener ih =>
    obtain ⟨rfl, rfl⟩ := hopener
    have hne : rest' ≠ [] := hbytes.tail.ne_nil (by decide)
    exact (fluffFrom_opener depth _).trans (ih hbytes.tail.tail (absurd · hne) h)
  | case12 depth b c rest' _ hcloser ih =>
    obtain ⟨rfl, rfl⟩ := hcloser
    have hne : rest' ≠ [] := hbytes.tail.ne_nil (by decide)
    exact (fluffFrom_closer depth _).trans (ih hbytes.tail.tail (absurd · hne) h)
  | case13 depth b c rest' hopener hcloser ih =>
    have hne : c :: rest' ≠ [] := List.cons_ne_nil c rest'
    exact (fluffFrom_within hopener hcloser depth _).trans (ih hbytes.tail (absurd · hne) h)

theorem fluff_persists (ht : Closes t) {bytes rest : List UInt8} (hbytes : Ended bytes)
    (h : fluff bytes = some rest) : Ended rest ∧ fluff (bytes ++ t) = some (rest ++ t) :=
  ⟨hbytes.suffix (fluffFrom_suffix h), fluffFrom_persists ht hbytes (fun _ ↦ rfl) h⟩

/-! ## Collections -/

/-- Words are read up to the end of the line at most. -/
theorem Stable.persists {read : List UInt8 → Option (α × List UInt8)}
    (h : ∀ {t}, Breaks t → Stable t read) (hread : Shortens read) (ht : Breaks t) :
    Persists t read read := by
  intro bytes x rest hbytes hx
  refine ⟨?_, by rw [h ht, hx]; rfl⟩
  rcases hbytes with rfl | hlast
  · exact absurd (hread hx) (Nat.not_lt_zero _)
  · obtain ⟨before, rfl⟩ := List.getLast?_eq_some_iff.1 hlast
    have hnewline : Breaks [0x0A] := by
      intro b hb
      cases hb
      rfl
    rw [h hnewline] at hx
    obtain ⟨⟨x', left⟩, -, heq⟩ := Option.map_eq_some_iff.1 hx
    cases heq
    exact .inr List.getLast?_concat

theorem withFluff_persists (ht : Closes t) {read read' : List UInt8 → Option (α × List UInt8)}
    (h : Persists t read read') : Persists t (withFluff read) (withFluff read') := by
  intro bytes x rest hbytes hx
  obtain ⟨⟨x', behind⟩, hread, hx⟩ := Option.bind_eq_some_iff.1 hx
  obtain ⟨left, hfluff, heq⟩ := Option.map_eq_some_iff.1 hx
  cases heq
  obtain ⟨hbehind, hread'⟩ := h hbytes hread
  obtain ⟨hleft, hfluff'⟩ := fluff_persists ht hbehind hfluff
  refine ⟨hleft, ?_⟩
  rw [withFluff, hread', Option.bind_some]
  dsimp only
  rw [hfluff']
  rfl

theorem Persists.map {read read' : List UInt8 → Option (α × List UInt8)} (h : Persists t read read')
    (f : α → β) : Persists t (fun bytes ↦ (read bytes).map fun (x, rest) ↦ (f x, rest))
      fun bytes ↦ (read' bytes).map fun (x, rest) ↦ (f x, rest) := by
  intro bytes y rest hbytes hy
  obtain ⟨⟨x, left⟩, hx, heq⟩ := Option.map_eq_some_iff.1 hy
  cases heq
  obtain ⟨hleft, hx'⟩ := h hbytes hx
  refine ⟨hleft, ?_⟩
  dsimp only
  rw [hx']
  rfl

section

variable (ht : Closes t) {read read' : List UInt8 → Option (α × List UInt8)}

include ht

/-- Items up to where they are closed, which may be elsewhere when more follows. -/
theorem items_persists (h : Persists t read read') (hread' : Shortens read')
    {closer closer' : Option UInt8}
    (hcloses : ∀ bytes : List UInt8, bytes.head? = closer → (bytes ++ t).head? = closer')
    (hgoes : ∀ bytes found, bytes.head? ≠ closer → read bytes = some found →
      (bytes ++ t).head? ≠ closer')
    {rounds : Nat} {bytes rest : List UInt8} {xs : List α} (hbytes : Ended bytes)
    (hxs : items read closer rounds bytes = some (xs, rest)) {rounds' : Nat}
    (hrounds : (bytes ++ t).length < rounds') :
    ∃ behind, Ended behind ∧ behind.head? = closer ∧ behind.drop 1 = rest ∧
      items read' closer' rounds' (bytes ++ t) = some (xs, (behind ++ t).drop 1) := by
  induction rounds generalizing bytes xs rounds' with
  | zero => cases hxs
  | succ rounds ih =>
    rcases rounds' with _ | rounds'
    · exact absurd hrounds (Nat.not_lt_zero _)
    rw [items] at hxs ⊢
    by_cases hhead : bytes.head? = closer
    · rw [if_pos hhead] at hxs
      cases hxs
      rw [if_pos (hcloses bytes hhead)]
      exact ⟨bytes, hbytes, hhead, rfl, rfl⟩
    · rw [if_neg hhead] at hxs
      obtain ⟨⟨x, left⟩, hx, hxs⟩ := Option.bind_eq_some_iff.1 hxs
      obtain ⟨⟨xs', rest'⟩, hitems, heq⟩ := Option.map_eq_some_iff.1 hxs
      cases heq
      obtain ⟨found, hfound, -⟩ := Option.bind_eq_some_iff.1 hx
      obtain ⟨hleft, hx'⟩ := withFluff_persists ht h hbytes hx
      have hshort := withFluff_shortens hread' hx'
      obtain ⟨behind, hbehind, hcloser, hrest, hitems'⟩ :=
        ih hleft hitems (show (left ++ t).length < rounds' by omega)
      refine ⟨behind, hbehind, hcloser, hrest, ?_⟩
      rw [if_neg (hgoes bytes found hhead hfound), hx', Option.bind_some]
      dsimp only
      rw [hitems']
      rfl

/-- What stands between brackets. -/
theorem enclosed_persists (h : Persists t read read') (hread : Shortens read)
    (hread' : Shortens read') (c : UInt8) :
    Persists t (enclosed read (some c)) (enclosed read' (some c)) := by
  intro bytes xs rest hbytes hxs
  obtain ⟨left, hfluff, hitems⟩ := Option.bind_eq_some_iff.1 hxs
  obtain ⟨hleft, hfluff'⟩ := fluff_persists ht hbytes hfluff
  have hcloses (bytes : List UInt8) (h : bytes.head? = some c) : (bytes ++ t).head? = some c := by
    rw [List.head?_append, h]
    rfl
  have hgoes (bytes : List UInt8) (found : α × List UInt8) (hne : bytes.head? ≠ some c)
      (hfound : read bytes = some found) : (bytes ++ t).head? ≠ some c := by
    rcases bytes with _ | ⟨b, bytes⟩
    · exact absurd (hread hfound) (Nat.not_lt_zero _)
    · exact hne
  obtain ⟨behind, hbehind, hcloser, rfl, hitems'⟩ :=
    items_persists ht h hread' hcloses hgoes hleft hitems (Nat.lt_succ_self _)
  obtain ⟨rest, rfl⟩ := List.head?_eq_some_iff.1 hcloser
  refine ⟨hbehind.tail, ?_⟩
  rw [enclosed, hfluff']
  exact hitems'

/-- What stands at the top, up to the end or to where more follows. -/
theorem enclosed_reaches (h : Persists t read read') (hread : Shortens read)
    (hread' : Shortens read')
    (hstart : ∀ b, closesNothing b = false → ∀ bytes, read (b :: bytes) = none)
    {bytes rest : List UInt8} {xs : List α} (hbytes : Ended bytes)
    (hxs : enclosed read none bytes = some (xs, rest)) :
    enclosed read' t.head? (bytes ++ t) = some (xs, t.drop 1) := by
  obtain ⟨left, hfluff, hitems⟩ := Option.bind_eq_some_iff.1 hxs
  obtain ⟨hleft, hfluff'⟩ := fluff_persists ht hbytes hfluff
  have hcloses (bytes : List UInt8) (hnil : bytes.head? = none) : (bytes ++ t).head? = t.head? := by
    rw [List.head?_eq_none_iff.1 hnil]
    rfl
  have hgoes (bytes : List UInt8) (found : α × List UInt8) (_ : bytes.head? ≠ none)
      (hfound : read bytes = some found) : (bytes ++ t).head? ≠ t.head? := by
    rcases bytes with _ | ⟨b, bytes⟩
    · exact absurd (hread hfound) (Nat.not_lt_zero _)
    · intro hhead
      rw [hstart b (ht b hhead.symm) bytes] at hfound
      cases hfound
  obtain ⟨behind, -, hcloser, -, hitems'⟩ :=
    items_persists ht h hread' hcloses hgoes hleft hitems (Nat.lt_succ_self _)
  rw [List.head?_eq_none_iff.1 hcloser] at hitems'
  rw [enclosed, hfluff']
  exact hitems'

end

/-! ## Members and values -/

section

variable (ht : Closes t)

include ht

theorem heading_persists : Persists t heading heading := by
  intro bytes name rest hbytes h
  obtain ⟨⟨name', behind⟩, hname, h⟩ := Option.bind_eq_some_iff.1 h
  obtain ⟨hbehind, hname'⟩ := string_persists ht.breaks hbytes hname
  have hblank : OfWords isBlank := ofWords_of_all (by decide)
  have hsuffix := List.dropWhile_suffix isBlank (l := behind)
  rcases hleft : behind.dropWhile isBlank with _ | ⟨b, left⟩
  all_goals simp only [hleft] at h
  · cases h
  rw [hleft] at hsuffix
  rw [heading, hname', Option.bind_some]
  simp only [dropWhile_append ht.breaks hblank, hleft, List.cons_append]
  split at h
  · next hb =>
    cases h
    rw [if_pos hb]
    exact ⟨(hbehind.suffix hsuffix).tail, rfl⟩
  · cases h

section

variable {read read' : List UInt8 → Option (Content Doc × List UInt8)} (h : Persists t read read')

include h

theorem member_persists : Persists t (member read) (member read') := by
  intro bytes d rest hbytes hd
  obtain ⟨⟨name, behind⟩, hname, hd⟩ := Option.bind_eq_some_iff.1 hd
  obtain ⟨⟨content, left⟩, hvalue, heq⟩ := Option.map_eq_some_iff.1 hd
  cases heq
  obtain ⟨left', hfluff, hcontent⟩ := Option.bind_eq_some_iff.1 hvalue
  obtain ⟨hbehind, hname'⟩ := heading_persists ht hbytes hname
  obtain ⟨hleft', hfluff'⟩ := fluff_persists ht hbehind hfluff
  obtain ⟨hleft, hcontent'⟩ := h hleft' hcontent
  refine ⟨hleft, ?_⟩
  rw [member, hname', Option.bind_some]
  dsimp only
  rw [hfluff', Option.bind_some, hcontent']
  rfl

omit ht in
theorem element_persists : Persists t (element read) (element read') := h.map _

end

theorem number_persists : Persists t number number :=
  Stable.persists number_stable number_shortens ht.breaks

/-- A keyword is one whatever follows, and so an identifier that is none stays one. -/
theorem wordValue_persists :
    Persists t (fun bytes ↦ (keyword bytes).or <|
        (string bytes).map fun (text, left) ↦ (.string text, left))
      fun bytes ↦ (keyword bytes).or <|
        (string bytes).map fun (text, left) ↦ (.string text, left) := by
  intro bytes content rest hbytes h
  rcases hkeyword : keyword bytes with _ | found
  · simp only [keyword_stable ht.breaks bytes, hkeyword, Option.map_none, Option.none_or] at h ⊢
    exact (string_persists ht.breaks).map _ hbytes h
  · simp only [hkeyword, Option.some_or] at h
    cases h
    obtain ⟨hrest, hkeyword'⟩ :=
      Stable.persists keyword_stable keyword_shortens ht.breaks hbytes hkeyword
    refine ⟨hrest, ?_⟩
    simp only [hkeyword', Option.some_or]

/-- The components of a vector. -/
theorem components_persists :
    Persists t (fun bytes ↦ (enclosed number (some 0x29) bytes).bind fun (numbers, left) ↦
        (vector numbers).map (·, left))
      fun bytes ↦ (enclosed number (some 0x29) bytes).bind fun (numbers, left) ↦
        (vector numbers).map (·, left) := by
  intro bytes content rest hbytes h
  obtain ⟨⟨numbers, left⟩, hnumbers, h⟩ := Option.bind_eq_some_iff.1 h
  obtain ⟨v, hv, heq⟩ := Option.map_eq_some_iff.1 h
  cases heq
  obtain ⟨hleft, hnumbers'⟩ := enclosed_persists ht (number_persists ht) number_shortens
    number_shortens 0x29 hbytes hnumbers
  refine ⟨hleft, ?_⟩
  dsimp only
  rw [hnumbers', Option.bind_some]
  dsimp only
  rw [hv]
  rfl

/-- **Values are read the same** when more follows, and when more of them may be nested. -/
theorem value_persists {depth depth' : Nat} (hdepth : depth ≤ depth') :
    Persists t (value depth) (value depth') := by
  induction depth generalizing depth' with
  | zero =>
    intro bytes content rest _ h
    cases h
  | succ depth ih =>
    obtain ⟨depth', rfl⟩ : ∃ more, depth' = more + 1 := ⟨depth' - 1, by omega⟩
    have hinner := ih (Nat.le_of_succ_le_succ hdepth)
    have hshort (depth : Nat) := value_shortens depth
    rintro (_ | ⟨b, bytes⟩) content rest hbytes h
    · cases h
    rw [value] at h
    rw [List.cons_append, value]
    split at h
    · next hb =>
      rw [if_pos hb]
      exact (enclosed_persists ht (element_persists hinner) (element_shortens (hshort depth))
        (element_shortens (hshort depth')) 0x5D).map
          (fun docs ↦ Content.collection .array (gather docs)) hbytes.tail h
    next hb =>
    rw [if_neg hb]
    split at h
    · next hb =>
      rw [if_pos hb]
      exact (enclosed_persists ht (member_persists ht hinner) (member_shortens (hshort depth))
        (member_shortens (hshort depth')) 0x7D).map
          (fun docs ↦ Content.collection .node (gather docs)) hbytes.tail h
    next hb =>
    rw [if_neg hb]
    split at h
    · next hb =>
      rw [if_pos hb]
      exact components_persists ht hbytes.tail h
    next hb =>
    rw [if_neg hb]
    split at h
    · next hb =>
      rw [if_pos hb]
      exact number_persists ht hbytes h
    next hb =>
    rw [if_neg hb]
    split at h
    · next hb =>
      rw [if_pos hb]
      exact (string_persists ht.breaks).map _ hbytes h
    next hb =>
    rw [if_neg hb]
    split at h
    · next hb =>
      rw [if_pos hb]
      exact wordValue_persists ht hbytes h
    · cases h

omit ht in
/-- No string begins with a closing bracket. -/
theorem string_eq_none_of_closes {b : UInt8} (hb : closesNothing b = false)
    (bytes : List UInt8) : string (b :: bytes) = none := by
  rcases closesNothing_cases hb with rfl | rfl | rfl
  all_goals exact string_eq_none (by decide) (by decide) rfl bytes

/-- **A document is read the same** when a closing bracket follows, or nothing does. -/
theorem document_reaches {bytes : List UInt8} (hbytes : Ended bytes) {docs : List Doc}
    (h : document bytes = some docs) {depth : Nat} (hdepth : bytes.length < depth) :
    enclosed (member (value depth)) t.head? (bytes ++ t) = some (docs, t.drop 1) := by
  obtain ⟨⟨docs, rest⟩, hdocs, rfl⟩ := Option.map_eq_some_iff.1 h
  refine enclosed_reaches ht (member_persists ht (value_persists ht hdepth))
    (member_shortens (value_shortens _)) (member_shortens (value_shortens _)) (fun b hb bytes ↦ ?_)
    hbytes hdocs
  rw [member, heading, string_eq_none_of_closes hb]
  rfl

end

end Direct
end DocGrammar
