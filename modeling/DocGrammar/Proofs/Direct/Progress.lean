import DocGrammar.Proofs.Direct.Reader
import Mathlib.Data.List.TakeWhile

/-!
# Direct reading makes progress

Whatever is read takes a byte at least, and fluff does not put any back.  So repetitions come to an
end, and one bracket at most is opened for every byte.
-/

set_option autoImplicit false

namespace DocGrammar
namespace Direct

/-- A reader that takes a byte at least. -/
def Shortens {α : Type} (reader : List UInt8 → Option (α × List UInt8)) : Prop :=
  ∀ ⦃bytes x rest⦄, reader bytes = some (x, rest) → rest.length < bytes.length

theorem Shortens.map {α β : Type} {reader : List UInt8 → Option (α × List UInt8)}
    (h : Shortens reader) (f : α → β) :
    Shortens fun bytes ↦ (reader bytes).map fun (x, rest) ↦ (f x, rest) := by
  intro bytes y rest hread
  obtain ⟨⟨x, rest'⟩, hread, heq⟩ := Option.map_eq_some_iff.1 hread
  cases heq
  exact h hread

theorem Shortens.or {α : Type} {reader reader' : List UInt8 → Option (α × List UInt8)}
    (h : Shortens reader) (h' : Shortens reader') :
    Shortens fun bytes ↦ (reader bytes).or (reader' bytes) := by
  intro bytes x rest hread
  rcases Option.or_eq_some_iff.1 hread with hread | ⟨-, hread⟩
  · exact h hread
  · exact h' hread

/-! ## Fluff -/

theorem suffix_cons_of {b : UInt8} {rest bytes : List UInt8} (h : rest <:+ bytes) :
    rest <:+ b :: bytes :=
  h.trans (List.suffix_cons b bytes)

theorem fluffFrom_suffix {mode : Fluff.Mode} {bytes rest : List UInt8}
    (h : fluffFrom mode bytes = some rest) : rest <:+ bytes := by
  fun_induction fluffFrom mode bytes <;> grind [suffix_cons_of]

theorem fluff_length_le {bytes rest : List UInt8} (h : fluff bytes = some rest) :
    rest.length ≤ bytes.length :=
  (fluffFrom_suffix h).length_le

/-! ## Strings -/

theorem quotedBody_suffix {bytes body rest : List UInt8}
    (h : quotedBody bytes = some (body, rest)) : rest <:+ bytes := by
  fun_induction quotedBody bytes generalizing body <;>
    grind [suffix_cons_of, Option.map_eq_some_iff]

theorem blockBody_suffix {bytes body rest : List UInt8}
    (h : blockBody bytes = some (body, rest)) : rest <:+ bytes := by
  fun_induction blockBody bytes generalizing body <;>
    grind [suffix_cons_of, List.drop_suffix, Option.map_eq_some_iff]

theorem identifier_suffix {bytes token rest : List UInt8}
    (h : identifier bytes = some (token, rest)) : rest <:+ bytes := by
  rcases bytes with _ | ⟨b, bytes⟩
  · cases h
  · rw [identifier] at h
    split at h
    · cases h
      exact suffix_cons_of (List.dropWhile_suffix _)
    · cases h

theorem quotedBody_length_lt {bytes body rest : List UInt8}
    (h : quotedBody bytes = some (body, rest)) : rest.length < bytes.length := by
  fun_induction quotedBody bytes generalizing body <;> grind [Option.map_eq_some_iff]

theorem blockBody_length_lt {bytes body rest : List UInt8}
    (h : blockBody bytes = some (body, rest)) : rest.length < bytes.length := by
  fun_induction blockBody bytes generalizing body <;> grind [Option.map_eq_some_iff]

theorem text_eq_some {found : List UInt8 × List UInt8} {x : String} {rest : List UInt8}
    (h : text found = some (x, rest)) : found.2 = rest := by
  obtain ⟨body, left⟩ := found
  obtain ⟨x', -, heq⟩ := Option.map_eq_some_iff.1 h
  exact (Prod.mk.inj heq).2

theorem string_shortens : Shortens string := by
  intro bytes x rest h
  cases bytes with
  | nil => cases h
  | cons b bytes =>
    rw [string] at h
    split at h
    · obtain ⟨⟨body, left⟩, hbody, htext⟩ := Option.bind_eq_some_iff.1 h
      have := quotedBody_length_lt hbody
      have hleft : left = rest := text_eq_some htext
      grind
    · split at h
      · obtain ⟨⟨body, left⟩, hbody, htext⟩ := Option.bind_eq_some_iff.1 h
        have := blockBody_length_lt hbody
        have hleft : left = rest := text_eq_some htext
        grind
      · obtain ⟨⟨body, left⟩, hbody, htext⟩ := Option.bind_eq_some_iff.1 h
        have hleft : left = rest := text_eq_some htext
        rw [identifier] at hbody
        split at hbody
        · cases hbody
          have := List.length_dropWhile_le Byte.isIdentifier bytes
          grind
        · cases hbody

/-! ## Words -/

theorem word_shortens {spelling : String} (hspelling : Utf8.encode spelling ≠ [])
    (content : Content Doc) : Shortens (word spelling content) := by
  intro bytes x rest h
  rw [word] at h
  split at h
  · next hword =>
    have hprefix := List.isPrefixOf_iff_prefix.1 (Bool.and_eq_true_iff.1 hword).1
    have hle := hprefix.length_le
    have hpos := List.length_pos_iff.2 hspelling
    cases h
    rw [List.length_drop]
    omega
  · cases h

theorem keyword_shortens : Shortens keyword :=
  Shortens.or (word_shortens (by decide) _) <|
    Shortens.or (word_shortens (by decide) _) (word_shortens (by decide) _)

theorem sign_length_le (bytes : List UInt8) : (sign bytes).2.length ≤ bytes.length := by
  cases bytes with
  | nil => exact Nat.le_refl _
  | cons b rest =>
    rw [sign]
    split
    · exact Nat.le_succ _
    · exact Nat.le_refl _

theorem exponent_shortens : Shortens exponent := by
  intro bytes e rest h
  cases bytes with
  | nil => cases h
  | cons b bytes =>
    have hsign := sign_length_le bytes
    have hdigits := List.length_dropWhile_le Byte.isDigit (sign bytes).2
    grind [exponent]

theorem decimalToken_shortens : Shortens decimalToken := by
  intro bytes token rest h
  have hsign := sign_length_le bytes
  have hwhole := List.length_dropWhile_le Byte.isDigit (sign bytes).2
  rw [decimalToken] at h
  cases hunsigned : (sign bytes).2.dropWhile Byte.isDigit with
  | nil => simp [hunsigned] at h
  | cons b behind =>
    have hfraction := List.length_dropWhile_le Byte.isDigit behind
    rw [hunsigned, List.length_cons] at hwhole
    simp only [hunsigned] at h
    by_cases hb : b = 0x2E
    · rw [if_pos hb] at h
      split at h
      · cases h
      · split at h
        · next e left hexponent =>
          have hshort := exponent_shortens hexponent
          cases h
          omega
        · cases h
          omega
    · rw [if_neg hb] at h
      split at h
      · cases h
      · obtain ⟨⟨e, left⟩, hexponent, heq⟩ := Option.map_eq_some_iff.1 h
        have hshort := exponent_shortens hexponent
        rw [List.length_cons] at hshort
        have hleft : left = rest := (Prod.mk.inj heq).2
        subst hleft
        omega

theorem decimal_shortens : Shortens decimal := by
  intro bytes content rest h
  obtain ⟨⟨token, left⟩, htoken, h⟩ := Option.bind_eq_some_iff.1 h
  obtain ⟨numeral, -, h⟩ := Option.bind_eq_some_iff.1 h
  simp only at h
  split at h
  · cases h
    exact decimalToken_shortens htoken
  · cases h

theorem digits_length_lt {radix : Nat} {isDigit : UInt8 → Bool} {b : UInt8}
    (hb : isDigit b = true) {bytes rest : List UInt8} {n : Nat}
    (h : digits radix isDigit (b :: bytes) = some (n, rest)) :
    rest.length < (b :: bytes).length := by
  obtain ⟨m, -, heq⟩ := Option.map_eq_some_iff.1 h
  cases heq
  rw [List.dropWhile_cons_of_pos hb]
  exact Nat.lt_succ_of_le (List.length_dropWhile_le _ _)

theorem digits_length_le {radix : Nat} {isDigit : UInt8 → Bool} {bytes rest : List UInt8} {n : Nat}
    (h : digits radix isDigit bytes = some (n, rest)) : rest.length ≤ bytes.length := by
  obtain ⟨m, -, heq⟩ := Option.map_eq_some_iff.1 h
  cases heq
  exact List.length_dropWhile_le _ _

theorem magnitude_shortens : Shortens magnitude := by
  intro bytes n rest h
  rw [magnitude.eq_def] at h
  split at h
  · cases h
  · next b bytes =>
    split at h
    · split at h
      · next x c bytes' =>
        split at h
        · have := digits_length_le h
          simp only [List.length_cons] at this ⊢
          omega
        · exact Nat.lt_succ_of_le (digits_length_le h)
      · exact Nat.lt_succ_of_le (digits_length_le h)
    · split at h
      · next hb => exact digits_length_lt hb h
      · cases h

theorem integer_shortens : Shortens integer := by
  intro bytes content rest h
  rw [integer] at h
  obtain ⟨⟨n, left⟩, hmagnitude, h⟩ := Option.bind_eq_some_iff.1 h
  dsimp only at h
  rw [Option.ite_none_right_eq_some] at h
  obtain ⟨-, rfl⟩ := Prod.mk.inj (Option.some.inj h.2)
  exact Nat.lt_of_lt_of_le (magnitude_shortens hmagnitude) (sign_length_le bytes)

theorem number_shortens : Shortens number :=
  decimal_shortens.or integer_shortens

/-! ## First bytes

What something begins with is seen from its first byte. -/

theorem number_eq_none {b : UInt8} (hb : startsNumber b = false) (rest : List UInt8) :
    number (b :: rest) = none := by
  simp only [startsNumber, Bool.or_eq_false_iff, beq_eq_false_iff_ne, ne_eq] at hb
  obtain ⟨⟨hdigit, hsign⟩, hpoint⟩ := hb
  have hzero : b ≠ 0x30 := by
    rintro rfl
    exact absurd hdigit (by decide)
  have hunsigned : sign (b :: rest) = ([], b :: rest) := by simp [sign, hsign]
  have htoken : decimalToken (b :: rest) = none := by
    simp [decimalToken, hunsigned, hdigit, hpoint]
  have hmagnitude : magnitude (b :: rest) = none := by
    rw [magnitude.eq_def]
    simp [hzero, hdigit]
  rw [number, decimal, htoken, Option.bind_none, Option.none_or, integer, hunsigned]
  simp only [hmagnitude, Option.bind_none]

theorem word_eq_none {spelling : String} {content : Content Doc} {b c : UInt8}
    (hspelling : (Utf8.encode spelling).head? = some c) (hb : b ≠ c) (rest : List UInt8) :
    word spelling content (b :: rest) = none := by
  have hprefix : ¬ (Utf8.encode spelling).isPrefixOf (b :: rest) = true := by
    intro h
    obtain ⟨left, hleft⟩ := List.isPrefixOf_iff_prefix.1 h
    obtain ⟨letters, hletters⟩ := List.head?_eq_some_iff.1 hspelling
    rw [hletters] at hleft
    exact hb (List.cons.inj hleft).1.symm
  simp only [word, hprefix, Bool.false_and, Bool.false_eq_true, if_false]

/-- Keywords begin with letters. -/
theorem keyword_eq_none {b : UInt8} (hb : Byte.isIdentifierStart b = false) (rest : List UInt8) :
    keyword (b :: rest) = none := by
  have hne {c : UInt8} (hc : Byte.isIdentifierStart c = true) : b ≠ c := by
    rintro rfl
    exact Bool.false_ne_true (hb.symm.trans hc)
  rw [keyword, word_eq_none (c := 0x6E) rfl (hne rfl), word_eq_none (c := 0x74) rfl (hne rfl),
    word_eq_none (c := 0x66) rfl (hne rfl)]
  rfl

theorem string_eq_none {b : UInt8} (hquote : b ≠ 0x22) (hfence : b ≠ 0x60)
    (hb : Byte.isIdentifierStart b = false) (rest : List UInt8) : string (b :: rest) = none := by
  have hprefix : ¬ TextGrammar.fence.isPrefixOf (b :: rest) = true := by
    intro h
    obtain ⟨left, hleft⟩ := List.isPrefixOf_iff_prefix.1 h
    exact hfence (List.cons.inj hleft).1.symm
  rw [string, if_neg hquote, if_neg hprefix, identifier, hb]
  rfl

/-! ## Collections -/

theorem withFluff_shortens {α : Type} {item : List UInt8 → Option (α × List UInt8)}
    (hitem : Shortens item) : Shortens (withFluff item) := by
  intro bytes x rest h
  obtain ⟨⟨x', left⟩, hx, h⟩ := Option.bind_eq_some_iff.1 h
  obtain ⟨left', hfluff, heq⟩ := Option.map_eq_some_iff.1 h
  cases heq
  exact Nat.lt_of_le_of_lt (fluff_length_le hfluff) (hitem hx)

theorem items_length_le {α : Type} {item : List UInt8 → Option (α × List UInt8)}
    (hitem : Shortens item) (closer : Option UInt8) :
    ∀ {rounds : Nat} {bytes rest : List UInt8} {xs : List α},
      items item closer rounds bytes = some (xs, rest) → rest.length ≤ bytes.length
  | 0, _, _, _, h => by cases h
  | rounds + 1, bytes, rest, xs, h => by
    rw [items] at h
    split at h
    · cases h
      rw [List.length_drop]
      exact Nat.sub_le _ _
    · obtain ⟨⟨x, left⟩, hx, h⟩ := Option.bind_eq_some_iff.1 h
      obtain ⟨⟨xs', rest'⟩, hitems, heq⟩ := Option.map_eq_some_iff.1 h
      cases heq
      have hshort := withFluff_shortens hitem hx
      have hle := items_length_le hitem closer hitems
      omega

/-- More rounds than there are bytes make no difference. -/
theorem items_eq_of_lt {α : Type} {item : List UInt8 → Option (α × List UInt8)}
    (hitem : Shortens item) (closer : Option UInt8) :
    ∀ {rounds rounds' : Nat} {bytes : List UInt8}, bytes.length < rounds →
      bytes.length < rounds' → items item closer rounds bytes = items item closer rounds' bytes
  | 0, _, _, h, _ => absurd h (Nat.not_lt_zero _)
  | _, 0, _, _, h => absurd h (Nat.not_lt_zero _)
  | rounds + 1, rounds' + 1, bytes, h, h' => by
    rw [items, items]
    split
    · rfl
    · cases hx : withFluff item bytes with
      | none => rfl
      | some found =>
        obtain ⟨x, left⟩ := found
        have hshort := withFluff_shortens hitem hx
        have hrest : items item closer rounds left = items item closer rounds' left :=
          items_eq_of_lt hitem closer (by omega) (by omega)
        simp only [Option.bind_some, hrest]

theorem enclosed_length_le {α : Type} {item : List UInt8 → Option (α × List UInt8)}
    (hitem : Shortens item) {closer : Option UInt8} {bytes rest : List UInt8} {xs : List α}
    (h : enclosed item closer bytes = some (xs, rest)) : rest.length ≤ bytes.length := by
  obtain ⟨left, hfluff, hitems⟩ := Option.bind_eq_some_iff.1 h
  exact Nat.le_trans (items_length_le hitem closer hitems) (fluff_length_le hfluff)

theorem heading_shortens : Shortens heading := by
  intro bytes name rest h
  obtain ⟨⟨name', behind⟩, hname, h⟩ := Option.bind_eq_some_iff.1 h
  have hshort := string_shortens hname
  have hblank := List.length_dropWhile_le isBlank behind
  cases hbehind : behind.dropWhile isBlank with
  | nil => simp [hbehind] at h
  | cons b bytes' =>
    rw [hbehind, List.length_cons] at hblank
    simp only [hbehind, Option.ite_none_right_eq_some] at h
    have hrest : bytes' = rest := (Prod.mk.inj (Option.some.inj h.2)).2
    subst hrest
    omega

theorem member_shortens {value : List UInt8 → Option (Content Doc × List UInt8)}
    (hvalue : Shortens value) : Shortens (member value) := by
  intro bytes d rest h
  obtain ⟨⟨name, behind⟩, hname, h⟩ := Option.bind_eq_some_iff.1 h
  obtain ⟨⟨content, left⟩, h, heq⟩ := Option.map_eq_some_iff.1 h
  obtain ⟨left', hfluff, hcontent⟩ := Option.bind_eq_some_iff.1 h
  have hshort := heading_shortens hname
  have hle := fluff_length_le hfluff
  have hlt := hvalue hcontent
  have hleft : left = rest := (Prod.mk.inj heq).2
  subst hleft
  omega

theorem element_shortens {value : List UInt8 → Option (Content Doc × List UInt8)}
    (hvalue : Shortens value) : Shortens (element value) :=
  hvalue.map _

theorem value_shortens : ∀ depth, Shortens (value depth)
  | 0 => nofun
  | depth + 1 => by
    have hdepth : Shortens (value depth) := value_shortens depth
    intro bytes content rest h
    cases bytes with
    | nil => cases h
    | cons b bytes =>
      rw [value] at h
      split at h
      · obtain ⟨⟨docs, left⟩, hdocs, heq⟩ := Option.map_eq_some_iff.1 h
        obtain ⟨-, rfl⟩ := Prod.mk.inj heq
        exact Nat.lt_succ_of_le (enclosed_length_le (element_shortens hdepth) hdocs)
      split at h
      · obtain ⟨⟨docs, left⟩, hdocs, heq⟩ := Option.map_eq_some_iff.1 h
        obtain ⟨-, rfl⟩ := Prod.mk.inj heq
        exact Nat.lt_succ_of_le (enclosed_length_le (member_shortens hdepth) hdocs)
      split at h
      · obtain ⟨⟨numbers, left⟩, hnumbers, h⟩ := Option.bind_eq_some_iff.1 h
        obtain ⟨v, -, heq⟩ := Option.map_eq_some_iff.1 h
        obtain ⟨-, rfl⟩ := Prod.mk.inj heq
        exact Nat.lt_succ_of_le (enclosed_length_le number_shortens hnumbers)
      split at h
      · exact number_shortens h
      split at h
      · exact string_shortens.map _ h
      split at h
      · exact keyword_shortens.or (string_shortens.map _) h
      · cases h

end Direct
end DocGrammar
