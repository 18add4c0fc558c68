import DocGrammar.Proofs.Number.Places
import DocGrammar.Proofs.Number.Twice
import DocGrammar.Proofs.Printing.Spelling

/-!
# Printed numbers are read back

The printer lays a number out in one of four ways: with a fixed number of places, or as its shortest
digits with a point among them, behind them, or in scientific notation.  For each layout this file
names the parts of its spelling, and finds that they stand for the digits and the power of ten that
were laid out (`IsLayout`).

So a number is read as the double-precision number nearest to the decimal that was printed.  For a
decimal that is the number it has settled to, and for a component of a vector its first rounding.
-/

set_option autoImplicit false

namespace DocGrammar

/-! ## Rounding a spelling -/

/-- The number that a numeral stands for, without its sign. -/
def Numeral.absolute (n : Numeral) : Decimal := ⟨n.digits, n.exponent⟩

/-- The limits on the exponent of a numeral are far away. -/
theorem Numeral.round_eq {f : Format} {n : Numeral} (h : n.exponent.natAbs ≤ 2 ^ f.exponentBits) :
    n.round f = .ofRatio f n.negative n.absolute.num n.absolute.den := by
  obtain ⟨negative, digits, exponent⟩ := n
  rw [round, Nat.one_shiftLeft]
  cases exponent with
  | ofNat e =>
    show Binary.ofRatio f negative (digits * 10 ^ min e (2 ^ f.exponentBits)) 1 = _
    have hle : e ≤ 2 ^ f.exponentBits := h
    have hden : (-(e : Int)).toNat = 0 := by omega
    rw [Nat.min_eq_left hle, absolute, Decimal.num, Decimal.den]
    show _ = Binary.ofRatio f negative _ (10 ^ (-(e : Int)).toNat)
    rw [hden]
    rfl
  | negSucc e =>
    show Binary.ofRatio f negative digits
      (10 ^ min (e + 1) (2 ^ f.exponentBits + digits.log2)) = _
    have hmin : e + 1 ≤ 2 ^ f.exponentBits + digits.log2 := Nat.le_trans h (Nat.le_add_right _ _)
    rw [Nat.min_eq_left hmin, absolute, Decimal.num, Decimal.den]
    dsimp only
    rw [Int.neg_negSucc]
    show _ = Binary.ofRatio f negative (digits * 1) _
    rw [Nat.mul_one]
    rfl

/-- Zeros behind the digits are made up for by the exponent. -/
theorem Decimal.num_mul_den (d : Decimal) (k : Nat) :
    (Decimal.mk (d.digits * 10 ^ k) (d.exponent - k)).num * d.den =
      d.num * (Decimal.mk (d.digits * 10 ^ k) (d.exponent - k)).den := by
  obtain ⟨digits, exponent⟩ := d
  have hpow : 10 ^ k * 10 ^ (exponent - k).toNat * 10 ^ (-exponent).toNat =
      10 ^ exponent.toNat * 10 ^ (-(exponent - k)).toNat := by
    rw [← Nat.pow_add, ← Nat.pow_add, ← Nat.pow_add]
    congr 1
    omega
  rw [num, den, num, den]
  dsimp only
  linear_combination digits * hpow

/-! ## The layouts -/

/-- A spelling of digits as they are laid out by the printer.  Zeros between the digits and the
point make the number a larger one with a smaller exponent. -/
def IsLayout (negative : Bool) (d : Decimal) (letters : List Char) : Prop :=
  ∃ (s : Spelling) (k : Nat), s.letters = minus negative ++ letters ∧ s.IsDecimal ∧
    s.numeral = ⟨negative, d.digits * 10 ^ k, d.exponent - k⟩ ∧ (k = 0 ∨ d.exponent - k = -1)

section

variable {negative : Bool} {n : Nat} {digits : List Char}

/-- Digits with a point among them. -/
theorem isLayout_point {d : Decimal} {whole fraction : List Char} (k : Nat)
    (hrun : IsRun (d.digits * 10 ^ k) (whole ++ fraction)) (hwhole : whole ≠ [])
    (hfraction : fraction ≠ []) (hexponent : d.exponent - k = -fraction.length)
    (hk : k = 0 ∨ d.exponent - k = -1) : IsLayout negative d (whole ++ '.' :: fraction) := by
  have hdigit := List.forall_mem_append.1 hrun.isDigit
  refine ⟨⟨negative, whole, fraction, none⟩, k, ?_,
    ⟨hdigit.1, hwhole, hdigit.2, .inl hfraction⟩, ?_, hk⟩
  · rw [Spelling.letters, Spelling.pointed, if_neg hfraction, Spelling.power, List.append_nil]
  · rw [Spelling.numeral_eq hrun, hexponent, Option.getD_none, Int.zero_sub]

/-- A fixed number of places. -/
theorem isLayout_places (negative : Bool) {places : Nat} (hplaces : 0 < places) (n : Nat) :
    IsLayout negative ⟨n, -places⟩ (Binary.placesText places n) := by
  have hunit : 0 < 10 ^ places := Nat.pow_pos (by decide)
  have hlength := padded_length hplaces (Nat.mod_lt n hunit)
  have hfraction : IsRun (n % 10 ^ places) (Digits.padded places (n % 10 ^ places)) := .padded
  have hvalue := (IsRun.text (n / 10 ^ places)).append hfraction
  rw [hlength, Nat.div_add_mod'] at hvalue
  refine isLayout_point 0 (by rwa [Nat.pow_zero, Nat.mul_one]) (text_ne_nil _) ?_ ?_ (.inl rfl)
  · rw [← List.length_pos_iff]
    exact hplaces.trans_eq hlength.symm
  · show (-places : Int) - 0 = -(Digits.padded places (n % 10 ^ places)).length
    rw [hlength, Int.sub_zero]

/-- The point before the digits, with zeros in between or without. -/
theorem isLayout_before (hrun : IsRun n digits) (hne : digits ≠ []) (zeros : Nat) :
    IsLayout negative ⟨n, -(zeros + digits.length : Nat)⟩
      ('0' :: '.' :: (List.replicate zeros '0' ++ digits)) := by
  have hzero : IsRun 0 ['0'] := .text 0
  have hvalue := hzero.append ((IsRun.zeros zeros).append hrun)
  rw [Nat.zero_mul, Nat.zero_mul, Nat.zero_add, Nat.zero_add] at hvalue
  refine isLayout_point 0 (by rwa [Nat.pow_zero, Nat.mul_one]) (List.cons_ne_nil '0' [])
    (fun h ↦ hne (List.append_eq_nil_iff.1 h).2) ?_ (.inl rfl)
  rw [List.length_append, List.length_replicate]
  exact Int.sub_zero _

/-- The point among the digits. -/
theorem isLayout_among (hrun : IsRun n digits) {whole : Nat} (hpos : 0 < whole)
    (hlt : whole < digits.length) :
    IsLayout negative ⟨n, whole - digits.length⟩
      (digits.take whole ++ '.' :: digits.drop whole) := by
  have hlength : (digits.drop whole).length = digits.length - whole := List.length_drop
  have hvalue : IsRun (n * 10 ^ 0) (digits.take whole ++ digits.drop whole) := by
    rwa [List.take_append_drop, Nat.pow_zero, Nat.mul_one]
  refine isLayout_point 0 hvalue ?_ ?_ ?_ (.inl rfl)
  · rw [← List.length_pos_iff, List.length_take]
    omega
  · rw [← List.length_pos_iff, hlength]
    omega
  · show (whole : Int) - digits.length - 0 = -(digits.drop whole).length
    rw [hlength]
    omega

/-- The point behind the digits, with zeros in between or without. -/
theorem isLayout_behind (hrun : IsRun n digits) (hne : digits ≠ []) (zeros : Nat) :
    IsLayout negative ⟨n, zeros⟩ (digits ++ List.replicate zeros '0' ++ ['.', '0']) := by
  have hzero : IsRun 0 ['0'] := .text 0
  have hvalue := (hrun.append (IsRun.zeros zeros)).append hzero
  have hexponent : (zeros : Int) - (zeros + 1 : Nat) = -1 := by omega
  rw [List.length_replicate, Nat.add_zero, Nat.add_zero, Nat.mul_assoc] at hvalue
  exact isLayout_point (zeros + 1) (by rwa [Nat.pow_succ])
    (fun h ↦ hne (List.append_eq_nil_iff.1 h).1) (List.cons_ne_nil _ _) hexponent (.inr hexponent)

/-- Scientific notation. -/
theorem isLayout_scientific (hrun : IsRun n digits) (hne : digits ≠ []) (exponent : Int) :
    IsLayout negative ⟨n, exponent⟩
      (Decimal.scientific digits (exponent + digits.length - 1)) := by
  obtain ⟨first, rest, rfl⟩ := List.exists_cons_of_ne_nil hne
  obtain ⟨hfirst, hrest⟩ := List.forall_mem_cons.1 hrun.isDigit
  refine ⟨⟨negative, [first], rest, some (exponent + (first :: rest).length - 1)⟩, 0, ?_,
    ⟨List.forall_mem_singleton.2 hfirst, List.cons_ne_nil _ _, hrest,
      .inr (Option.some_ne_none _)⟩, ?_, .inl rfl⟩
  · rw [Spelling.letters, Spelling.pointed]
    cases rest with
    | nil => rfl
    | cons second rest => rfl
  · rw [Spelling.numeral_eq hrun, Nat.pow_zero, Nat.mul_one]
    congr 1
    simp
    omega

/-- **Shortest digits**, wherever the point is. -/
theorem isLayout_text (negative : Bool) (d : Decimal) : IsLayout negative d d.text := by
  obtain ⟨n, exponent⟩ := d
  have hrun := IsRun.text n
  have hne := text_ne_nil n
  rw [Decimal.text]
  dsimp only
  generalize Digits.text n = digits at hrun hne
  split
  · generalize hwhole : exponent + (digits.length : Int) - 1 + 1 = whole
    rw [Decimal.positional.eq_def]
    split
    · have hexponent : exponent = -((0 + digits.length : Nat) : Int) := by
        simp at hwhole ⊢
        omega
      rw [hexponent]
      exact isLayout_before hrun hne 0
    · next before =>
      have hexponent : exponent = -((before + 1 + digits.length : Nat) : Int) := by
        rw [Int.negSucc_eq] at hwhole
        omega
      rw [hexponent]
      exact isLayout_before hrun hne (before + 1)
    · next whole hpos =>
      have hwhole : exponent + digits.length = whole := by
        rw [← Int.ofNat_eq_natCast whole]
        omega
      split
      · have hexponent : exponent = (whole - digits.length : Nat) := by omega
        rw [hexponent]
        exact isLayout_behind hrun hne _
      · have hexponent : exponent = whole - digits.length := by omega
        rw [hexponent]
        refine isLayout_among hrun (Nat.pos_of_ne_zero fun hzero ↦ ?_) (by omega)
        exact hpos (hzero ▸ rfl)
  · exact isLayout_scientific hrun hne exponent

end

/-! ## Numbers -/

namespace Direct

/-- **Numbers.**  What is laid out is read as the double-precision number nearest to it. -/
theorem number_layout {negative : Bool} {d : Decimal} {letters : List Char}
    (h : IsLayout negative d letters) (hexponent : d.exponent.natAbs ≤ 2048)
    (hfinite : (Binary.ofRatio .binary64 negative d.num d.den).isFinite = true)
    {rest : List UInt8} (hrest : isDelimited rest = true) :
    number (Utf8.encode (String.ofList (minus negative ++ letters)) ++ rest) =
      some (.decimal (.ofRatio .binary64 negative d.num d.den), rest) := by
  obtain ⟨s, k, hletters, hdecimal, hnumeral, hk⟩ := h
  have hround : s.numeral.round .binary64 = .ofRatio .binary64 negative d.num d.den := by
    have hlimit : s.numeral.exponent.natAbs ≤ 2 ^ Format.binary64.exponentBits := by
      rw [hnumeral]
      show (d.exponent - k).natAbs ≤ 2048
      omega
    rw [Numeral.round_eq hlimit, hnumeral]
    exact Binary.ofRatio_congr _ (Decimal.den_pos _) (Decimal.den_pos _) (d.num_mul_den k)
  rw [← hround] at hfinite ⊢
  rw [← hletters, Utf8.encode_ascii (Spelling.letters_ascii hdecimal), number,
    decimal_spelling hdecimal hrest hfinite]
  rfl

/-- What is laid out begins like a number. -/
theorem layout_begins {negative : Bool} {d : Decimal} {letters : List Char}
    (h : IsLayout negative d letters) :
    ∃ b rest, Utf8.encode (String.ofList (minus negative ++ letters)) = b :: rest ∧
      startsNumber b = true := by
  obtain ⟨s, k, hletters, hdecimal, -⟩ := h
  obtain ⟨first, whole, hwhole⟩ := List.exists_cons_of_ne_nil hdecimal.whole_ne_nil
  have hfirst := hdecimal.whole_isDigit first (hwhole ▸ List.mem_cons_self)
  rw [← hletters, Utf8.encode_ascii (Spelling.letters_ascii hdecimal), Spelling.letters, hwhole]
  cases s.negative with
  | true => exact ⟨0x2D, _, rfl, rfl⟩
  | false =>
    refine ⟨Utf8.byte first, _, rfl, ?_⟩
    rw [startsNumber, Utf8.byte_isDigit hfirst]
    rfl

/-! ## Decimals -/

variable {x : Binary64}

theorem toPlaces_layout (hfinite : x.isFinite = true) :
    ∃ letters, x.toPlaces Doc.decimalPlaces = minus x.negative ++ letters ∧
      IsLayout x.negative ⟨x.inPlaces 7, -7⟩ letters :=
  ⟨_, x.toPlaces_of_isFinite 7 hfinite, isLayout_places _ (by decide) _⟩

/-- **Decimals.**  A decimal is read as the number it settles to. -/
theorem number_toPlaces (hfinite : x.isFinite = true) (rest : List UInt8)
    (hrest : isDelimited rest = true) :
    number (Utf8.encode (String.ofList (x.toPlaces Doc.decimalPlaces)) ++ rest) =
      some (.decimal (x.settled Doc.decimalPlaces), rest) := by
  obtain ⟨letters, hletters, hlayout⟩ := toPlaces_layout hfinite
  have hsettled : Binary.ofRatio .binary64 x.negative (Decimal.mk (x.inPlaces 7) (-7)).num
      (Decimal.mk (x.inPlaces 7) (-7)).den = x.settled Doc.decimalPlaces := by
    show Binary.ofRatio _ _ (_ * 1) _ = _
    rw [Nat.mul_one]
    rfl
  have hexponent : (-7 : Int).natAbs ≤ 2048 := by decide
  have hnumber := number_layout hlayout hexponent
    (hsettled ▸ (Binary.settled_seven x hfinite).1) hrest
  rwa [← hletters, hsettled] at hnumber

/-! ## Components -/

variable {y : Binary32}

theorem toShortest_of_isFinite (hfinite : y.isFinite = true) :
    y.toShortest = minus y.negative ++
      if y.magnitude = 0 then "0.0".toList else y.shortest.text := by
  rw [Binary.toShortest, Binary.isNaN_of_isFinite hfinite, Binary.isInfinite_of_isFinite hfinite,
    if_neg Bool.false_ne_true, if_neg Bool.false_ne_true]
  cases y.negative with
  | false => rfl
  | true => rfl

/-- Zero has no shortest digits, but what is printed of it is as good. -/
theorem doubled_zero (hzero : y.magnitude = 0) :
    Binary.ofRatio .binary64 y.negative (Decimal.mk 0 (-1)).num (Decimal.mk 0 (-1)).den =
      y.doubled := by
  have hboth : ∀ negative, Binary.ofRatio .binary64 negative (Decimal.mk 0 (-1)).num
      (Decimal.mk 0 (-1)).den = Binary.doubled ⟨negative, 0, by decide⟩ := by
    decide
  obtain ⟨negative, magnitude, hlt⟩ := y
  cases hzero
  exact hboth negative

theorem toShortest_layout (hfinite : y.isFinite = true) :
    ∃ (letters : List Char) (d : Decimal), y.toShortest = minus y.negative ++ letters ∧
      IsLayout y.negative d letters ∧ d.exponent.natAbs ≤ 2048 ∧
        Binary.ofRatio .binary64 y.negative d.num d.den = y.doubled := by
  have htext := toShortest_of_isFinite hfinite
  by_cases hzero : y.magnitude = 0
  · rw [if_pos hzero] at htext
    have hrun : IsRun 0 ['0'] := .text 0
    exact ⟨_, ⟨0, -1⟩, htext, isLayout_before hrun (List.cons_ne_nil _ _) 0, by decide,
      doubled_zero hzero⟩
  · rw [if_neg hzero] at htext
    refine ⟨_, y.shortest, htext, isLayout_text _ _, ?_, rfl⟩
    obtain ⟨k, hk, digits, -, hshortest⟩ := y.shortest_eq
    have hk : k ≤ 192 := hk
    have hscale : Format.binary32.scale = 149 := rfl
    rw [hshortest]
    show ((k : Int) - Format.binary32.scale).natAbs ≤ 2048
    omega

/-- A component is read as its first rounding. -/
theorem number_toShortest (hfinite : y.isFinite = true) {rest : List UInt8}
    (hrest : isDelimited rest = true) :
    number (Utf8.encode (String.ofList y.toShortest) ++ rest) =
      some (.decimal y.doubled, rest) := by
  obtain ⟨letters, d, htext, hlayout, hexponent, hdoubled⟩ := toShortest_layout hfinite
  have hnumber := number_layout hlayout hexponent
    (hdoubled ▸ (Binary.doubled_bounds hfinite).1) hrest
  rwa [← htext, hdoubled] at hnumber

/-- What begins like a number is neither fluff nor a closing parenthesis. -/
theorem startsNumber_solid {b : UInt8} (h : startsNumber b = true) :
    Fluff.isSeparator b = false ∧ b ≠ 0x2F ∧ b ≠ 0x29 :=
  Byte.forall_of_lt
    (P := fun b ↦ startsNumber b = true → Fluff.isSeparator b = false ∧ b ≠ 0x2F ∧ b ≠ 0x29)
    (by decide +kernel) b h

/-- A component before others or before the end of the vector. -/
theorem enclosed_component (hfinite : y.isFinite = true) {more left : List UInt8}
    {numbers : List (Content Doc)} (hdelimited : isDelimited more = true)
    (hmore : enclosed number (some 0x29) more = some (numbers, left)) :
    enclosed number (some 0x29) (Utf8.encode (String.ofList y.toShortest) ++ more) =
      some (.decimal y.doubled :: numbers, left) := by
  obtain ⟨letters, d, htext, hlayout, -⟩ := toShortest_layout hfinite
  obtain ⟨b, rest, hbytes, hb⟩ := layout_begins hlayout
  rw [← htext] at hbytes
  obtain ⟨hseparator, hslash, hcloser⟩ := startsNumber_solid hb
  refine enclosed_cons number_shortens ?_ ?_ (number_toShortest hfinite hdelimited) hmore
  · rw [hbytes]
    rintro c ⟨⟩
    exact ⟨hseparator, hslash⟩
  · rw [hbytes]
    exact fun h ↦ hcloser (Option.some.inj h)

/-! ## Vectors -/

theorem enclosed_vectorText (rest : List UInt8) : ∀ components : List Binary32,
    components.all Binary.isFinite = true →
      enclosed number (some 0x29) (Utf8.encode
        (" ".intercalate (components.map fun x ↦ String.ofList x.toShortest)) ++ 0x29 :: rest) =
          some (components.map fun x ↦ .decimal x.doubled, rest)
  | [], _ => enclosed_nil (by rintro b ⟨⟩; exact ⟨rfl, by decide⟩)
  | [x], h => by
    rw [List.all_cons, Bool.and_eq_true] at h
    exact enclosed_component h.1 rfl (enclosed_vectorText rest [] rfl)
  | x :: y :: components, h => by
    rw [List.all_cons, Bool.and_eq_true] at h
    have hspace : ∀ b ∈ ([0x20] : List UInt8), Fluff.isSeparator b = true :=
      List.forall_mem_singleton.2 rfl
    have hmore := enclosed_vectorText rest (y :: components) h.2
    rw [← enclosed_append hspace] at hmore
    rw [List.map_cons, List.map_cons, String.intercalate_cons_cons, Utf8.encode_append,
      Utf8.encode_append, List.append_assoc, List.append_assoc]
    exact enclosed_component h.1 rfl hmore

end Direct

/-- A vector after printing and reading: every component is rounded twice. -/
def Vec.roundedTwice (v : Vec) : Vec where
  components := v.components.map Binary.roundedTwice
  one_le_length := by
    rw [List.length_map]
    exact v.one_le_length
  length_le_four := by
    rw [List.length_map]
    exact v.length_le_four

namespace Direct

/-- Numbers in double precision as a vector. -/
theorem vector_doubled {v : Vec} (hfinite : v.components.all Binary.isFinite = true) :
    vector (v.components.map fun x ↦ .decimal x.doubled) = some (.vector v.roundedTwice) := by
  have hcomponents : (v.components.map fun x ↦ Content.decimal x.doubled).map component =
      v.roundedTwice.components := by
    rw [List.map_map]
    rfl
  have hrounded : v.roundedTwice.components.all Binary.isFinite = true := by
    rw [List.all_eq_true] at hfinite ⊢
    intro y hy
    obtain ⟨x, hx, rfl⟩ := List.mem_map.1 hy
    exact Binary.isFinite_roundedTwice (hfinite x hx)
  have hvec : Vec.ofList? v.roundedTwice.components = some v.roundedTwice :=
    dif_pos ⟨v.roundedTwice.one_le_length, v.roundedTwice.length_le_four⟩
  rw [vector, hcomponents, hvec, Option.bind_some, if_pos hrounded]

/-- **Vectors.**  A vector is read back with every component rounded twice. -/
theorem value_vectorText {v : Vec} (hfinite : v.components.all Binary.isFinite = true) (n : Nat)
    (rest : List UInt8) :
    value (n + 1) (Utf8.encode (Doc.vectorText v.components) ++ rest) =
      some (.vector v.roundedTwice, rest) := by
  have henclosed := enclosed_vectorText rest v.components hfinite
  rw [Doc.vectorText, Utf8.encode_append, Utf8.encode_append, List.append_assoc,
    List.append_assoc]
  show value (n + 1) (0x28 :: (_ ++ ([0x29] ++ rest))) = _
  rw [value, if_neg (by decide), if_neg (by decide), if_pos rfl, List.singleton_append, henclosed,
    Option.bind_some]
  dsimp only
  rw [vector_doubled hfinite]
  rfl

end Direct
end DocGrammar
