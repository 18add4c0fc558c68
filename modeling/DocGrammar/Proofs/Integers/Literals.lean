import DocGrammar.Proofs.Direct.Places
import DocGrammar.Proofs.Integers.Atoms
import DocGrammar.Proofs.Reading

/-!
# Integer literals in documents

Where the rules for integers go wrong, with an overlong hexadecimal number, the grammar of documents
does not: the `0` that they would stop at runs on into the `x`.  So a literal that does not run on
is read for the number that it stands for, if that has 64 bits.  Otherwise it is no value at all,
and a document with the literal where a value has to stand is rejected
(`Doc.literal_exact_or_rejected`).
-/

set_option autoImplicit false

namespace DocGrammar

/-- A magnitude of a radix is written by a mark and digits; in decimal it does not begin with a
zero. -/
structure Radix.Spells (r : Radix) (mark run : List UInt8) : Prop where
  /-- The mark is one of the radix. -/
  mark_mem : mark ∈ r.marks
  /-- Behind it stand only digits, -/
  isDigit : ∀ b ∈ run, r.isDigit b = true
  /-- and one at least, but for the octal zero. -/
  nonempty : run ≠ [] ∨ r = .octal
  /-- What begins with a zero is not decimal. -/
  head_ne : r = .decimal → run.head? ≠ some 0x30

/-- A word does not run on into what is left. -/
def WordEnds (rest : List UInt8) : Prop :=
  ∀ b ∈ rest.head?, Byte.isIdentifier b = false ∧ b ≠ 0x2E

/-- Bytes are an integer literal, and stand for a number. -/
def Literal (token : List UInt8) (number : Int) : Prop :=
  ∃ (sign : Sign) (r : Radix) (mark run : List UInt8), r.Spells mark run ∧
    token = sign.bytes ++ (mark ++ run) ∧ number = sign.apply (r.worth run)

theorem WordEnds.isDelimited {rest : List UInt8} (h : WordEnds rest) :
    Direct.isDelimited rest = true := by
  cases rest with
  | nil => rfl
  | cons b rest =>
    obtain ⟨hidentifier, hpoint⟩ := h b rfl
    simp [Direct.isDelimited, hidentifier, hpoint]

namespace Radix

theorem isIdentifier_of_isDigit (r : Radix) {b : UInt8} (hb : r.isDigit b = true) :
    Byte.isIdentifier b = true := by
  have hall : ∀ b, r.isDigit b = true → Byte.isIdentifier b = true := by
    refine Byte.forall_of_lt ?_
    cases r <;> decide +kernel
  exact hall b hb

namespace Spells

variable {r : Radix} {mark run rest : List UInt8}

/-- A literal that does not run on is a magnitude of its radix. -/
theorem writes (h : r.Spells mark run) (hrest : WordEnds rest) :
    r.Writes (mark ++ (run ++ rest)) mark run rest where
  bytes_eq := rfl
  mark_mem := h.mark_mem
  isDigit := h.isDigit
  maximal b hb := by
    exact Bool.eq_false_iff.2 fun hdigit ↦
      Bool.false_ne_true ((hrest b hb).1.symm.trans (r.isIdentifier_of_isDigit hdigit))
  nonempty := h.nonempty

/-- It begins with a digit. -/
theorem exists_digit (h : r.Spells mark run) :
    ∃ b left, mark ++ run = b :: left ∧ Byte.isDigit b = true := by
  obtain ⟨hmark, hdigit, hnonempty, -⟩ := h
  cases r with
  | decimal =>
    obtain rfl := List.mem_singleton.1 hmark
    obtain ⟨b, run, rfl⟩ := List.exists_cons_of_ne_nil (hnonempty.resolve_right (by decide))
    exact ⟨b, run, rfl, hdigit b List.mem_cons_self⟩
  | octal =>
    obtain rfl := List.mem_singleton.1 hmark
    exact ⟨0x30, run, rfl, by decide⟩
  | hexadecimal =>
    obtain ⟨x, -, rfl⟩ := mem_marks_hexadecimal.1 hmark
    exact ⟨0x30, x :: run, rfl, by decide⟩

/-- The direct reader finds the magnitude. -/
theorem magnitude_eq (h : r.Spells mark run) (hrest : WordEnds rest) :
    Direct.magnitude (mark ++ (run ++ rest)) = some (r.worth run, rest) := by
  obtain ⟨htake, hdrop⟩ := takeWhile_run h.isDigit (h.writes hrest).maximal
  have hdigits : Direct.digits r.base r.isDigit (run ++ rest) = some (r.worth run, rest) := by
    rw [Direct.digits, htake, hdrop, r.value?_eq h.isDigit, Option.map_some]
  obtain ⟨hmark, hdigit, hnonempty, hhead⟩ := h
  cases r with
  | decimal =>
    obtain rfl := List.mem_singleton.1 hmark
    obtain ⟨b, run, rfl⟩ := List.exists_cons_of_ne_nil (hnonempty.resolve_right (by decide))
    have hb : b ≠ 0x30 := fun hb ↦ hhead rfl (congrArg some hb)
    have hfirst : Byte.isDigit b = true := hdigit b List.mem_cons_self
    rw [List.nil_append, List.cons_append, Direct.magnitude.eq_def]
    simp only [if_neg hb, if_pos hfirst]
    exact hdigits
  | octal =>
    obtain rfl := List.mem_singleton.1 hmark
    refine (Direct.magnitude_octal fun x c left hleft hx ↦ ?_).trans hdigits
    -- what stands behind the zero is a digit, or else the literal does not run on
    cases run with
    | nil =>
      obtain rfl : rest = x :: c :: left := hleft
      have hidentifier := (hrest x rfl).1
      rcases hx with rfl | rfl <;> exact absurd hidentifier (by decide)
    | cons d run =>
      obtain rfl : d = x := (List.cons.inj hleft).1
      have hoctal := hdigit d List.mem_cons_self
      rcases hx with rfl | rfl <;> exact absurd hoctal (by decide)
  | hexadecimal =>
    obtain ⟨x, hx, rfl⟩ := mem_marks_hexadecimal.1 hmark
    obtain ⟨c, run, rfl⟩ := List.exists_cons_of_ne_nil (hnonempty.resolve_right (by decide))
    exact (Direct.magnitude_hexadecimal hx (hdigit c List.mem_cons_self) _).trans hdigits

/-- Behind the decimal digits that a literal begins with, neither a fraction nor an exponent
follows. -/
theorem head_dropWhile (h : r.Spells mark run) (hrest : WordEnds rest) :
    ∀ b ∈ ((mark ++ (run ++ rest)).dropWhile Byte.isDigit).head?,
      b ≠ 0x2E ∧ b ≠ 0x65 ∧ b ≠ 0x45 := by
  have hbehind : ∀ b ∈ rest.head?, b ≠ 0x2E ∧ b ≠ 0x65 ∧ b ≠ 0x45 := by
    intro b hb
    obtain ⟨hidentifier, hpoint⟩ := hrest b hb
    refine ⟨hpoint, ?_, ?_⟩ <;>
    · rintro rfl
      exact absurd hidentifier (by decide)
  have hskip {digits : List UInt8} (hdigits : ∀ b ∈ digits, Byte.isDigit b = true) :
      (digits ++ rest).dropWhile Byte.isDigit = rest :=
    (takeWhile_run (r := decimal) hdigits fun b hb ↦ Bool.eq_false_iff.2 fun hdigit ↦
      Bool.false_ne_true
        ((hrest b hb).1.symm.trans (decimal.isIdentifier_of_isDigit hdigit))).2
  obtain ⟨hmark, hdigit, -, -⟩ := h
  cases r with
  | decimal =>
    obtain rfl := List.mem_singleton.1 hmark
    rw [List.nil_append, hskip hdigit]
    exact hbehind
  | octal =>
    obtain rfl := List.mem_singleton.1 hmark
    rw [← List.append_assoc, hskip fun b hb ↦ ?_]
    · exact hbehind
    · rcases List.mem_append.1 hb with hb | hb
      · rw [List.mem_singleton.1 hb]
        rfl
      · have hoctal : ∀ b, octal.isDigit b = true → decimal.isDigit b = true :=
          Byte.forall_of_lt (by decide +kernel)
        exact hoctal b (hdigit b hb)
  | hexadecimal =>
    obtain ⟨x, hx, rfl⟩ := mem_marks_hexadecimal.1 hmark
    have hstop : ([0x30, x] ++ (run ++ rest)).dropWhile Byte.isDigit = x :: (run ++ rest) := by
      rcases hx with rfl | rfl <;> rfl
    rw [hstop]
    rintro b hb
    obtain rfl : x = b := Option.some.inj hb
    rcases hx with rfl | rfl <;> decide

end Spells
end Radix

/-! ## What the direct reader makes of literals -/

namespace Direct

/-- A sign or none and digits, and then neither a point nor an exponent, are no decimal. -/
theorem decimalToken_eq_none {bytes sign unsigned : List UInt8}
    (hsign : Direct.sign bytes = (sign, unsigned))
    (h : ∀ b ∈ (unsigned.dropWhile Byte.isDigit).head?, b ≠ 0x2E ∧ b ≠ 0x65 ∧ b ≠ 0x45) :
    decimalToken bytes = none := by
  rw [decimalToken, hsign]
  dsimp only
  cases hdrop : unsigned.dropWhile Byte.isDigit with
  | nil => rfl
  | cons b rest =>
    rw [hdrop] at h
    obtain ⟨hpoint, hlower, hupper⟩ := h b rfl
    have hexponent : exponent (b :: rest) = none := by
      rw [exponent, if_neg (by simp [hlower, hupper])]
    simp only [if_neg hpoint, hexponent, Option.map_none, ite_self]

end Direct

namespace Literal

variable {token rest : List UInt8} {number : Int}

/-- A literal begins like a number. -/
theorem exists_startsNumber (h : Literal token number) :
    ∃ b left, token = b :: left ∧ Direct.startsNumber b = true := by
  obtain ⟨sign, r, mark, run, hspells, rfl, -⟩ := h
  obtain ⟨b, left, hbytes, hb⟩ := hspells.exists_digit
  rw [hbytes]
  cases sign with
  | none => exact ⟨b, left, rfl, by simp [Direct.startsNumber, hb]⟩
  | plus => exact ⟨0x2B, b :: left, rfl, by decide⟩
  | minus => exact ⟨0x2D, b :: left, rfl, by decide⟩

/-- **A literal that does not run on** is read as the number it stands for, or not at all. -/
theorem number_eq (h : Literal token number) (hrest : WordEnds rest) :
    Direct.number (token ++ rest) =
      if -2 ^ 63 ≤ number ∧ number ≤ 2 ^ 63 - 1 then some (.integer (Int64.ofInt number), rest)
      else none := by
  obtain ⟨sign, r, mark, run, hspells, rfl, rfl⟩ := h
  have hwrites := hspells.writes hrest
  have hsign : Direct.sign (sign.bytes ++ (mark ++ run) ++ rest) =
      (sign.bytes, mark ++ (run ++ rest)) := by
    rw [List.append_assoc, List.append_assoc]
    exact sign.sign_eq hwrites.sign_eq
  have hdecimal : Direct.decimal (sign.bytes ++ (mark ++ run) ++ rest) = none := by
    rw [Direct.decimal, Direct.decimalToken_eq_none hsign (hspells.head_dropWhile hrest)]
    rfl
  rw [Direct.number, hdecimal, Option.none_or, Direct.integer, hsign]
  simp only [hspells.magnitude_eq hrest, Option.bind_some, sign.apply_eq, hrest.isDelimited,
    and_true]
  by_cases hrange : -2 ^ 63 ≤ sign.apply (r.worth run) ∧ sign.apply (r.worth run) ≤ 2 ^ 63 - 1
  · rw [if_pos hrange, if_pos (by omega)]
  · rw [if_neg hrange, if_neg (by omega)]

theorem value_eq (h : Literal token number) (rest : List UInt8) (depth : Nat) :
    Direct.value (depth + 1) (token ++ rest) = Direct.number (token ++ rest) := by
  obtain ⟨b, left, rfl, hb⟩ := h.exists_startsNumber
  rw [List.cons_append, Direct.value_number hb]

/-- If the number is out of range, a literal is no value. -/
theorem unreadable (h : Literal token number) (hrest : WordEnds rest)
    (hrange : ¬ (-2 ^ 63 ≤ number ∧ number ≤ 2 ^ 63 - 1)) :
    Direct.Unreadable .value (token ++ rest) := by
  refine ⟨?_, fun depth ↦ ?_⟩
  · obtain ⟨b, left, rfl, hb⟩ := h.exists_startsNumber
    intro hhead
    obtain rfl : b = 0x5D := Option.some.inj hhead
    exact absurd hb (by decide)
  · cases depth with
    | zero => rfl
    | succ depth => rw [h.value_eq rest, h.number_eq hrest, if_neg hrange]

end Literal

/-! ## The rule for values -/

namespace TextGrammar

/-- Where a word or a number stands, a value is that. -/
theorem value_builds_scalar : value.Builds 11
    (fun bytes ↦ (Direct.keyword bytes).or (Direct.number bytes)) Direct.emit
    (fun _ bytes ↦ (Direct.keyword bytes).or (Direct.number bytes) ≠ none) fun _ ↦ True :=
  ChoiceBuilds.builds
    (.head (Direct.scalar_builds.ofReady fun _ _ _ ↦ trivial) fun _ _ h ↦ h) _

end TextGrammar

/-- A literal in range is a value, whatever has been built before. -/
theorem Literal.evaluate_value {token rest : List UInt8} {number : Int} (h : Literal token number)
    (hrest : WordEnds rest) (hrange : -2 ^ 63 ≤ number ∧ number ≤ 2 ^ 63 - 1) {input : Array UInt8}
    (s : State input Builder) {budget : Nat} (hbudget : 11 ≤ budget) (hs : s.resultsSilenced = 0)
    (hbytes : s.rest = token ++ rest) :
    ∃ s', TextGrammar.value.evaluate TextGrammar.grammar budget s = some (.ok, s') ∧
      s'.cursor = s.cursor + token.length ∧ s'.results = s.results ∧
      s'.user = s.user.emit (.integer (Int64.ofInt number)) := by
  have hkeyword : Direct.keyword (token ++ rest) = none := by
    obtain ⟨b, left, rfl, hb⟩ := h.exists_startsNumber
    refine Direct.keyword_eq_none (Bool.eq_false_iff.2 fun hstart ↦ ?_) _
    exact Bool.false_ne_true ((Direct.startsNumber_false hstart).symm.trans hb)
  have hread : (Direct.keyword s.rest).or (Direct.number s.rest) =
      some (.integer (Int64.ofInt number), rest) := by
    rw [hbytes, hkeyword, Option.none_or, h.number_eq hrest, if_pos hrange]
  have hready : (Direct.keyword s.rest).or (Direct.number s.rest) ≠ none := by
    rw [hread]
    nofun
  obtain ⟨⟨outcome, s'⟩, hreply, hbuilt⟩ :=
    TextGrammar.value_builds_scalar input budget hbudget s hs hready
  dsimp only at hbuilt
  rw [hread] at hbuilt
  cases hbuilt with
  | ok ht =>
    have htoken := List.append_cancel_right (ht.input_eq.symm.trans hbytes)
    refine ⟨s', hreply, ?_, ?_, ht.user_eq⟩
    · rw [ht.cursor_eq, htoken]
    · rw [ht.results_eq, State.heard_nil, List.append_nil]

namespace Doc

/-- **Integer literals are exact or rejected.**  A literal that does not run on is a value if its
number has 64 bits: then it is taken whole, and adds that number under the pending name.  If the
number is out of range, no document that has the literal where a value has to stand can be read. -/
theorem literal_exact_or_rejected {token rest : List UInt8} {number : Int}
    (h : Literal token number)
    (hrest : ∀ b ∈ rest.head?, Byte.isIdentifier b = false ∧ b ≠ 0x2E) :
    (-2 ^ 63 ≤ number ∧ number ≤ 2 ^ 63 - 1 →
      ∀ (input : Array UInt8) (s : State input Builder) (budget : Nat), 11 ≤ budget →
        s.resultsSilenced = 0 → s.rest = token ++ rest →
          ∃ (s' : State input Builder) (n : Int64),
            TextGrammar.value.evaluate TextGrammar.grammar budget s = some (.ok, s') ∧
            s'.cursor = s.cursor + token.length ∧ s'.results = s.results ∧
            s'.user = s.user.emit (.integer n) ∧ n.toInt = number) ∧
    (¬ (-2 ^ 63 ≤ number ∧ number ≤ 2 ^ 63 - 1) →
      ∀ (root : Doc) (input : Array UInt8), Direct.DocumentPlace (token ++ rest) input.toList →
        ∃ error, (root.read input).1 = .error error) := by
  constructor
  · intro hrange input s budget hbudget hs hbytes
    obtain ⟨s', hreply, hcursor, hresults, huser⟩ :=
      h.evaluate_value hrest hrange s hbudget hs hbytes
    refine ⟨s', Int64.ofInt number, hreply, hcursor, hresults, huser, ?_⟩
    exact Int64.toInt_ofInt_of_le hrange.1 (by omega)
  · intro hrange root input hplace
    obtain ⟨error, hread⟩ := read_of_none
      (Direct.document_eq_none_of_place (h.unreadable hrest hrange) hplace)
    exact ⟨error, by rw [hread root]⟩

/-- The text `a = [-0X8000000000000000 0777 9223372036854775808]`. -/
def tooMuch : Array UInt8 :=
  #[0x61, 0x20, 0x3D, 0x20, 0x5B, 0x2D, 0x30, 0x58, 0x38, 0x30, 0x30, 0x30, 0x30, 0x30, 0x30, 0x30,
    0x30, 0x30, 0x30, 0x30, 0x30, 0x30, 0x30, 0x30, 0x20, 0x30, 0x37, 0x37, 0x37, 0x20, 0x39, 0x32,
    0x32, 0x33, 0x33, 0x37, 0x32, 0x30, 0x33, 0x36, 0x38, 0x35, 0x34, 0x37, 0x37, 0x35, 0x38, 0x30,
    0x38, 0x5D]

/-- The least number is the first element, and the third is one more than there is. -/
theorem literal_exact_or_rejected_tooMuch :
    (∃ s' : State tooMuch Builder,
      TextGrammar.value.evaluate TextGrammar.grammar 11
        ⟨5, by decide, [.null], 0, 0, {}, 0, none, none, none,
          ⟨⟨.empty, .array, {}⟩, [], none, ""⟩⟩ = some (.ok, s') ∧
      s'.cursor = 24 ∧ s'.results = [.null] ∧
      s'.user.current.children.items = [⟨.empty, .integer Int64.minValue⟩]) ∧
    ∀ root : Doc, ∃ error, (root.read tooMuch).1 = .error error := by
  constructor
  · have hliteral : Literal (tooMuch.toList.extract 5 24) (-2 ^ 63) :=
      ⟨.minus, .hexadecimal, [0x30, 0x58], tooMuch.toList.extract 8 24,
        ⟨by decide, by decide +kernel, by decide +kernel, nofun⟩, by decide +kernel,
        by decide +kernel⟩
    have hends : WordEnds (tooMuch.toList.drop 24) := by
      rw [WordEnds]
      decide +kernel
    obtain ⟨s', n, hreply, hcursor, hresults, huser, hn⟩ :=
      (literal_exact_or_rejected hliteral hends).1 (by decide) tooMuch
        ⟨5, by decide, [.null], 0, 0, {}, 0, none, none, none,
          ⟨⟨.empty, .array, {}⟩, [], none, ""⟩⟩ 11 (Nat.le_refl 11) rfl (by decide +kernel)
    refine ⟨s', hreply, hcursor, hresults, ?_⟩
    rw [huser, Int64.toInt_inj.1 (hn.trans (by decide : (-2 ^ 63 : Int) = Int64.minValue.toInt))]
    rfl
  · intro root
    have hliteral : Literal (tooMuch.toList.extract 30 49) (2 ^ 63) :=
      ⟨.none, .decimal, [], tooMuch.toList.extract 30 49,
        ⟨by decide, by decide +kernel, by decide +kernel, by decide +kernel⟩, by decide +kernel,
        by decide +kernel⟩
    have hends : WordEnds [0x5D] := by
      rw [WordEnds]
      decide +kernel
    have hthird : Direct.Place (tooMuch.toList.drop 30) (.items .array) (tooMuch.toList.drop 25) :=
      @Direct.Place.later _ .array _ _ _ 1 _ rfl rfl (.element .here)
    have hfirst : Direct.Place (tooMuch.toList.drop 30) (.items .array) (tooMuch.toList.drop 5) :=
      @Direct.Place.later _ .array _ _ _ 1 _ rfl rfl hthird
    exact (literal_exact_or_rejected hliteral hends).2 (by decide) root tooMuch
      ⟨tooMuch.toList, rfl, .member rfl rfl (@Direct.Place.inside _ .array _ _ rfl hfirst)⟩

end Doc
end DocGrammar
