import DocGrammar.Proofs.Integers.Radices

/-!
# The rules for integers are exact

A rule for integers is *exact* at a state if it says whether a number in its range is written at the
cursor, takes all of that number if there is one, and otherwise leaves everything as it was
(`Rule.ReadsExactly`).

The rules for one radix are exact everywhere, for digits of any number
(`Leaf.singleRadix_exact`).  The rules that may choose among the radices are exact but for one thing
(`Leaf.anyRadix_exact_iff`).  A magnitude that is out of range makes them try the next radix.  In
octal or decimal nothing comes of that.  But a hexadecimal magnitude begins with a `0`, which is an
octal one, and so they take an overlong hexadecimal number for a zero.
-/

set_option autoImplicit false

namespace DocGrammar

/-! ## Numbers in a byte string -/

/-- What may stand in front of a magnitude. -/
inductive Sign where
  | none
  | plus
  | minus

namespace Sign

/-- How a sign is written. -/
def bytes : Sign → List UInt8
  | none => []
  | plus => [0x2B]
  | minus => [0x2D]

/-- The number with this sign and a magnitude. -/
def apply : Sign → Nat → Int
  | minus, n => -n
  | _, n => n

end Sign

/-- Bytes begin with a magnitude of 64 bits, which is a value. -/
def UnsignedAt (magnitude : List UInt8 → List UInt8 → Nat → Prop) (bytes token : List UInt8)
    (value : Value) : Prop :=
  ∃ n, magnitude bytes token n ∧ n < 2 ^ 64 ∧ value = .unsigned (UInt64.ofNat n)

/-- Bytes begin with a sign or none and a magnitude, and the number is a value of 64 bits. -/
def SignedAt (magnitude : List UInt8 → List UInt8 → Nat → Prop) (bytes token : List UInt8)
    (value : Value) : Prop :=
  ∃ (sign : Sign) (rest token' : List UInt8) (n : Nat), bytes = sign.bytes ++ rest ∧
    magnitude rest token' n ∧ token = sign.bytes ++ token' ∧
    -2 ^ 63 ≤ sign.apply n ∧ sign.apply n ≤ 2 ^ 63 - 1 ∧
    value = .signed (Int64.ofInt (sign.apply n))

namespace Radix

/-- A magnitude of the radix that the bytes call for. -/
def AnyMagnitude (bytes token : List UInt8) (n : Nat) : Prop := (of bytes).Magnitude bytes token n

end Radix

/-! ## Exact replies -/

variable {N U : Type} {input : Array UInt8}

/-- A reply is exact about what is said to be written at the cursor: which tokens, and for which
values. -/
structure State.ReadExactly (s : State input U) (written : List UInt8 → Value → Prop)
    (reply : Reply input U) : Prop where
  /-- It is a success where something is written. -/
  ok_iff : reply.1 = .ok ↔ ∃ token value, written token value
  /-- Then the token is taken, -/
  cursor_eq : ∀ token value, written token value → reply.2.cursor = s.cursor + token.length
  /-- and the value is added to the results. -/
  results_eq : ∀ token value, written token value → reply.2.results = s.results ++ [value]
  /-- Otherwise it is a failure, and nothing is taken or added. -/
  fail : reply.1 ≠ .ok →
    reply.1 = .fail ∧ reply.2.cursor = s.cursor ∧ reply.2.results = s.results

/-- A rule has an exact reply at a state. -/
def Rule.ReadsExactly (g : Grammar N U) (budget : Nat) (r : Rule N U) (s : State input U)
    (written : List UInt8 → Value → Prop) : Prop :=
  ∃ reply, r.evaluate g budget s = some reply ∧ s.ReadExactly written reply

/-- A scan settles what is written: the one token and value, or nothing. -/
structure Scan.Settles (scan : Scan) (written : List UInt8 → Value → Prop) : Prop where
  /-- What is written is scanned. -/
  ok : ∀ token value, written token value → ∃ rest, scan = .ok token rest [value]
  /-- If nothing is, the scan fails. -/
  fail : (∀ token value, ¬ written token value) → scan = .fail

/-- What settles the matter for a scanner does so for a rule that reads as it does. -/
theorem Rule.Reads.exactly {g : Grammar N U} {depth : Nat} {r : Rule N U} {p : Scanner}
    (h : r.Reads g true depth p) {budget : Nat} (hbudget : depth ≤ budget) {s : State input U}
    (hs : s.resultsSilenced = 0) {written : List UInt8 → Value → Prop}
    (hp : (p s.rest).Settles written) : r.ReadsExactly g budget s written := by
  obtain ⟨⟨outcome, s'⟩, hreply, hfits⟩ := h input budget hbudget s fun _ ↦ hs
  refine ⟨_, hreply, ?_⟩
  by_cases hwritten : ∃ token value, written token value
  · -- whatever else is said, the scan is the same
    have htook (token value) (h : written token value) :
        outcome = .ok ∧ ∃ rest, s.Took token rest [value] s.user s' := by
      obtain ⟨rest, hscan⟩ := hp.ok token value h
      rw [hscan] at hfits
      cases hfits with
      | ok ht => exact ⟨rfl, rest, ht⟩
    obtain ⟨token₀, value₀, h₀⟩ := hwritten
    have hok := (htook token₀ value₀ h₀).1
    refine ⟨⟨fun _ ↦ ⟨token₀, value₀, h₀⟩, fun _ ↦ hok⟩, fun token value h ↦ ?_,
      fun token value h ↦ ?_, fun hne ↦ absurd hok hne⟩
    · obtain ⟨-, rest, ht⟩ := htook token value h
      exact ht.cursor_eq
    · obtain ⟨-, rest, ht⟩ := htook token value h
      rw [ht.results_eq, State.heard, if_pos hs]
  · have hnone (token value) : ¬ written token value := fun h ↦ hwritten ⟨token, value, h⟩
    rw [hp.fail hnone] at hfits
    cases hfits with
    | fail hsame =>
      exact ⟨⟨fun hok ↦ (by cases hok), fun h ↦ absurd h hwritten⟩,
        fun token value h ↦ absurd h (hnone token value),
        fun token value h ↦ absurd h (hnone token value),
        fun _ ↦ ⟨rfl, hsame.cursor_eq, hsame.results_eq⟩⟩

/-- What is scanned as a token with a value is taken. -/
theorem Rule.Reads.takes {g : Grammar N U} {depth : Nat} {r : Rule N U} {p : Scanner}
    (h : r.Reads g true depth p) {budget : Nat} (hbudget : depth ≤ budget) {s : State input U}
    (hs : s.resultsSilenced = 0) {token rest : List UInt8} {value : Value}
    (hp : p s.rest = .ok token rest [value]) :
    ∃ s', r.evaluate g budget s = some (.ok, s') ∧ s'.cursor = s.cursor + token.length ∧
      s'.results = s.results ++ [value] := by
  obtain ⟨⟨outcome, s'⟩, hreply, hfits⟩ := h input budget hbudget s fun _ ↦ hs
  rw [hp] at hfits
  cases hfits with
  | ok ht =>
    refine ⟨s', hreply, ht.cursor_eq, ?_⟩
    rw [ht.results_eq, State.heard, if_pos hs]

/-- It is not exact to succeed where nothing is written. -/
theorem Rule.not_readsExactly {g : Grammar N U} {budget : Nat} {r : Rule N U} {s s' : State input U}
    (h : r.evaluate g budget s = some (.ok, s')) {written : List UInt8 → Value → Prop}
    (hnone : ∀ token value, ¬ written token value) : ¬ r.ReadsExactly g budget s written := by
  rintro ⟨reply, hreply, hexact⟩
  obtain rfl := Option.some.inj (h.symm.trans hreply)
  obtain ⟨token, value, hwritten⟩ := hexact.ok_iff.1 rfl
  exact hnone token value hwritten

/-! ## Magnitudes -/

namespace Radix

section

variable {r : Radix} {bytes mark run rest : List UInt8}

/-- What stands as a magnitude is the only one, and a value if it has 64 bits. -/
theorem Writes.unsignedAt_iff (h : r.Writes bytes mark run rest) {token : List UInt8}
    {value : Value} : UnsignedAt r.Magnitude bytes token value ↔
      token = mark ++ run ∧ r.worth run < 2 ^ 64 ∧
        value = .unsigned (UInt64.ofNat (r.worth run)) := by
  constructor
  · rintro ⟨_, ⟨mark', run', rest', h', rfl, rfl⟩, hn, rfl⟩
    obtain ⟨rfl, rfl, rfl⟩ := h.unique h'
    exact ⟨rfl, hn, rfl⟩
  · rintro ⟨rfl, hn, rfl⟩
    exact ⟨_, ⟨mark, run, rest, h, rfl, rfl⟩, hn, rfl⟩

/-- The scanner of a radix settles which magnitude is written. -/
theorem scanner_settles (r : Radix) (bytes : List UInt8) :
    (r.scanner bytes).Settles (UnsignedAt r.Magnitude bytes) := by
  by_cases h : ∃ mark run rest, r.Writes bytes mark run rest
  · obtain ⟨mark, run, rest, h⟩ := h
    rcases Nat.lt_or_ge (r.worth run) (2 ^ 64) with hn | hn
    · refine ⟨fun token value hwritten ↦ ?_, fun hnone ↦ ?_⟩
      · obtain ⟨rfl, -, rfl⟩ := h.unsignedAt_iff.1 hwritten
        exact ⟨rest, h.scanner_ok hn⟩
      · exact absurd (h.unsignedAt_iff.2 ⟨rfl, hn, rfl⟩) (hnone _ _)
    · exact ⟨fun token value hwritten ↦ absurd (h.unsignedAt_iff.1 hwritten).2.1 (Nat.not_lt.2 hn),
        fun _ ↦ h.scanner_fail hn⟩
  · have hnone (mark run rest) : ¬ r.Writes bytes mark run rest := fun hw ↦ h ⟨_, _, _, hw⟩
    refine ⟨?_, fun _ ↦ scanner_eq_fail hnone⟩
    rintro token value ⟨_, ⟨mark, run, rest, hw, -, -⟩, -, -⟩
    exact absurd hw (hnone mark run rest)

/-- A magnitude does not begin with a sign. -/
theorem Writes.sign_eq (h : r.Writes bytes mark run rest) : Direct.sign bytes = ([], bytes) := by
  obtain ⟨b, left, hbytes, hb⟩ : ∃ b left, bytes = b :: left ∧ Direct.isSign b = false := by
    have hmark := h.mark_mem
    have hnonempty := h.nonempty
    rw [h.bytes_eq]
    cases r with
    | decimal =>
      obtain rfl := List.mem_singleton.1 hmark
      obtain ⟨b, run, rfl⟩ := List.exists_cons_of_ne_nil (hnonempty.resolve_right nofun)
      refine ⟨b, run ++ rest, rfl, Bool.eq_false_iff.2 fun hb ↦ ?_⟩
      have hdigit := h.isDigit b List.mem_cons_self
      simp only [Direct.isSign, Bool.or_eq_true, beq_iff_eq] at hb
      rcases hb with rfl | rfl <;> exact absurd hdigit (by decide)
    | octal =>
      obtain rfl := List.mem_singleton.1 hmark
      exact ⟨0x30, _, rfl, by decide⟩
    | hexadecimal =>
      obtain ⟨x, -, rfl⟩ := mem_marks_hexadecimal.1 hmark
      exact ⟨0x30, _, rfl, by decide⟩
  rw [hbytes, Direct.sign, hb, if_neg Bool.false_ne_true]

end
end Radix

/-! ## Signs -/

namespace Sign

/-- Every byte string has a sign in front, if only the empty one. -/
theorem exists_eq (bytes : List UInt8) : ∃ (sign : Sign) (rest : List UInt8),
    bytes = sign.bytes ++ rest ∧ Direct.sign bytes = (sign.bytes, rest) := by
  cases bytes with
  | nil => exact ⟨none, [], rfl, rfl⟩
  | cons b rest =>
    rw [Direct.sign]
    by_cases hb : Direct.isSign b = true
    · rw [if_pos hb]
      simp only [Direct.isSign, Bool.or_eq_true, beq_iff_eq] at hb
      rcases hb with rfl | rfl
      · exact ⟨minus, rest, rfl, rfl⟩
      · exact ⟨plus, rest, rfl, rfl⟩
    · rw [if_neg hb]
      exact ⟨none, b :: rest, rfl, rfl⟩

/-- A sign is recognized in front of what does not begin with one. -/
theorem sign_eq (sign : Sign) {rest : List UInt8} (h : Direct.sign rest = ([], rest)) :
    Direct.sign (sign.bytes ++ rest) = (sign.bytes, rest) := by
  cases sign with
  | none => exact h
  | plus => rfl
  | minus => rfl

theorem apply_eq (sign : Sign) (n : Nat) :
    (if sign.bytes = [0x2D] then -(n : Int) else n) = sign.apply n := by
  cases sign <;> rfl

/-- A magnitude of more than 64 bits is out of range with any sign. -/
theorem lt_of_inRange {sign : Sign} {n : Nat} (hlow : -2 ^ 63 ≤ sign.apply n)
    (hhigh : sign.apply n ≤ 2 ^ 63 - 1) : n < 2 ^ 64 := by
  cases sign <;> simp only [apply] at hlow hhigh <;> omega

end Sign

/-- The scanner of a sign or none and a magnitude. -/
def Scanner.signedWith (p : Scanner) : Scanner :=
  Scanner.closing (Scanner.inOrder [Scanner.optional (Scanner.byte Direct.isSign), p] false)
    fun _ values ↦ (Direct.signedResult? values).map fun value ↦ [value]

namespace Scanner

variable {p : Scanner} {bytes rest token left : List UInt8} {sign : Sign}

theorem signedWith_fail (hsign : Direct.sign bytes = (sign.bytes, rest)) (h : p rest = .fail) :
    p.signedWith bytes = .fail := by
  rw [signedWith, closing, inOrder_optional_sign, hsign, inOrder, h]
  rfl

/-- A magnitude with a sign in front is a value, if the number has 64 bits. -/
theorem signedWith_ok (hsign : Direct.sign bytes = (sign.bytes, rest)) {n : Nat} (hn : n < 2 ^ 64)
    (h : p rest = .ok token left [.unsigned (UInt64.ofNat n)]) :
    p.signedWith bytes =
      if -2 ^ 63 ≤ sign.apply n ∧ sign.apply n ≤ 2 ^ 63 - 1 then
        .ok (sign.bytes ++ token) left [.signed (Int64.ofInt (sign.apply n))]
      else .fail := by
  have hresult := Direct.signedResult?_eq bytes (n := n) hn
  rw [hsign] at hresult
  simp only [sign.apply_eq] at hresult
  rw [signedWith, closing, inOrder_optional_sign, hsign, inOrder, h]
  simp only [inOrder, if_true, Scan.after, List.append_nil, hresult]
  by_cases hrange : -2 ^ 63 ≤ sign.apply n ∧ sign.apply n ≤ 2 ^ 63 - 1
  · rw [if_pos (by omega), if_pos hrange]
    rfl
  · rw [if_neg (by omega), if_neg hrange]
    rfl

/-- What settles the magnitude settles the number. -/
theorem signedWith_settles {magnitude : List UInt8 → List UInt8 → Nat → Prop}
    (hunsigned : ∀ {rest token n}, magnitude rest token n → Direct.sign rest = ([], rest))
    (hsign : Direct.sign bytes = (sign.bytes, rest)) (hbytes : bytes = sign.bytes ++ rest)
    (hp : (p rest).Settles (UnsignedAt magnitude rest)) :
    (p.signedWith bytes).Settles (SignedAt magnitude bytes) := by
  refine ⟨?_, fun hnone ↦ ?_⟩
  · rintro _ _ ⟨sign', rest', token, n, hbytes', hmagnitude, rfl, hlow, hhigh, rfl⟩
    have hsign' := sign'.sign_eq (hunsigned hmagnitude)
    rw [← hbytes', hsign] at hsign'
    obtain ⟨hs, rfl⟩ := Prod.mk.inj hsign'
    have hn := Sign.lt_of_inRange hlow hhigh
    obtain ⟨left, hscan⟩ := hp.ok token _ ⟨n, hmagnitude, hn, rfl⟩
    rw [hs] at hsign
    exact ⟨left, by rw [signedWith_ok hsign hn hscan, if_pos ⟨hlow, hhigh⟩]⟩
  · by_cases hwritten : ∃ token value, UnsignedAt magnitude rest token value
    · obtain ⟨token, _, n, hmagnitude, hn, rfl⟩ := hwritten
      obtain ⟨left, hscan⟩ := hp.ok token _ ⟨n, hmagnitude, hn, rfl⟩
      rw [signedWith_ok hsign hn hscan, if_neg]
      rintro ⟨hlow, hhigh⟩
      exact hnone _ _ ⟨sign, rest, token, n, hbytes, hmagnitude, rfl, hlow, hhigh, rfl⟩
    · exact signedWith_fail hsign (hp.fail fun token value h ↦ hwritten ⟨token, value, h⟩)

end Scanner
/-! ## The rules for one radix -/

namespace Leaf

theorem signedDecimal_reads {g : Grammar N U} : (signedDecimal : Rule N U).Reads g true 4
    (Radix.decimal.scanner.signedWith) :=
  .closing
    (.allOf <| .cons (Direct.signMaybe_reads.mono (by decide)) <|
      .cons (Direct.unsignedDecimalDigits_reads.mono (by decide)) .nil)
    Direct.closeSigned_closes

/-- **The rules for one radix are exact**, at every state in which results are heard. -/
theorem singleRadix_exact (g : Grammar N U) {budget : Nat} (hbudget : 4 ≤ budget)
    (s : State input U) (hs : s.resultsSilenced = 0) :
    unsignedDecimal.ReadsExactly g budget s (UnsignedAt Radix.decimal.Magnitude s.rest) ∧
    unsignedHex.ReadsExactly g budget s (UnsignedAt Radix.hexadecimal.Magnitude s.rest) ∧
    unsignedOctal.ReadsExactly g budget s (UnsignedAt Radix.octal.Magnitude s.rest) ∧
    signedDecimal.ReadsExactly g budget s (SignedAt Radix.decimal.Magnitude s.rest) := by
  refine ⟨?_, ?_, ?_, ?_⟩
  · exact (Direct.unsignedDecimalDigits_reads.mono (by decide)).exactly hbudget hs
      (Radix.decimal.scanner_settles s.rest)
  · exact Direct.unsignedHex_reads.exactly hbudget hs (Radix.hexadecimal.scanner_settles s.rest)
  · exact (Direct.unsignedOctal_reads.mono (by decide)).exactly hbudget hs
      (Radix.octal.scanner_settles s.rest)
  · obtain ⟨sign, rest, hbytes, hsign⟩ := Sign.exists_eq s.rest
    refine signedDecimal_reads.exactly hbudget hs (Scanner.signedWith_settles ?_ hsign hbytes
      (Radix.decimal.scanner_settles rest))
    rintro _ _ _ ⟨mark, run, left, hw, -, -⟩
    exact hw.sign_eq

/-- The bytes `7-00009223372036854775808,`. -/
def leastBehind : Array UInt8 :=
  #[0x37, 0x2D, 0x30, 0x30, 0x30, 0x30, 0x39, 0x32, 0x32, 0x33, 0x33, 0x37, 0x32, 0x30, 0x33, 0x36,
    0x38, 0x35, 0x34, 0x37, 0x37, 0x35, 0x38, 0x30, 0x38, 0x2C]

/-- The least number of 64 bits with zeros in front, behind a digit that was read before. -/
theorem singleRadix_exact_least :
    let s : State leastBehind Unit :=
      ⟨1, by decide, [.char 0x37], 2, 0, {}, 0, none, none, none, ()⟩
    s.resultsSilenced = 0 ∧ ∃ s',
      signedDecimal.evaluate (N := Unit) (fun _ ↦ .nothing) 4 s = some (.ok, s') ∧ s'.cursor = 25 ∧
      s'.results = [.char 0x37, .signed Int64.minValue] := by
  intro s
  refine ⟨rfl, ?_⟩
  obtain ⟨-, -, -, ⟨outcome, s'⟩, hreply, hexact⟩ :=
    singleRadix_exact (N := Unit) (fun _ ↦ .nothing) (Nat.le_refl 4) s rfl
  have hwritten : SignedAt Radix.decimal.Magnitude s.rest
      (leastBehind.toList.extract 1 25) (.signed Int64.minValue) := by
    refine ⟨.minus, leastBehind.toList.drop 2, leastBehind.toList.extract 2 25, 2 ^ 63,
      by decide +kernel, ⟨[], leastBehind.toList.extract 2 25, [0x2C], ?_, rfl, by decide +kernel⟩,
      by decide +kernel, by decide, by decide, by decide⟩
    exact ⟨by decide +kernel, by decide, by decide +kernel, by decide +kernel, by decide +kernel⟩
  obtain rfl : outcome = .ok := hexact.ok_iff.2 ⟨_, _, hwritten⟩
  exact ⟨s', hreply, hexact.cursor_eq _ _ hwritten, hexact.results_eq _ _ hwritten⟩

/-! ## The rules for any radix -/

/-- An overlong number has no value. -/
theorem overlong_none {bytes : List UInt8} (h : Radix.Overlong bytes) (token : List UInt8)
    (value : Value) : ¬ UnsignedAt Radix.AnyMagnitude bytes token value := by
  obtain ⟨mark, run, rest, hw, hn⟩ := h
  have hof := Radix.of_eq_hexadecimal ⟨mark, run, rest, hw⟩
  rintro ⟨n, hmagnitude, hlt, rfl⟩
  rw [Radix.AnyMagnitude, hof] at hmagnitude
  have hworth := (hw.unsignedAt_iff.1 ⟨n, hmagnitude, hlt, rfl⟩).2.1
  exact Nat.not_lt.2 hn hworth

/-- Nor has it with a sign. -/
theorem overlong_signed_none {bytes : List UInt8} {sign : Sign} {rest : List UInt8}
    (hsign : Direct.sign bytes = (sign.bytes, rest)) (h : Radix.Overlong rest) (token : List UInt8)
    (value : Value) : ¬ SignedAt Radix.AnyMagnitude bytes token value := by
  rintro ⟨sign', rest', token', n, rfl, hmagnitude, rfl, hlow, hhigh, rfl⟩
  have hn := Sign.lt_of_inRange hlow hhigh
  have hunsigned : Direct.sign rest' = ([], rest') := by
    obtain ⟨mark, run, left, hw, -, -⟩ := hmagnitude
    exact hw.sign_eq
  rw [sign'.sign_eq hunsigned] at hsign
  obtain ⟨-, rfl⟩ := Prod.mk.inj hsign
  exact overlong_none h token' _ ⟨n, hmagnitude, hn, rfl⟩

theorem unsigned_settles {bytes : List UInt8} (h : ¬ Radix.Overlong bytes) :
    (Direct.unsigned bytes).Settles (UnsignedAt Radix.AnyMagnitude bytes) := by
  rw [Radix.unsigned_eq h]
  exact (Radix.of bytes).scanner_settles bytes

/-- Of an overlong number only the `0` in front is taken, -/
theorem unsignedAny_overlong (g : Grammar N U) {budget : Nat} (hbudget : 7 ≤ budget)
    {s : State input U} (hs : s.resultsSilenced = 0) (h : Radix.Overlong s.rest) :
    ∃ s', unsignedAny.evaluate g budget s = some (.ok, s') ∧ s'.cursor = s.cursor + 1 ∧
      s'.results = s.results ++ [.unsigned 0] := by
  obtain ⟨rest, hscan⟩ := Radix.unsigned_overlong h
  exact (Direct.unsignedAny_reads.mono (by decide)).takes hbudget hs hscan

/-- and the sign. -/
theorem signedAny_overlong (g : Grammar N U) {budget : Nat} (hbudget : 7 ≤ budget)
    {s : State input U} (hs : s.resultsSilenced = 0) {sign : Sign} {rest : List UInt8}
    (hsign : Direct.sign s.rest = (sign.bytes, rest)) (h : Radix.Overlong rest) :
    ∃ s', signedAny.evaluate g budget s = some (.ok, s') ∧
      s'.cursor = s.cursor + sign.bytes.length + 1 ∧ s'.results = s.results ++ [.signed 0] := by
  obtain ⟨left, hscan⟩ := Radix.unsigned_overlong h
  have hzero : sign.apply 0 = 0 := by cases sign <;> rfl
  have hsigned := Scanner.signedWith_ok hsign (n := 0) (by decide) hscan
  rw [hzero, if_pos (by decide)] at hsigned
  obtain ⟨s', hreply, hcursor, hresults⟩ := Direct.signedAny_reads.takes hbudget hs hsigned
  refine ⟨s', hreply, ?_, hresults⟩
  rw [hcursor, List.length_append, List.length_singleton, Nat.add_assoc]

/-- **The rules for any radix are exact but for overlong hexadecimal numbers**, and of those they
take the `0` in front. -/
theorem anyRadix_exact_iff (g : Grammar N U) {budget : Nat} (hbudget : 7 ≤ budget)
    (s : State input U) (hs : s.resultsSilenced = 0) :
    (unsignedAny.ReadsExactly g budget s (UnsignedAt Radix.AnyMagnitude s.rest) ↔
      ¬ Radix.Overlong s.rest) ∧
    (signedAny.ReadsExactly g budget s (SignedAt Radix.AnyMagnitude s.rest) ↔
      ¬ ∃ (sign : Sign) (rest : List UInt8), s.rest = sign.bytes ++ rest ∧ Radix.Overlong rest) ∧
    (Radix.Overlong s.rest → ∃ s', unsignedAny.evaluate g budget s = some (.ok, s') ∧
      s'.cursor = s.cursor + 1 ∧ s'.results = s.results ++ [.unsigned 0]) ∧
    ∀ (sign : Sign) (rest : List UInt8), s.rest = sign.bytes ++ rest → Radix.Overlong rest →
      ∃ s', signedAny.evaluate g budget s = some (.ok, s') ∧
        s'.cursor = s.cursor + sign.bytes.length + 1 ∧ s'.results = s.results ++ [.signed 0] := by
  -- an overlong number stands right behind its sign
  have hsigned (sign : Sign) (rest : List UInt8) (hbytes : s.rest = sign.bytes ++ rest)
      (h : Radix.Overlong rest) : Direct.sign s.rest = (sign.bytes, rest) := by
    obtain ⟨mark, run, left, hw, -⟩ := h
    exact hbytes ▸ sign.sign_eq hw.sign_eq
  refine ⟨⟨fun hexact h ↦ ?_, fun h ↦ ?_⟩, ⟨?_, fun h ↦ ?_⟩,
    fun h ↦ unsignedAny_overlong g hbudget hs h, fun sign rest hbytes h ↦
      signedAny_overlong g hbudget hs (hsigned sign rest hbytes h) h⟩
  · obtain ⟨s', hreply, -⟩ := unsignedAny_overlong g hbudget hs h
    exact Rule.not_readsExactly hreply (overlong_none h) hexact
  · exact (Direct.unsignedAny_reads.mono (by decide)).exactly hbudget hs (unsigned_settles h)
  · rintro hexact ⟨sign, rest, hbytes, h⟩
    have hsign := hsigned sign rest hbytes h
    obtain ⟨s', hreply, -⟩ := signedAny_overlong g hbudget hs hsign h
    exact Rule.not_readsExactly hreply (overlong_signed_none hsign h) hexact
  · obtain ⟨sign, rest, hbytes, hsign⟩ := Sign.exists_eq s.rest
    refine Direct.signedAny_reads.exactly hbudget hs
      (Scanner.signedWith_settles ?_ hsign hbytes (unsigned_settles fun hoverlong ↦
        h ⟨sign, rest, hbytes, hoverlong⟩))
    rintro _ _ _ ⟨mark, run, left, hw, -, -⟩
    exact hw.sign_eq

/-- The bytes `0X00ffffffffffffffffg`. -/
def greatest : Array UInt8 :=
  #[0x30, 0x58, 0x30, 0x30, 0x66, 0x66, 0x66, 0x66, 0x66, 0x66, 0x66, 0x66, 0x66, 0x66, 0x66, 0x66,
    0x66, 0x66, 0x66, 0x66, 0x67]

/-- The greatest magnitude of 64 bits is not overlong, and is taken whole. -/
theorem anyRadix_exact_iff_greatest :
    let s : State greatest Unit := ⟨0, Nat.zero_le _, [.null], 0, 0, {}, 0, none, none, none, ()⟩
    s.resultsSilenced = 0 ∧ ∃ s',
      unsignedAny.evaluate (N := Unit) (fun _ ↦ .nothing) 7 s = some (.ok, s') ∧ s'.cursor = 20 ∧
      s'.results = [.null, .unsigned (-1)] := by
  intro s
  refine ⟨rfl, ?_⟩
  have hw : Radix.hexadecimal.Writes s.rest [0x30, 0x58] (greatest.toList.extract 2 20) [0x67] :=
    ⟨by decide +kernel, by decide, by decide +kernel, by decide +kernel, by decide +kernel⟩
  have hfits : ¬ Radix.Overlong s.rest := by
    rintro ⟨mark, run, rest, hw', hn⟩
    obtain ⟨-, rfl, -⟩ := hw.unique hw'
    exact absurd hn (by decide +kernel)
  obtain ⟨⟨outcome, s'⟩, hreply, hexact⟩ :=
    (anyRadix_exact_iff (N := Unit) (fun _ ↦ .nothing) (Nat.le_refl 7) s rfl).1.2 hfits
  have hwritten : UnsignedAt Radix.AnyMagnitude s.rest (greatest.toList.extract 0 20)
      (.unsigned (-1)) := by
    refine ⟨2 ^ 64 - 1, ?_, by decide, by decide⟩
    rw [Radix.AnyMagnitude, Radix.of_eq_hexadecimal ⟨_, _, _, hw⟩]
    exact ⟨_, _, _, hw, by decide +kernel, by decide +kernel⟩
  obtain rfl : outcome = .ok := hexact.ok_iff.2 ⟨_, _, hwritten⟩
  exact ⟨s', hreply, hexact.cursor_eq _ _ hwritten, hexact.results_eq _ _ hwritten⟩

/-- The bytes `0x10000000000000000`. -/
def overlong : Array UInt8 :=
  #[0x30, 0x78, 0x31, 0x30, 0x30, 0x30, 0x30, 0x30, 0x30, 0x30, 0x30, 0x30, 0x30, 0x30, 0x30, 0x30,
    0x30, 0x30, 0x30]

/-- The least overlong number.  The hexadecimal rule rejects it, and the rule for any radix takes it
for a zero. -/
theorem anyRadix_not_exact :
    let s := State.start overlong ()
    ¬ unsignedAny.ReadsExactly (N := Unit) (fun _ ↦ .nothing) 7 s
      (UnsignedAt Radix.AnyMagnitude s.rest) ∧
    (unsignedAny.evaluate (N := Unit) (fun _ ↦ .nothing) 7 s).map
      (fun reply ↦ (reply.1, reply.2.cursor, reply.2.results)) = some (.ok, 1, [.unsigned 0]) ∧
    (unsignedHex.evaluate (N := Unit) (fun _ ↦ .nothing) 7 s).map
      (fun reply ↦ (reply.1, reply.2.cursor, reply.2.results)) = some (.fail, 0, []) := by
  intro s
  have hw : Radix.hexadecimal.Writes s.rest [0x30, 0x78] (overlong.toList.drop 2) [] :=
    ⟨by decide +kernel, by decide, by decide +kernel, nofun, by decide +kernel⟩
  have hoverlong : Radix.Overlong s.rest := ⟨_, _, _, hw, by decide +kernel⟩
  obtain ⟨s', hreply, -⟩ := unsignedAny_overlong (N := Unit) (fun _ ↦ .nothing) (Nat.le_refl 7)
    (s := s) rfl hoverlong
  exact ⟨Rule.not_readsExactly hreply (overlong_none hoverlong), by decide +kernel,
    by decide +kernel⟩

end Leaf
end DocGrammar
