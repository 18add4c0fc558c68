import DocGrammar.Proofs.Direct.Integers
import Mathlib.Data.List.Induction
import Mathlib.Data.Nat.Digits.Defs

/-!
# The three ways to write a magnitude

A magnitude is written in decimal, in octal behind a `0`, or in hexadecimal behind `0x` or `0X`.
`Radix` lists the three, and `Radix.Writes` says what it is for a byte string to begin with a
magnitude of a given radix: with a mark, and as many digits as there are.  What the digits are
worth is `Nat.ofDigits`, for runs of any length.

None of this mentions how magnitudes are read.  The second half of the file shows that each rule
reads the magnitudes of its radix, and gives up where there is none or where the number does not
fit 64 bits (`Radix.Writes.scanner_eq`, `Radix.scanner_eq_fail`).
-/

set_option autoImplicit false

namespace DocGrammar

/-- The radices of magnitudes. -/
inductive Radix where
  | decimal
  | octal
  | hexadecimal
  deriving DecidableEq

namespace Radix

/-- How much more a digit is worth than the same digit behind it. -/
def base : Radix → Nat
  | decimal => 10
  | octal => 8
  | hexadecimal => 16

/-- The bytes that are digits. -/
def isDigit : Radix → UInt8 → Bool
  | decimal => Byte.isDigit
  | octal => Direct.isOctalDigit
  | hexadecimal => Direct.isHexDigit

/-- What may stand in front of the digits. -/
def marks : Radix → List (List UInt8)
  | decimal => [[]]
  | octal => [[0x30]]
  | hexadecimal => [[0x30, 0x78], [0x30, 0x58]]

/-- What a digit is worth by itself.  The letters of either case begin one above a multiple of
32. -/
def digit (b : UInt8) : Nat := if b < 0x3A then b.toNat - 0x30 else b.toNat % 32 + 9

/-- What a run of digits is worth, the last of them the least. -/
def worth (r : Radix) (run : List UInt8) : Nat := Nat.ofDigits r.base (run.reverse.map digit)

/-! ## Magnitudes in a byte string -/

/-- Bytes begin with a magnitude: a mark, a run of digits, and then anything else. -/
structure Writes (r : Radix) (bytes mark run rest : List UInt8) : Prop where
  /-- The bytes are the mark, the run and what is left. -/
  bytes_eq : bytes = mark ++ (run ++ rest)
  /-- The mark is one of the radix. -/
  mark_mem : mark ∈ r.marks
  /-- The run is of digits, -/
  isDigit : ∀ b ∈ run, r.isDigit b = true
  /-- and of as many as there are. -/
  maximal : ∀ b ∈ rest.head?, r.isDigit b = false
  /-- Only the octal mark is a magnitude by itself. -/
  nonempty : run ≠ [] ∨ r = octal

/-- What a byte string begins with as a magnitude, and what that is worth. -/
def Magnitude (r : Radix) (bytes token : List UInt8) (n : Nat) : Prop :=
  ∃ mark run rest, r.Writes bytes mark run rest ∧ token = mark ++ run ∧ n = r.worth run

/-- The radix that a byte string calls for. -/
def of (bytes : List UInt8) : Radix :=
  if hexadecimal.marks.any (·.isPrefixOf bytes) && bytes[2]?.any hexadecimal.isDigit then
    hexadecimal
  else if bytes.head? = some 0x30 then octal
  else decimal

theorem mem_marks_hexadecimal {mark : List UInt8} :
    mark ∈ marks hexadecimal ↔ ∃ x : UInt8, (x = 0x78 ∨ x = 0x58) ∧ mark = [0x30, x] := by
  simp [marks, or_and_right, exists_or]

/-! ## What digits are worth -/

theorem digit?_eq (r : Radix) {b : UInt8} (hb : r.isDigit b = true) :
    Digits.digit? b = some (digit b) ∧ digit b < r.base := by
  have hall : ∀ b, r.isDigit b = true → Digits.digit? b = some (digit b) ∧ digit b < r.base := by
    refine Byte.forall_of_lt ?_
    cases r <;> decide +kernel
  exact hall b hb

/-- One more digit at the end moves the others up. -/
theorem worth_append (r : Radix) (run : List UInt8) (b : UInt8) :
    r.worth (run ++ [b]) = r.worth run * r.base + digit b := by
  rw [worth, List.reverse_append, List.reverse_singleton, List.singleton_append, List.map_cons,
    Nat.ofDigits_cons, worth]
  rw [Nat.mul_comm, Nat.add_comm]

/-- Digits are read for what they are worth. -/
theorem value?_eq (r : Radix) {run : List UInt8} (h : ∀ b ∈ run, r.isDigit b = true) :
    Digits.value? r.base run = some (r.worth run) := by
  induction run using List.reverseRecOn with
  | nil => rfl
  | append_singleton run b ih =>
    obtain ⟨hdigit, hlt⟩ := r.digit?_eq (h b (by simp))
    have hrun : Digits.valueFrom? r.base 0 run = some (r.worth run) :=
      ih fun c hc ↦ h c (List.mem_append_left _ hc)
    rw [Digits.value?, Digits.valueFrom?_append, hrun, Option.bind_some, Digits.valueFrom?, hdigit,
      worth_append]
    simp only [if_pos hlt, Digits.valueFrom?]

/-! ## How much of a byte string is a magnitude -/

section

variable {r : Radix} {bytes mark run rest : List UInt8}

theorem takeWhile_run (hrun : ∀ b ∈ run, r.isDigit b = true)
    (hrest : ∀ b ∈ rest.head?, r.isDigit b = false) :
    (run ++ rest).takeWhile r.isDigit = run ∧ (run ++ rest).dropWhile r.isDigit = rest := by
  rw [List.takeWhile_append_of_pos hrun, List.dropWhile_append_of_pos hrun]
  cases rest with
  | nil => simp
  | cons b rest =>
    have hb : r.isDigit b = false := hrest b rfl
    simp [hb]

/-- Bytes begin with at most one magnitude of a radix. -/
theorem Writes.unique {mark' run' rest' : List UInt8} (h : r.Writes bytes mark run rest)
    (h' : r.Writes bytes mark' run' rest') : mark = mark' ∧ run = run' ∧ rest = rest' := by
  have hlength : mark.length = mark'.length := by
    have hsame : ∀ m ∈ r.marks, ∀ m' ∈ r.marks, m.length = m'.length := by
      cases r <;> decide
    exact hsame mark h.mark_mem mark' h'.mark_mem
  obtain ⟨hmark, hleft⟩ := List.append_inj (h.bytes_eq.symm.trans h'.bytes_eq) hlength
  obtain ⟨htake, hdrop⟩ := takeWhile_run h.isDigit h.maximal
  obtain ⟨htake', hdrop'⟩ := takeWhile_run h'.isDigit h'.maximal
  rw [hleft] at htake hdrop
  exact ⟨hmark, htake.symm.trans htake', hdrop.symm.trans hdrop'⟩

/-- Behind a mark stands a magnitude, if there is a digit or if none is needed. -/
theorem writes_of_mark (hmark : mark ∈ r.marks)
    (hfirst : (∃ b ∈ rest.head?, r.isDigit b = true) ∨ r = octal) :
    r.Writes (mark ++ rest) mark (rest.takeWhile r.isDigit) (rest.dropWhile r.isDigit) where
  bytes_eq := by rw [List.takeWhile_append_dropWhile]
  mark_mem := hmark
  isDigit _ hb := List.mem_takeWhile_imp hb
  maximal b hb := by
    have hnot := List.head?_dropWhile_not r.isDigit rest
    rw [Option.mem_def.1 hb] at hnot
    simpa using hnot
  nonempty := by
    refine hfirst.imp_left ?_
    rintro ⟨b, hb, hdigit⟩
    obtain ⟨left, rfl⟩ := List.head?_eq_some_iff.1 (Option.mem_def.1 hb)
    simp [hdigit]

end

/-! ## The radix that is called for -/

section

variable {bytes : List UInt8}

theorem exists_writes_hexadecimal_iff : (∃ mark run rest, hexadecimal.Writes bytes mark run rest) ↔
    (hexadecimal.marks.any (·.isPrefixOf bytes) && bytes[2]?.any hexadecimal.isDigit) = true := by
  simp only [Bool.and_eq_true, List.any_eq_true, List.isPrefixOf_iff_prefix, Option.any_eq_true]
  constructor
  · rintro ⟨mark, run, rest, h⟩
    refine ⟨⟨mark, h.mark_mem, run ++ rest, h.bytes_eq.symm⟩, ?_⟩
    obtain ⟨c, run, rfl⟩ := List.exists_cons_of_ne_nil (h.nonempty.resolve_right nofun)
    have hlength : mark.length = 2 := by
      have hsame : ∀ m ∈ marks hexadecimal, m.length = 2 := by decide
      exact hsame mark h.mark_mem
    refine ⟨c, ?_, h.isDigit c List.mem_cons_self⟩
    rw [h.bytes_eq, List.getElem?_append_right (Nat.le_of_eq hlength), hlength]
    rfl
  · rintro ⟨⟨mark, hmark, left, rfl⟩, c, hc, hdigit⟩
    refine ⟨_, _, _, writes_of_mark hmark (.inl ⟨c, ?_, hdigit⟩)⟩
    have hlength : mark.length = 2 := by
      have hsame : ∀ m ∈ marks hexadecimal, m.length = 2 := by decide
      exact hsame mark hmark
    rwa [List.getElem?_append_right (Nat.le_of_eq hlength), hlength, ← List.head?_eq_getElem?]
      at hc

theorem exists_writes_octal_iff : (∃ mark run rest, octal.Writes bytes mark run rest) ↔
    bytes.head? = some 0x30 := by
  constructor
  · rintro ⟨mark, run, rest, h⟩
    rw [h.bytes_eq, List.mem_singleton.1 h.mark_mem]
    rfl
  · intro h
    obtain ⟨left, rfl⟩ := List.head?_eq_some_iff.1 h
    have hmark : [0x30] ∈ marks octal := List.mem_singleton.2 rfl
    exact ⟨_, _, _, writes_of_mark hmark (.inr rfl)⟩

/-- Hexadecimal is called for wherever it is possible, -/
theorem of_eq_hexadecimal (h : ∃ mark run rest, hexadecimal.Writes bytes mark run rest) :
    of bytes = hexadecimal := by
  rw [of, if_pos (exists_writes_hexadecimal_iff.1 h)]

/-- then octal wherever it is possible, -/
theorem of_eq_octal (hhex : ¬ ∃ mark run rest, hexadecimal.Writes bytes mark run rest)
    (h : ∃ mark run rest, octal.Writes bytes mark run rest) : of bytes = octal := by
  rw [of, if_neg (mt exists_writes_hexadecimal_iff.2 hhex), if_pos (exists_writes_octal_iff.1 h)]

/-- and decimal everywhere else. -/
theorem of_eq_decimal (hhex : ¬ ∃ mark run rest, hexadecimal.Writes bytes mark run rest)
    (hoctal : ¬ ∃ mark run rest, octal.Writes bytes mark run rest) : of bytes = decimal := by
  rw [of, if_neg (mt exists_writes_hexadecimal_iff.2 hhex),
    if_neg (mt exists_writes_octal_iff.2 hoctal)]

end

/-! ## The rules read them -/

/-- The scanner of a magnitude of a certain radix. -/
def scanner : Radix → Scanner
  | decimal => Direct.valued 10 (Scanner.flat (Scanner.run Byte.isDigit))
  | octal => Direct.octal
  | hexadecimal => Direct.hexadecimal

section

variable {r : Radix} {bytes mark run rest : List UInt8}

/-- **A magnitude is read whole**, for what its digits are worth, or not at all. -/
theorem Writes.scanner_eq (h : r.Writes bytes mark run rest) :
    r.scanner bytes = Direct.sized (r.worth run) (mark ++ run) rest := by
  obtain ⟨htake, hdrop⟩ := takeWhile_run h.isDigit h.maximal
  have hvalue := r.value?_eq h.isDigit
  have hmark := h.mark_mem
  have hnonempty := h.nonempty
  rw [h.bytes_eq]
  generalize run ++ rest = left at htake hdrop ⊢
  subst htake hdrop
  cases r with
  | decimal =>
    obtain rfl := List.mem_singleton.1 hmark
    exact Direct.decimal_eq (hnonempty.resolve_right nofun) hvalue
  | octal =>
    obtain rfl := List.mem_singleton.1 hmark
    exact Direct.octal_eq left hvalue
  | hexadecimal =>
    obtain ⟨x, hx, rfl⟩ := mem_marks_hexadecimal.1 hmark
    exact Direct.hexadecimal_eq hx (hnonempty.resolve_right nofun) hvalue

theorem Writes.scanner_ok (h : r.Writes bytes mark run rest) (hn : r.worth run < 2 ^ 64) :
    r.scanner bytes = .ok (mark ++ run) rest [.unsigned (UInt64.ofNat (r.worth run))] := by
  rw [h.scanner_eq, Direct.sized, if_pos (show r.worth run < UInt64.size from hn)]

theorem Writes.scanner_fail (h : r.Writes bytes mark run rest) (hn : 2 ^ 64 ≤ r.worth run) :
    r.scanner bytes = .fail := by
  rw [h.scanner_eq, Direct.sized, if_neg (show ¬ r.worth run < UInt64.size from Nat.not_lt.2 hn)]

/-- Where no magnitude stands, none is read. -/
theorem scanner_eq_fail (h : ∀ mark run rest, ¬ r.Writes bytes mark run rest) :
    r.scanner bytes = .fail := by
  cases r with
  | decimal =>
    cases bytes with
    | nil => rfl
    | cons b left =>
      refine Direct.decimal_fail (Bool.eq_false_iff.2 fun hb ↦ ?_) left
      have hmark : [] ∈ marks decimal := List.mem_singleton.2 rfl
      exact h _ _ _ (writes_of_mark hmark (.inl ⟨b, rfl, hb⟩))
  | octal =>
    cases bytes with
    | nil => rfl
    | cons b left =>
      refine Direct.octal_fail ?_ left
      rintro rfl
      have hmark : [0x30] ∈ marks octal := List.mem_singleton.2 rfl
      exact h _ _ _ (writes_of_mark hmark (.inr rfl))
  | hexadecimal =>
    refine Direct.hexadecimal_fail fun x c left hbytes hx ↦ Bool.eq_false_iff.2 fun hc ↦ ?_
    subst hbytes
    exact h _ _ _ (writes_of_mark (mem_marks_hexadecimal.2 ⟨x, hx, rfl⟩) (.inl ⟨c, rfl, hc⟩))

end

/-! ## The choice among the radices -/

/-- Bytes begin with a hexadecimal magnitude of more than 64 bits. -/
def Overlong (bytes : List UInt8) : Prop :=
  ∃ mark run rest, hexadecimal.Writes bytes mark run rest ∧ 2 ^ 64 ≤ hexadecimal.worth run

section

variable {bytes : List UInt8}

/-- What is out of range in octal is so in decimal. -/
theorem Writes.decimal_fail {mark run rest : List UInt8} (h : octal.Writes bytes mark run rest)
    (hn : 2 ^ 64 ≤ octal.worth run) : decimal.scanner bytes = .fail := by
  have hbytes : bytes = 0x30 :: (run ++ rest) := by
    rw [h.bytes_eq, List.mem_singleton.1 h.mark_mem, List.singleton_append]
  have hmark : [] ∈ marks decimal := List.mem_singleton.2 rfl
  have hfirst : ∃ b ∈ bytes.head?, decimal.isDigit b = true := ⟨0x30, by rw [hbytes]; rfl, rfl⟩
  have hdecimal := writes_of_mark hmark (.inl hfirst)
  have hvalue := octal.value?_eq h.isDigit
  rw [← (takeWhile_run h.isDigit h.maximal).1] at hvalue
  obtain ⟨n, hn', hle⟩ := Direct.octal_le_decimal hvalue
  rw [(takeWhile_run h.isDigit h.maximal).1] at hle
  have hworth : decimal.worth (bytes.takeWhile decimal.isDigit) = n := by
    rw [hbytes]
    exact Option.some.inj ((hbytes ▸ decimal.value?_eq hdecimal.isDigit).symm.trans hn')
  exact hdecimal.scanner_fail (hworth ▸ Nat.le_trans hn hle)

/-- The choice is right, but for overlong hexadecimal numbers. -/
theorem unsigned_eq (h : ¬ Overlong bytes) : Direct.unsigned bytes = (of bytes).scanner bytes := by
  show Scanner.firstOf [scanner hexadecimal, scanner octal, scanner decimal] bytes = _
  rw [Scanner.firstOf]
  by_cases hhex : ∃ mark run rest, hexadecimal.Writes bytes mark run rest
  · rw [of_eq_hexadecimal hhex]
    obtain ⟨mark, run, rest, hw⟩ := hhex
    rw [hw.scanner_ok (Nat.lt_of_not_le fun hn ↦ h ⟨mark, run, rest, hw, hn⟩)]
  · rw [scanner_eq_fail fun mark run rest hw ↦ hhex ⟨mark, run, rest, hw⟩, Scanner.firstOf]
    by_cases hoctal : ∃ mark run rest, octal.Writes bytes mark run rest
    · rw [of_eq_octal hhex hoctal]
      obtain ⟨mark, run, rest, hw⟩ := hoctal
      rcases Nat.lt_or_ge (octal.worth run) (2 ^ 64) with hn | hn
      · rw [hw.scanner_ok hn]
      · rw [hw.scanner_fail hn, Scanner.firstOf, hw.decimal_fail hn]
        rfl
    · rw [scanner_eq_fail fun mark run rest hw ↦ hoctal ⟨mark, run, rest, hw⟩, Scanner.firstOf,
        of_eq_decimal hhex hoctal]
      by_cases hdecimal : ∃ mark run rest, decimal.Writes bytes mark run rest
      · obtain ⟨mark, run, rest, hw⟩ := hdecimal
        rcases Nat.lt_or_ge (decimal.worth run) (2 ^ 64) with hn | hn
        · rw [hw.scanner_ok hn]
        · rw [hw.scanner_fail hn]
          rfl
      · rw [scanner_eq_fail fun mark run rest hw ↦ hdecimal ⟨mark, run, rest, hw⟩]
        rfl

/-- An overlong number is taken for the `0` that it begins with. -/
theorem unsigned_overlong (h : Overlong bytes) :
    ∃ rest, Direct.unsigned bytes = .ok [0x30] rest [.unsigned 0] := by
  obtain ⟨mark, run, rest, hw, hn⟩ := h
  obtain ⟨x, hx, hmark⟩ := mem_marks_hexadecimal.1 hw.mark_mem
  have hx : octal.isDigit x = false := by rcases hx with rfl | rfl <;> rfl
  have hzero : octal.Writes bytes [0x30] [] (x :: (run ++ rest)) :=
    ⟨by rw [hw.bytes_eq, hmark]; rfl, List.mem_singleton.2 rfl, nofun, by simpa using hx,
      .inr rfl⟩
  refine ⟨x :: (run ++ rest), ?_⟩
  show Scanner.firstOf [scanner hexadecimal, scanner octal, scanner decimal] bytes = _
  rw [Scanner.firstOf, hw.scanner_fail hn, Scanner.firstOf, hzero.scanner_ok (by decide)]
  rfl

end
end Radix
end DocGrammar
