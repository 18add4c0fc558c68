import DocGrammar.Grammar.Leaf
import DocGrammar.Proofs.Direct.Reader
import DocGrammar.Proofs.Scan.Combinators

/-!
# Runs of bytes and repetitions

The simplest rules match bytes of a class, one or as many as there are.  Repeating a rule for one
byte takes the longest run (`Scanner.repeated_byte`), and a choice between bytes is a class again
(`Scanner.firstOf_byte`); so blanks, digits and identifiers all come to `List.takeWhile` and
`List.dropWhile`.

`Scanner.inOrder_repeated` is about repeating anything that takes a byte at least.  The number of
rounds is of no account then.
-/

set_option autoImplicit false

namespace DocGrammar

/-! ## Classes of bytes and runs -/

namespace Scanner

/-- As many bytes of a class as there are, and one at least. -/
def run (accepts : UInt8 → Bool) : Scanner := fun bytes ↦
  if bytes.takeWhile accepts = [] then .fail
  else
    .ok (bytes.takeWhile accepts) (bytes.dropWhile accepts)
      ((bytes.takeWhile accepts).map .char)

theorem again_byte (accepts : UInt8 → Bool) : ∀ (rounds : Nat) (bytes : List UInt8),
    bytes.length ≤ rounds → again (byte accepts) rounds bytes =
      (bytes.takeWhile accepts, bytes.dropWhile accepts, (bytes.takeWhile accepts).map .char)
  | 0, bytes, h => by
    rw [List.length_eq_zero_iff.1 (Nat.le_zero.1 h)]
    rfl
  | rounds + 1, [], _ => rfl
  | rounds + 1, b :: bytes, h => by
    rw [again, byte]
    by_cases hb : accepts b = true
    · simp [hb, again_byte accepts rounds bytes (Nat.le_of_succ_le_succ h)]
    · simp [hb]

theorem repeated_byte (accepts : UInt8 → Bool) : repeated (byte accepts) = run accepts := by
  funext bytes
  cases bytes with
  | nil => rfl
  | cons b bytes =>
    rw [repeated, byte, run]
    by_cases hb : accepts b = true
    · simp [hb, again_byte accepts _ bytes (Nat.le_succ _)]
    · simp [hb]

theorem firstOf_byte (classes : List (UInt8 → Bool)) :
    firstOf (classes.map byte) = byte (fun b ↦ classes.any (· b)) := by
  funext bytes
  induction classes with
  | nil => cases bytes <;> simp [firstOf, byte]
  | cons accepts classes ih =>
    rw [List.map_cons, firstOf, ih]
    cases bytes with
    | nil => rfl
    | cons b bytes => by_cases hb : accepts b = true <;> simp [byte, hb]

theorem inOrder_optional_run (accepts : UInt8 → Bool) (ps : List Scanner) (matched : Bool)
    (bytes : List UInt8) :
    inOrder (optional (run accepts) :: ps) matched bytes =
      (inOrder ps (matched || !(bytes.takeWhile accepts).isEmpty) (bytes.dropWhile accepts)).after
        (bytes.takeWhile accepts) ((bytes.takeWhile accepts).map .char) := by
  by_cases h : bytes.takeWhile accepts = []
  · have hdrop : bytes.dropWhile accepts = bytes := by
      have happend := List.takeWhile_append_dropWhile (p := accepts) (l := bytes)
      rwa [h] at happend
    simp [inOrder, optional, run, h, hdrop]
  · have hsome : (bytes.takeWhile accepts).isEmpty = false := by simpa using h
    simp [inOrder, optional, run, h, hsome]

/-! ## Repetitions that make progress -/

/-- A scanner that takes a byte at least. -/
def Consumes (p : Scanner) : Prop :=
  ∀ ⦃bytes token rest values⦄, p bytes = .ok token rest values →
    token ≠ [] ∧ rest.length < bytes.length

/-- More rounds than there are bytes make no difference. -/
theorem again_eq_of_lt {p : Scanner} (hp : p.Consumes) :
    ∀ {rounds rounds' : Nat} {bytes : List UInt8}, bytes.length < rounds →
      bytes.length < rounds' → again p rounds bytes = again p rounds' bytes
  | 0, _, _, h, _ => absurd h (Nat.not_lt_zero _)
  | _, 0, _, _, h => absurd h (Nat.not_lt_zero _)
  | rounds + 1, rounds' + 1, bytes, h, h' => by
    rw [again, again]
    cases hscan : p bytes with
    | ok token rest values =>
      obtain ⟨htoken, hshort⟩ := hp hscan
      have hrest : again p rounds rest = again p rounds' rest :=
        again_eq_of_lt hp (by omega) (by omega)
      simp only [if_neg htoken, hrest]
    | _ => rfl

/-- What an optional repetition comes to in a sequence. -/
theorem inOrder_repeated {p : Scanner} (hp : p.Consumes) (ps : List Scanner) (matched : Bool)
    (bytes : List UInt8) :
    ∃ token rest values, again p (bytes.length + 1) bytes = (token, rest, values) ∧
      inOrder (optional (repeated p) :: ps) matched bytes =
        (inOrder ps (matched || !token.isEmpty) rest).after token values ∧
      inOrder (flat (optional (repeated p)) :: ps) matched bytes =
        (inOrder ps (matched || !token.isEmpty) rest).after token
          (if token = [] then [] else [.slice token]) := by
  cases hscan : p bytes with
  | ok token rest values =>
    obtain ⟨htoken, hshort⟩ := hp hscan
    have hrest : again p bytes.length rest = again p (rest.length + 1) rest :=
      again_eq_of_lt hp hshort (Nat.lt_succ_self _)
    refine ⟨token ++ (again p (rest.length + 1) rest).1, (again p (rest.length + 1) rest).2.1,
      values ++ (again p (rest.length + 1) rest).2.2, ?_, ?_⟩
    · simp [again, hscan, htoken, hrest]
    · have hsome (more : List UInt8) : (token ++ more).isEmpty = false := by simp [htoken]
      simp [inOrder, flat, lookahead, optional, repeated, hscan, htoken, hsome]
  | _ =>
    refine ⟨[], bytes, [], ?_, ?_⟩
    · simp [again, hscan]
    · simp [inOrder, flat, lookahead, optional, repeated, hscan]

end Scanner

/-- The last span among values. -/
def lastSpan (values : List Value) : Option (List UInt8) := values.reverse.findSome? Value.slice?

/-! ## Rules for one byte -/

namespace Rule.Reads

variable {N U : Type} {g : Grammar N U} {loud : Bool} {depth : Nat} {name : Option String}
  {m : Modifiers}

/-- A choice between rules for one byte is a rule for one byte. -/
theorem oneOf {rules : List (Rule N U)} {classes : List (UInt8 → Bool)}
    {accepts : UInt8 → Bool} (h : List.Forall₂ (fun r c ↦
      r.Reads g (loud && !(m.lookahead || m.flat)) depth (.byte c)) rules classes)
    (hclasses : ∀ b, classes.any (· b) = accepts b) :
    Reads g loud (depth + 1) ⟨name, m, .anyOf rules⟩ (Scanner.modified m (.byte accepts)) := by
  rw [← funext hclasses, ← Scanner.firstOf_byte]
  exact anyOf (List.forall₂_map_right_iff.2 h)

end Rule.Reads

namespace Direct

variable {N U : Type} {g : Grammar N U} {loud : Bool}

theorem spaceMaybe_reads : (Leaf.spaceMaybe : Rule N U).Reads g loud 2
    (Scanner.optional (Scanner.lookahead (Scanner.run isBlank))) :=
  Scanner.repeated_byte isBlank ▸
    Rule.Reads.oneOf (.cons (.byte _) (.cons (.byte _) .nil)) fun b ↦ by simp [isBlank]

end Direct
end DocGrammar
