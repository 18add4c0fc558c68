import DocGrammar.Grammar.Rule

/-!
# Matching without a state

A rule that runs no actions can be understood without the engine.  It is a function of the input and
an offset: it succeeds with the offset behind what it matched and with values, or it fails, or it is
left out.  There is nothing to go back to, nothing to silence and nothing to cut off, because
nothing is changed.

This file writes that function down, as the meaning of parsing expressions is usually given:

* `Peg.inOrder` and `Peg.firstOf` are sequence and ordered choice;
* `Peg.greedy` goes on for as long as something is matched, and `Peg.repeated` is once and then
  that;
* `Peg.optional`, `Peg.lookahead` and `Peg.flat` only change what another function answers;
* `Rule.interpret` puts them together.

A rule may be recursive without ever taking a byte, so `Rule.interpret` is given a budget for the
depth of its recursion, and answers `none` if that does not suffice.  `Proofs.Peg.Adequacy` shows
that the engine does the same.
-/

set_option autoImplicit false

namespace DocGrammar

/-! ## Offsets and verdicts -/

/-- An offset of a byte of the input, or the offset behind the last one. -/
abbrev Offset (input : Array UInt8) := Fin (input.size + 1)

variable {input : Array UInt8}

/-- What a rule comes to at an offset. -/
inductive Verdict (input : Array UInt8) where
  /-- The rule matches up to another offset, and the match gives rise to values. -/
  | ok (stop : Offset input) (values : List Value)
  | fail
  | noMatch

/-- The outcome of a verdict. -/
def Verdict.outcome : Verdict input → Outcome
  | ok _ _ => .ok
  | fail => .fail
  | noMatch => .noMatch

/-- The offset that a verdict leads to from another: what does not match takes nothing. -/
def Verdict.stop (offset : Offset input) : Verdict input → Offset input
  | ok stop _ => stop
  | _ => offset

/-- The values that a verdict gives rise to. -/
def Verdict.values : Verdict input → List Value
  | ok _ values => values
  | _ => []

/-- A rule as a function of the offset; `none` if its recursion goes too deep. -/
abbrev Peg (input : Array UInt8) := Offset input → Option (Verdict input)

/-- The byte at an offset, and the offset behind it. -/
def byteAt (offset : Offset input) : Option (UInt8 × Offset input) :=
  if h : offset.val < input.size then
    some (input[offset.val], ⟨offset.val + 1, Nat.succ_lt_succ h⟩)
  else none

/-- The offset behind a byte string, if that is what stands at an offset. -/
def behind : List UInt8 → Offset input → Option (Offset input)
  | [], offset => some offset
  | b :: rest, offset =>
    match byteAt offset with
    | some (c, next) => if c = b then behind rest next else none
    | none => none

/-- The verdict on a sequence that has matched so far and goes on with a verdict. -/
def Verdict.after (stop : Offset input) (values : List Value) : Verdict input → Verdict input
  | ok stop' values' => ok stop' (values ++ values')
  | noMatch => ok stop values
  | fail => fail

namespace Peg

/-! ## Sequences and choices -/

/-- One after the other, each from where the one before has stopped.  What is left out is skipped,
and the whole is left out if everything in it is. -/
def inOrder : List (Peg input) → Peg input
  | [], _ => some .noMatch
  | p :: ps, offset =>
    match p offset with
    | none => none
    | some (.ok stop values) => (inOrder ps stop).map (Verdict.after stop values)
    | some .noMatch => inOrder ps offset
    | some .fail => some .fail

/-- The first that matches, all from the same offset. -/
def firstOf : List (Peg input) → Peg input
  | [], _ => some .fail
  | p :: ps, offset =>
    match p offset with
    | none => none
    | some (.ok stop values) => some (.ok stop values)
    | some _ => firstOf ps offset

/-! ## Kinds -/

/-- Matches nothing, at some offsets. -/
def given (condition : Offset input → Bool) : Peg input := fun offset ↦
  some (if condition offset then .ok offset [] else .fail)

/-- Matches one byte that passes a test. -/
def oneByte (accepts : UInt8 → Bool) : Peg input := fun offset ↦
  match byteAt offset with
  | some (b, next) => some (if accepts b then .ok next [.char b] else .fail)
  | none => some .fail

/-- Matches a byte string. -/
def literal (bytes : List UInt8) : Peg input := fun offset ↦
  match behind bytes offset with
  | some stop => some (.ok stop [.slice bytes])
  | none => some .fail

/-- The verdict on a match that still has to be closed. -/
def closed (closer : UInt8) (stop : Offset input) (values : List Value) : Verdict input :=
  match behind [closer] stop with
  | some last => .ok last values
  | none => .fail

/-- Matches between an opening and a closing byte.  The inside may be left out. -/
def bounded (opener closer : UInt8) (inside : Peg input) : Peg input := fun offset ↦
  match behind [opener] offset with
  | none => some .fail
  | some opened =>
    match inside opened with
    | none => none
    | some (.ok stop values) => some (closed closer stop values)
    | some .noMatch => some (closed closer opened [])
    | some .fail => some .fail

/-! ## Repetition -/

/-- Matches over and over, for as long as that takes input.  A match that takes none is the last
one; what does not match does not count. -/
def greedy (p : Peg input) (offset : Offset input) : Option (Offset input × List Value) :=
  match p offset with
  | none => none
  | some (.ok next values) =>
    if offset.val < next.val then
      (greedy p next).map fun (stop, more) ↦ (stop, values ++ more)
    else some (next, values)
  | some _ => some (offset, [])
termination_by input.size - offset.val
decreasing_by
  have := next.isLt
  omega

/-- Matches once or more often. -/
def repeated (p : Peg input) : Peg input := fun offset ↦
  match p offset with
  | none => none
  | some (.ok next values) =>
    (greedy p next).map fun (stop, more) ↦ .ok stop (values ++ more)
  | some verdict => some verdict

/-! ## Modifiers -/

/-- Failing is being left out. -/
def optional (p : Peg input) : Peg input := fun offset ↦
  match p offset with
  | some .fail => some .noMatch
  | verdict => verdict

/-- The values are dropped; the input is taken all the same. -/
def lookahead (p : Peg input) : Peg input := fun offset ↦
  match p offset with
  | some (.ok stop _) => some (.ok stop [])
  | verdict => verdict

/-- The span that was matched is the only value. -/
def flat (p : Peg input) : Peg input := fun offset ↦
  match p offset with
  | some (.ok stop _) => some (.ok stop [.slice (State.between input offset stop)])
  | verdict => verdict

/-- Wraps `wrapper` around `p` if `wanted`. -/
def wrapIf (wanted : Bool) (wrapper : Peg input → Peg input) (p : Peg input) : Peg input :=
  if wanted then wrapper p else p

/-- A set of modifiers, the repetition innermost. -/
def modified (m : Modifiers) (p : Peg input) : Peg input :=
  wrapIf m.optional optional <|
  wrapIf m.lookahead lookahead <|
  wrapIf m.flat flat <|
  wrapIf m.repeatedOrNone optional <|
  wrapIf (m.repeated || m.repeatedOrNone) repeated p

end Peg

/-! ## The interpreter -/

variable {N U : Type}

/-- What a kind of rule matches, given what the rules inside it do.  An action has no meaning
here. -/
def Kind.interpret (g : Grammar N U) (inner : Rule N U → Peg input) :
    Kind N U (Rule N U) → Peg input
  | .nothing => Peg.given fun _ ↦ true
  | .atStart => Peg.given fun offset ↦ offset.val == 0
  | .atEnd => Peg.given fun offset ↦ offset.val == input.size
  | .emptyInput => Peg.given fun offset ↦ offset.val == 0 && offset.val == input.size
  | .byte b => Peg.oneByte (· == b)
  | .range low high => Peg.oneByte fun b ↦ low ≤ b && b ≤ high
  | .literal bytes => Peg.literal bytes
  | .bounded opener closer rule => Peg.bounded opener closer (inner rule)
  | .anyOf rules => Peg.firstOf (rules.map inner)
  | .allOf rules => Peg.inOrder (rules.map inner)
  | .reference rule => inner rule
  | .symbol n => inner (g n)
  | .leaf _ => fun _ ↦ none
  | .closing _ _ => fun _ ↦ none

/-- What a rule matches, with its recursion no deeper than `budget`. -/
def Rule.interpret (g : Grammar N U) : Nat → Rule N U → Peg input
  | 0, _ => fun _ ↦ none
  | budget + 1, r => Peg.modified r.modifiers (r.kind.interpret g (Rule.interpret g budget))

end DocGrammar
