import DocGrammar.Grammar.Rule

/-!
# Evaluating a rule

`Rule.evaluate` matches a rule at the cursor.  On entry it notes the position, and unless the rule
succeeds it goes back there, so a failed branch leaks neither consumed input nor results into the
rule around it.  There is no other choice point than `anyOf`, and what one has chosen is never
revisited.

A grammar may be recursive, and a recursive grammar need not terminate.  So the evaluator is given
a *budget*, the depth to which evaluations may be nested, and its answer is `none` if the budget
does not suffice.  One level of nesting is `Rule.step`: it matches a rule, with the evaluator for
the rules inside it as an argument.  Everything within one level terminates by itself — sequences
and choices by recursion on their rules, and a repetition because it only goes on when the cursor
has advanced.

The file goes from the inside out: sequences and choices, kinds, repetitions, modifiers, the
evaluator, and last the drivers that parse from a rule.
-/

set_option autoImplicit false

namespace DocGrammar

/-- One piece of evaluation: the reply to a state, or `none` if the budget did not suffice. -/
abbrev Step (input : Array UInt8) (U : Type) := State input U → Option (Reply input U)

/-- Runs a program, given how a symbol is matched. -/
def Program.run {N : Type} {input : Array UInt8} {U : Type} (match? : N → Step input U) :
    Program N input U → Option (Reply input U)
  | .done reply => some reply
  | .call symbol state next =>
    match match? symbol state with
    | none => none
    | some reply => (next reply).run match?

namespace Evaluate

variable {N U : Type} {input : Array UInt8}

/-! ## Sequences and choices -/

/-- Matches rules one after the other.  A rule that is left out is skipped, and the whole is left
out if all of its rules are; the first failure ends the sequence. -/
def inOrder (eval : Rule N U → Step input U) :
    List (Rule N U) → Outcome → Step input U
  | [], outcome, state => some (outcome, state)
  | rule :: rest, outcome, state =>
    match eval rule state with
    | none => none
    | some (.ok, state) => inOrder eval rest .ok state
    | some (.noMatch, state) => inOrder eval rest outcome state
    | some (.fail, state) => some (.fail, state)

/-- Tries rules from one position until one succeeds. -/
def firstOf (eval : Rule N U → Step input U) (start : Position) :
    List (Rule N U) → Step input U
  | [], state => some (.fail, state)
  | rule :: rest, state =>
    match eval rule state with
    | none => none
    | some (.ok, state) => some (.ok, state)
    | some (_, state) => firstOf eval start rest (state.restore start)

/-- Puts back the furthest failure from before a choice, and takes the furthest one of its attempts
into account. -/
def rejoin (outer : Option Failure) (state : State input U) : State input U :=
  let merged := { state with furthest := outer }
  match state.furthest with
  | some inner => merged.record inner
  | none => merged

/-- Ordered choice.  The attempts run with failures silenced and a furthest failure of their own.
If none succeeds, the furthest failure among them is committed; but a named choice none of whose
attempts got past its start, and a choice whose attempts recorded nothing, fails in its own name. -/
def choice (eval : Rule N U → Step input U) (name : Option String) (rules : List (Rule N U))
    (start : Position) : Step input U := fun state ↦
  let attempts := firstOf eval start rules { state.silenceErrors with furthest := none }
  match attempts with
  | none => none
  | some (outcome, ended) =>
    let state' := rejoin state.furthest ended.unsilenceErrors
    if outcome = .ok then some (.ok, state')
    else
      match ended.furthest with
      | some inner =>
        if start.offset < inner.offset ∨ name = none then
          some (.fail, state'.commitUnlessSilenced inner)
        else some (state'.failAt start.offset (.noAlternative name))
      | none => some (state'.failAt start.offset (.noAlternative name))

/-! ## Kinds -/

/-- Matches one byte that passes a test. -/
def oneByte (accepts : UInt8 → Bool) (reason : Reason) (state : State input U) : Reply input U :=
  match state.peek with
  | some b => if accepts b then (state.advance 1).okWith (.char b) else state.fail reason
  | none => state.fail reason

/-- Matches nothing, under a condition. -/
def given (condition : Bool) (reason : Reason) (state : State input U) : Reply input U :=
  if condition then (.ok, state) else state.fail reason

/-- Matches a byte string. -/
def literal (bytes : List UInt8) (start : Position) (state : State input U) : Reply input U :=
  if State.holdsAt input state.cursor bytes then
    let state := state.advance bytes.length
    state.okWith (.slice (state.matched start))
  else state.fail (.expectedLiteral bytes)

/-- Matches an opening byte, what is inside, and a closing byte.  The inside may be left out. -/
def bounded (opener closer : UInt8) (inside : Step input U) : Step input U := fun state ↦
  if state.peek = some opener then
    match inside (state.advance 1) with
    | none => none
    | some (.fail, state) => some (.fail, state)
    | some (_, state) =>
      if state.peek = some closer then some (.ok, state.advance 1)
      else some (state.fail (.expectedCloser closer))
  else some (state.fail (.expectedOpener opener))

/-- Matches a kind of rule.  `eval` evaluates the rules inside it. -/
def kind (g : Grammar N U) (eval : Rule N U → Step input U) (name : Option String)
    (k : Kind N U (Rule N U)) (start : Position) : Step input U := fun state ↦
  match k with
  | .nothing => some (.ok, state)
  | .atStart => some (given state.atStart .expectedStart state)
  | .atEnd => some (given state.atEnd .expectedEnd state)
  | .emptyInput => some (given (state.atStart && state.atEnd) .expectedEmpty state)
  | .byte b => some (oneByte (· == b) (.expectedByte b) state)
  | .range low high =>
    some (oneByte (fun b ↦ low ≤ b && b ≤ high) (.expectedRange low high) state)
  | .literal bytes => some (literal bytes start state)
  | .bounded opener closer inner => bounded opener closer (eval inner) state
  | .anyOf rules => choice eval name rules start state
  | .allOf rules => inOrder eval rules .noMatch state
  | .reference rule => eval rule state
  | .symbol n => eval (g n) state
  | .leaf action => (action state start).run fun n ↦ eval (g n)
  | .closing inner action =>
    match eval inner state with
    | none => none
    | some (.ok, state) =>
      if state.resultsSilenced = 0 then (action state start).run fun n ↦ eval (g n)
      else some (.ok, state)
    | some reply => some reply

/-! ## Repetition -/

/-- Goes on matching from wherever the last match ended, at most `rounds` times: as long as a match
succeeds and consumes input.  A match that succeeds on nothing is kept, and is the last; one that
does not succeed is undone. -/
def again (body : Position → Step input U) : Nat → State input U → Option (State input U)
  | 0, state => some state
  | rounds + 1, state =>
    match body state.position state with
    | none => none
    | some (.ok, state') =>
      if state.cursor < state'.cursor then again body rounds state' else some state'
    | some (_, state') => some (state'.restore state.position)

/-- Matches once, and then as often as possible with failures silenced.  Every round but the last
consumes input, so the rest of the input and one more bounds their number. -/
def repeated (body : Position → Step input U) (start : Position) : Step input U := fun state ↦
  match body start state with
  | none => none
  | some (.ok, state) =>
    match again body (input.size + 1 - state.cursor) state.silenceErrors with
    | none => none
    | some state => some (.ok, state.unsilenceErrors)
  | some reply => some reply

/-! ## Modifiers -/

/-- Matches with failures silenced, and turns failing into being left out. -/
def optional (body : Position → Step input U) (start : Position) : Step input U := fun state ↦
  match body start state.silenceErrors with
  | none => none
  | some (.fail, state) => some (.noMatch, state.unsilenceErrors.restore start)
  | some (outcome, state) => some (outcome, state.unsilenceErrors)

/-- Matches with results silenced. -/
def lookahead (body : Position → Step input U) (start : Position) : Step input U := fun state ↦
  match body start state.silenceResults with
  | none => none
  | some (outcome, state) => some (outcome, state.unsilenceResults)

/-- Matches with results silenced, and on success adds the span that was matched. -/
def flat (body : Position → Step input U) (start : Position) : Step input U := fun state ↦
  match lookahead body start state with
  | none => none
  | some (.ok, state) => some (.ok, state.push (.slice (state.matched start)))
  | some reply => some reply

/-- Wraps `wrapper` around `body` if `wanted`. -/
def wrapIf (wanted : Bool) (wrapper : (Position → Step input U) → Position → Step input U)
    (body : Position → Step input U) : Position → Step input U :=
  if wanted then wrapper body else body

/-- Applies a set of modifiers.  Of the two repetitions, the one that may match nothing subsumes the
other. -/
def modified (m : Modifiers) (body : Position → Step input U) : Position → Step input U :=
  wrapIf m.optional optional <|
  wrapIf m.lookahead lookahead <|
  wrapIf m.flat flat <|
  wrapIf m.repeatedOrNone optional <|
  wrapIf (m.repeated || m.repeatedOrNone) repeated body

end Evaluate

/-! ## The evaluator -/

namespace Rule

variable {N U : Type} {input : Array UInt8}

/-- Goes back to where a rule started, unless it succeeded. -/
def settle (start : Position) : Reply input U → Reply input U
  | (.ok, state) => (.ok, state)
  | (outcome, state) => (outcome, state.restore start)

/-- Matches a rule with its modifiers, given how the rules inside it are evaluated. -/
def step (g : Grammar N U) (eval : Rule N U → Step input U) (r : Rule N U) : Step input U :=
  fun state ↦
    let start := state.position
    let entered := state.noted fun _ ↦ .enter (r.label g) start.offset
    match Evaluate.modified r.modifiers (Evaluate.kind g eval r.name r.kind) start entered with
    | none => none
    | some reply =>
      let (outcome, left) := settle start reply
      some (outcome, left.noted fun _ ↦ .leave (r.label g) left.cursor outcome)

/-- Matches a rule at the cursor, with evaluations nested no deeper than `budget`. -/
def evaluate (g : Grammar N U) : Nat → Rule N U → Step input U
  | 0, _, _ => none
  | budget + 1, r, state => r.step g (evaluate g budget) state

end Rule

/-! ## Parsing from a rule

`evaluate` is the inside of a parse; the drivers are its outside.  Each clears the results and
diagnostics that earlier parses left, matches a rule at the cursor, and answers with the number of
bytes consumed or with the reported error:

* `State.parse` matches a rule;
* `State.test` does the same without results;
* `State.testWhole` also asks that the rule span the whole input;
* `parseBytes` parses from a fresh state.

Being left out counts as success: nothing was consumed, and nothing was wrong. -/

namespace State

variable {N U : Type} {input : Array UInt8}

/-- The answer of a driver, with the state it leaves. -/
abbrev Answer (input : Array UInt8) (U : Type) := Except ParseError Nat × State input U

/-- The answer to a reply to a match that started at `start`.  Only success brings the location up
to date. -/
def answer (start : Nat) : Reply input U → Answer input U
  | (.fail, state) =>
    let error := state.report
    (.error error, state.noted fun _ ↦ .report error)
  | (_, state) =>
    let state := state.sync
    (.ok (state.cursor - start), state)

/-- Runs a piece of evaluation as a parse of its own. -/
def drive (body : Step input U) (state : State input U) : Option (Answer input U) :=
  (body state.clearResults.clearErrors).map (answer state.cursor)

/-- Runs a driver with results silenced. -/
def quietly (driver : State input U → Option (Answer input U)) (state : State input U) :
    Option (Answer input U) :=
  (driver state.silenceResults).map fun (result, state) ↦ (result, state.unsilenceResults)

/-- Parses a rule at the cursor. -/
def parse (g : Grammar N U) (budget : Nat) (r : Rule N U) :
    State input U → Option (Answer input U) :=
  drive (r.evaluate g budget)

/-- Parses a rule at the cursor without results. -/
def test (g : Grammar N U) (budget : Nat) (r : Rule N U) :
    State input U → Option (Answer input U) :=
  quietly (parse g budget r)

/-- Matches the start of the input, a rule, and the end of the input. -/
def whole (g : Grammar N U) (budget : Nat) (r : Rule N U) : Step input U := fun state ↦
  if state.atStart then
    match r.evaluate g budget state with
    | none => none
    | some (.fail, state) => some (.fail, state)
    | some (_, state) =>
      if state.atEnd then some (.ok, state) else some (state.fail .expectedEnd)
  else some (state.fail .expectedStart)

/-- Tests whether a rule spans the whole input. -/
def testWhole (g : Grammar N U) (budget : Nat) (r : Rule N U) :
    State input U → Option (Answer input U) :=
  quietly (drive fun state ↦ (whole g budget r state).map (Rule.settle state.position))

end State

/-- Parses a byte string from a fresh state, and returns the state the parse left. -/
def parseBytes {N U : Type} (g : Grammar N U) (budget : Nat) (r : Rule N U) (input : Array UInt8)
    (user : U) : Option (Except ParseError (State input U)) :=
  ((State.start input user).parse g budget r).map fun (result, state) ↦
    result.map fun _ ↦ state

end DocGrammar
