import DocGrammar.Grammar.Failure
import DocGrammar.Number.Format

/-!
# The state of a parse

Rules leave their results on a stack.  A `Value` is one such result: what a leaf read, the span of
input a rule matched, or something only the grammar's own actions know how to read.

A `State input U` is everything a parse of `input` carries along: the cursor, the results so far,
two counters that silence results and failures, the diagnostics, and data `U` of the grammar's own.
The input is a parameter of the type, so nothing that runs can change it, and the cursor comes with
the proof that it lies within the input.

A `Position` — the cursor and the height of the result stack — is all that backtracking restores.
Diagnostics survive it: `error` is the committed failure, which only a rule outside every silenced
part can set, and `furthest` the failure with the greatest offset among all that were
recorded.  Both prefer the later of two failures at one offset, and `report` prefers the committed
one.

Lines and columns are counted on demand, from the place where a parse last ended (`synced`) if the
offset is not before it.
-/

set_option autoImplicit false

namespace DocGrammar

/-! ## Outcomes and results -/

/-- What evaluating a rule came to. -/
inductive Outcome where
  /-- The rule matched. -/
  | ok
  /-- The input is wrong here, and a failure has been recorded. -/
  | fail
  /-- The rule was left out, as it may be. -/
  | noMatch
  deriving DecidableEq

/-- The name of an outcome. -/
def Outcome.name : Outcome → String
  | .ok => "Ok"
  | .fail => "Fail"
  | .noMatch => "NoMatch"

/-- A result. -/
inductive Value where
  | null
  | bool (value : Bool)
  | char (byte : UInt8)
  | signed (value : Int64)
  | unsigned (value : UInt64)
  | float (value : Binary64)
  /-- A handle whose meaning is up to the grammar. -/
  | pointer (handle : Nat)
  /-- A span of the input. -/
  | slice (bytes : List UInt8)
  /-- A value of the grammar's own kind. -/
  | user (tag : UInt32) (data : Nat)
  deriving DecidableEq

namespace Value

/-- The bytes of a span. -/
def slice? : Value → Option (List UInt8)
  | slice bytes => some bytes
  | _ => none

/-- An integer as a signed one, if it is small enough. -/
def toInt64? : Value → Option Int64
  | signed value => some value
  | unsigned value =>
    if value.toNat < 0x8000000000000000 then some (Int64.ofNat value.toNat) else none
  | _ => none

/-- A number as a float; an integer is rounded to the nearest one. -/
def toFloat? : Value → Option Binary64
  | float value => some value
  | signed value => some (.ofInt .binary64 value.toInt)
  | unsigned value => some (.ofInt .binary64 value.toNat)
  | _ => none

end Value

/-! ## Positions, events and states -/

/-- What backtracking restores. -/
structure Position where
  offset : Nat
  /-- The height of the result stack. -/
  results : Nat
  deriving DecidableEq

/-- What a traced parse writes down. -/
inductive Event where
  | enter (label : String) (offset : Nat)
  | leave (label : String) (offset : Nat) (outcome : Outcome)
  /-- A failure, whether it is reported in the end or not. -/
  | failure (failure : Failure)
  /-- The report of a failed parse. -/
  | report (error : ParseError)
  deriving DecidableEq

/-- The log line of an event; single failures have none. -/
def Event.line? : Event → Option String
  | enter label offset => some ("TRACE enter " ++ label ++ " at " ++ Dump.nat offset)
  | leave label offset outcome =>
    some ("TRACE leave " ++ label ++ " at " ++ Dump.nat offset ++ " with " ++ outcome.name)
  | failure _ => none
  | report error => some ("DEBUG parse failed: " ++ error.text)

/-- The state of a parse of `input`. -/
structure State (input : Array UInt8) (U : Type) where
  cursor : Nat := 0
  cursor_le : cursor ≤ input.size := by exact Nat.zero_le _
  /-- The result stack, the newest last. -/
  results : List Value := []
  /-- How many enclosing rules silence failures. -/
  errorsSilenced : Nat := 0
  /-- How many enclosing rules silence results. -/
  resultsSilenced : Nat := 0
  /-- The place where a parse last ended. -/
  location : Location := {}
  /-- The offset of that place. -/
  synced : Nat := 0
  /-- The committed failure. -/
  error : Option Failure := none
  /-- The furthest failure, committed or not. -/
  furthest : Option Failure := none
  /-- What has been traced, if this parse is traced at all. -/
  trace : Option (Array Event) := none
  /-- The grammar's own data. -/
  user : U

/-- An outcome with the state it leaves. -/
abbrev Reply (input : Array UInt8) (U : Type) := Outcome × State input U

namespace State

variable {input : Array UInt8} {U : Type}

/-- The state at the start of an input, before anything is parsed. -/
def start (input : Array UInt8) (user : U) : State input U := { user }

/-! ## The cursor -/

/-- At the start of the input. -/
def atStart (s : State input U) : Bool := s.cursor == 0

/-- At the end of the input. -/
def atEnd (s : State input U) : Bool := s.cursor == input.size

/-- The byte `ahead` bytes after the cursor. -/
def peekAt (s : State input U) (ahead : Nat) : Option UInt8 := input[s.cursor + ahead]?

/-- The byte at the cursor. -/
def peek (s : State input U) : Option UInt8 := input[s.cursor]?

/-- The input between two offsets. -/
def between (input : Array UInt8) (low high : Nat) : List UInt8 := (input.extract low high).toList

/-- The input from the cursor on. -/
def rest (s : State input U) : List UInt8 := between input s.cursor input.size

/-- The input consumed since a position. -/
def matched (s : State input U) (start : Position) : List UInt8 :=
  between input (min start.offset s.cursor) s.cursor

/-- Whether the input holds the given bytes at an offset. -/
def holdsAt (input : Array UInt8) (offset : Nat) : List UInt8 → Bool
  | [] => true
  | b :: rest => input[offset]? == some b && holdsAt input (offset + 1) rest

/-- Moves the cursor to an offset, or to the end of the input if the offset lies beyond it. -/
def moveTo (s : State input U) (offset : Nat) : State input U :=
  { s with cursor := min offset input.size, cursor_le := Nat.min_le_right _ _ }

/-- Consumes `n` bytes, or as many as there are. -/
def advance (s : State input U) (n : Nat) : State input U := s.moveTo (s.cursor + n)

/-! ## Positions -/

/-- The current position. -/
def position (s : State input U) : Position := ⟨s.cursor, s.results.length⟩

/-- Goes back to a position: later results are dropped. -/
def restore (s : State input U) (start : Position) : State input U :=
  { s.moveTo start.offset with results := s.results.take start.results }

/-! ## Results -/

/-- The results since a position. -/
def resultsSince (s : State input U) (start : Position) : List Value :=
  s.results.drop start.results

/-- The last span among the results since a position. -/
def sliceSince (s : State input U) (start : Position) : Option (List UInt8) :=
  (s.resultsSince start).reverse.findSome? Value.slice?

/-- Drops all results. -/
def clearResults (s : State input U) : State input U := { s with results := [] }

/-- Adds a result, unless results are silenced. -/
def push (s : State input U) (value : Value) : State input U :=
  if s.resultsSilenced = 0 then { s with results := s.results ++ [value] } else s

/-- Drops the results since a position. -/
def truncate (s : State input U) (start : Position) : State input U :=
  { s with results := s.results.take start.results }

/-- Succeeds with a result. -/
def okWith (s : State input U) (value : Value) : Reply input U := (.ok, s.push value)

/-- Succeeds, with one result in place of all those since a position. -/
def okReplace (s : State input U) (start : Position) (value : Value) : Reply input U :=
  (s.truncate start).okWith value

/-- Succeeds without the results since a position. -/
def okTruncate (s : State input U) (start : Position) : Reply input U := (.ok, s.truncate start)

/-! ## Silencing -/

def silenceErrors (s : State input U) : State input U :=
  { s with errorsSilenced := s.errorsSilenced + 1 }

/-- Undoes one `silenceErrors`; does nothing if there is none to undo. -/
def unsilenceErrors (s : State input U) : State input U :=
  { s with errorsSilenced := s.errorsSilenced - 1 }

def silenceResults (s : State input U) : State input U :=
  { s with resultsSilenced := s.resultsSilenced + 1 }

/-- Undoes one `silenceResults`; does nothing if there is none to undo. -/
def unsilenceResults (s : State input U) : State input U :=
  { s with resultsSilenced := s.resultsSilenced - 1 }

/-! ## Diagnostics -/

/-- Writes down an event, if the parse is traced. -/
def noted (s : State input U) (event : Unit → Event) : State input U :=
  match s.trace with
  | none => s
  | some events => { s with trace := some (events.push (event ())) }

/-- The later of two failures, unless the earlier one lies further on. -/
def later (earlier : Option Failure) (f : Failure) : Option Failure :=
  match earlier with
  | none => some f
  | some e => if e.offset ≤ f.offset then some f else some e

/-- Takes a failure into account for the furthest one. -/
def record (s : State input U) (f : Failure) : State input U :=
  { s with furthest := later s.furthest f }

/-- Takes a failure into account for the committed one. -/
def commit (s : State input U) (f : Failure) : State input U :=
  { s with error := later s.error f }

/-- Commits a failure unless failures are silenced. -/
def commitUnlessSilenced (s : State input U) (f : Failure) : State input U :=
  if s.errorsSilenced = 0 then s.commit f else s

/-- Fails at an offset. -/
def failAt (s : State input U) (offset : Nat) (reason : Reason) : Reply input U :=
  let f : Failure := ⟨offset, input[offset]?, reason⟩
  (.fail, ((s.noted fun _ ↦ .failure f).record f).commitUnlessSilenced f)

/-- Fails at the cursor. -/
def fail (s : State input U) (reason : Reason) : Reply input U := s.failAt s.cursor reason

/-- Forgets all failures. -/
def clearErrors (s : State input U) : State input U := { s with error := none, furthest := none }

/-! ## Locations -/

/-- The line and column of an offset. -/
def locate (s : State input U) (offset : Nat) : Location :=
  let stop := min offset input.size
  if s.synced ≤ offset then s.location.skip (between input s.synced stop)
  else ({} : Location).skip (between input 0 stop)

/-- Brings the location up to the cursor. -/
def sync (s : State input U) : State input U :=
  { s with location := s.locate s.cursor, synced := s.cursor }

/-- The failure to report: the furthest, but the committed one if that is as far. -/
def reported (s : State input U) : Option Failure :=
  match s.error, s.furthest with
  | some error, some furthest =>
    if error.offset < furthest.offset then some furthest else some error
  | some error, none => some error
  | none, furthest => furthest

/-- Describes why the parse failed. -/
def report (s : State input U) : ParseError :=
  match s.reported with
  | some f => .clipped (s.locate f.offset) f.message
  | none => .clipped (s.locate s.cursor) "syntax error"

/-! ## What the operations leave alone

Diagnostics are the business of `noted`, `record` and `commit`, and of nothing else.  So a failure
changes none of the fields that the matching of rules depends on. -/

section Frame

variable (s : State input U) (event : Unit → Event) (f : Failure) (offset : Nat) (reason : Reason)

@[simp] theorem noted_cursor : (s.noted event).cursor = s.cursor := by
  unfold noted; split <;> rfl

@[simp] theorem noted_results : (s.noted event).results = s.results := by
  unfold noted; split <;> rfl

@[simp] theorem noted_errorsSilenced : (s.noted event).errorsSilenced = s.errorsSilenced := by
  unfold noted; split <;> rfl

@[simp] theorem noted_resultsSilenced : (s.noted event).resultsSilenced = s.resultsSilenced := by
  unfold noted; split <;> rfl

@[simp] theorem noted_user : (s.noted event).user = s.user := by
  unfold noted; split <;> rfl

@[simp] theorem record_cursor : (s.record f).cursor = s.cursor := rfl
@[simp] theorem record_results : (s.record f).results = s.results := rfl
@[simp] theorem record_errorsSilenced : (s.record f).errorsSilenced = s.errorsSilenced := rfl
@[simp] theorem record_resultsSilenced : (s.record f).resultsSilenced = s.resultsSilenced := rfl
@[simp] theorem record_user : (s.record f).user = s.user := rfl

@[simp] theorem commitUnlessSilenced_cursor : (s.commitUnlessSilenced f).cursor = s.cursor := by
  unfold commitUnlessSilenced; split <;> rfl

@[simp] theorem commitUnlessSilenced_results : (s.commitUnlessSilenced f).results = s.results := by
  unfold commitUnlessSilenced; split <;> rfl

@[simp] theorem commitUnlessSilenced_errorsSilenced :
    (s.commitUnlessSilenced f).errorsSilenced = s.errorsSilenced := by
  unfold commitUnlessSilenced; split <;> rfl

@[simp] theorem commitUnlessSilenced_resultsSilenced :
    (s.commitUnlessSilenced f).resultsSilenced = s.resultsSilenced := by
  unfold commitUnlessSilenced; split <;> rfl

@[simp] theorem commitUnlessSilenced_user : (s.commitUnlessSilenced f).user = s.user := by
  unfold commitUnlessSilenced; split <;> rfl

@[simp] theorem fail_eq : s.fail reason = s.failAt s.cursor reason := rfl

@[simp] theorem failAt_outcome : (s.failAt offset reason).1 = .fail := rfl

@[simp] theorem failAt_cursor : (s.failAt offset reason).2.cursor = s.cursor := by simp [failAt]

@[simp] theorem failAt_results : (s.failAt offset reason).2.results = s.results := by simp [failAt]

@[simp] theorem failAt_errorsSilenced :
    (s.failAt offset reason).2.errorsSilenced = s.errorsSilenced := by simp [failAt]

@[simp] theorem failAt_resultsSilenced :
    (s.failAt offset reason).2.resultsSilenced = s.resultsSilenced := by simp [failAt]

@[simp] theorem failAt_user : (s.failAt offset reason).2.user = s.user := by simp [failAt]

end Frame

end State
end DocGrammar
