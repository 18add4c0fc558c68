import DocGrammar.Proofs.Scan.Rest

/-!
# Scanners

A rule that leaves the grammar's data alone only takes a token off the input and adds values to the
result stack, and it does so without regard to anything but the rest of the input.  So it can be
described by a function on byte strings: a `Scanner`.

The scanners of this file are the engine's combinators without a state: `byte`, `word`, `inOrder`,
`firstOf`, `again`, `repeated` and the modifiers.  `Fits` relates what a scanner says to what a
piece of evaluation does, and for each combinator there is a lemma that a rule built by it scans
what the scanner built by it does, if the rules inside scan what the scanners inside do
(`inOrder_scans`, `choice_scans`, `repeated_scans` and so on).

Where results are silenced, actions are not run.  So rules with actions are described for states in
which results are heard (`loud`), and other rules for all states.
-/

set_option autoImplicit false

namespace DocGrammar

/-! ## Scanners and their combinators -/

/-- What a rule comes to on a byte string. -/
inductive Scan where
  /-- The byte string is a token and a rest, and the token gives rise to values. -/
  | ok (token rest : List UInt8) (values : List Value)
  | fail
  | noMatch

/-- A rule as a function of the rest of the input. -/
abbrev Scanner := List UInt8 → Scan

/-- A scan behind a token that was taken before. -/
def Scan.after (token : List UInt8) (values : List Value) : Scan → Scan
  | .ok token' rest values' => .ok (token ++ token') rest (values ++ values')
  | scan => scan

@[simp] theorem Scan.after_nil (scan : Scan) : scan.after [] [] = scan := by
  cases scan <;> rfl

namespace Scanner

/-- One byte that passes a test. -/
def byte (accepts : UInt8 → Bool) : Scanner
  | [] => .fail
  | b :: rest => if accepts b then .ok [b] rest [.char b] else .fail

/-- A byte string. -/
def word (bytes : List UInt8) : Scanner := fun input ↦
  if bytes.isPrefixOf input then .ok bytes (input.drop bytes.length) [.slice bytes] else .fail

/-- Scanners one after the other; `matched` tells whether one of those before has matched. -/
def inOrder : List Scanner → Bool → Scanner
  | [], matched, bytes => if matched then .ok [] bytes [] else .noMatch
  | p :: ps, matched, bytes =>
    match p bytes with
    | .ok token rest values => (inOrder ps true rest).after token values
    | .noMatch => inOrder ps matched bytes
    | .fail => .fail

/-- The first of several scanners that matches. -/
def firstOf : List Scanner → Scanner
  | [], _ => .fail
  | p :: ps, bytes =>
    match p bytes with
    | .ok token rest values => .ok token rest values
    | _ => firstOf ps bytes

/-- The same scanner over and over, at most `rounds` times. -/
def again (p : Scanner) : Nat → List UInt8 → List UInt8 × List UInt8 × List Value
  | 0, bytes => ([], bytes, [])
  | rounds + 1, bytes =>
    match p bytes with
    | .ok token rest values =>
      if token = [] then (token, rest, values)
      else
        let (token', rest', values') := again p rounds rest
        (token ++ token', rest', values ++ values')
    | _ => ([], bytes, [])

/-- The same scanner once or more often. -/
def repeated (p : Scanner) : Scanner := fun bytes ↦
  match p bytes with
  | .ok token rest values =>
    let (token', rest', values') := again p (rest.length + 1) rest
    .ok (token ++ token') rest' (values ++ values')
  | scan => scan

/-- Failing is being left out. -/
def optional (p : Scanner) : Scanner := fun bytes ↦
  match p bytes with
  | .fail => .noMatch
  | scan => scan

/-- Values are dropped. -/
def lookahead (p : Scanner) : Scanner := fun bytes ↦
  match p bytes with
  | .ok token rest _ => .ok token rest []
  | scan => scan

/-- The token as the only value. -/
def flat (p : Scanner) : Scanner := fun bytes ↦
  match lookahead p bytes with
  | .ok token rest _ => .ok token rest [.slice token]
  | scan => scan

/-- A scanner with a modifier, if it is wanted. -/
def wrapIf (wanted : Bool) (wrapper : Scanner → Scanner) (p : Scanner) : Scanner :=
  if wanted then wrapper p else p

/-- A scanner with a set of modifiers. -/
def modified (m : Modifiers) (p : Scanner) : Scanner :=
  wrapIf m.optional optional <|
  wrapIf m.lookahead lookahead <|
  wrapIf m.flat flat <|
  wrapIf m.repeatedOrNone optional <|
  wrapIf (m.repeated || m.repeatedOrNone) repeated p

/-- A scanner and an action on its token and values, which gives other values or fails. -/
def closing (p : Scanner) (act : List UInt8 → List Value → Option (List Value)) : Scanner :=
  fun bytes ↦
    match p bytes with
    | .ok token rest values =>
      match act token values with
      | some values' => .ok token rest values'
      | none => .fail
    | scan => scan

/-- An opening byte, what is inside, and a closing byte. -/
def bounded (opener closer : UInt8) (p : Scanner) : Scanner :=
  inOrder [lookahead (byte (· == opener)), p, lookahead (byte (· == closer))] false

end Scanner

/-! ## A reply fits a scan -/

variable {N U : Type} {input : Array UInt8}

/-- A reply is what a scan says, when the evaluation started in the state `s`.  What is left by a
rule that does not match is described by `left`. -/
inductive Fits (s : State input U) (left : State input U → Prop) : Scan → Reply input U → Prop
  | ok {token rest : List UInt8} {values : List Value} {s' : State input U}
      (h : s.Took token rest values s.user s') : Fits s left (.ok token rest values) (.ok, s')
  | fail {s' : State input U} (h : left s') : Fits s left .fail (.fail, s')
  | noMatch {s' : State input U} (h : left s') : Fits s left .noMatch (.noMatch, s')

namespace Fits

variable {s s₁ s' : State input U} {left : State input U → Prop} {scan : Scan}
  {outcome : Outcome}

/-- Diagnostics do not matter before, -/
theorem of_same (hs : s.Same s₁) {reply : Reply input U} (h : Fits s₁ s₁.Beyond scan reply) :
    Fits s s.Beyond scan reply := by
  cases h with
  | ok h => exact .ok (hs.trans_took (hs.user_eq ▸ h))
  | fail h => exact .fail (hs.beyond.trans h)
  | noMatch h => exact .noMatch (hs.beyond.trans h)

/-- nor after. -/
theorem trans_same (h : Fits s s.Beyond scan (outcome, s₁)) (hs : s₁.Same s') :
    Fits s s.Beyond scan (outcome, s') := by
  cases h with
  | ok h => exact .ok (h.trans_same hs)
  | fail h => exact .fail (h.trans hs.beyond)
  | noMatch h => exact .noMatch (h.trans hs.beyond)

/-- What fits behind a token fits the scan behind it. -/
theorem after {token rest : List UInt8} {values : List Value}
    (ht : s.Took token rest values s.user s₁) {reply : Reply input U}
    (h : Fits s₁ s₁.Beyond scan reply) : Fits s s.Beyond (scan.after token values) reply := by
  cases h with
  | ok h => exact .ok (ht.trans (ht.user_eq ▸ h))
  | fail h => exact .fail (ht.beyond.trans h)
  | noMatch h => exact .noMatch (ht.beyond.trans h)

theorem unsilenceErrors (h : Fits s.silenceErrors s.silenceErrors.Beyond scan (outcome, s')) :
    Fits s s.Beyond scan (outcome, s'.unsilenceErrors) := by
  cases h with
  | ok h => exact .ok h.unsilenceErrors
  | fail h => exact .fail ⟨h.toExtends.unsilenceErrors, h.user_eq⟩
  | noMatch h => exact .noMatch ⟨h.toExtends.unsilenceErrors, h.user_eq⟩

end Fits

/-! ## Pieces of evaluation that scan -/

/-- A piece of evaluation scans what a scanner does, and goes back if it does not match; in every
state, or only where results are heard. -/
def Scans (loud : Bool) (step : Step input U) (p : Scanner) : Prop :=
  ∀ s, (loud = true → s.resultsSilenced = 0) →
    ∃ reply, step s = some reply ∧ Fits s s.Same (p s.rest) reply

/-- A body scans what a scanner does. -/
def ScansFrom (loud : Bool) (body : Position → Step input U) (p : Scanner) : Prop :=
  ∀ s, (loud = true → s.resultsSilenced = 0) →
    ∃ reply, body s.position s = some reply ∧ Fits s s.Beyond (p s.rest) reply

end DocGrammar
