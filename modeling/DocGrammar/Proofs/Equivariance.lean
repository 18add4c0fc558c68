import DocGrammar.Grammar.Evaluate
import DocGrammar.Proofs.SideBySide

/-!
# Matching does not look at the grammar's data

The engine carries the grammar's data along and hands it to actions, and that is all it does with
it.  So if every action commutes with a function on the data, the whole evaluation does: matching
in a state whose data have been replaced comes to the same reply, with its data replaced.

An evaluation that commutes with a function is called *equivariant*.  That is a statement about two
runs side by side, of which one has other data, and so what has to be shown of the engine is what it
does to one state.
-/

set_option autoImplicit false

namespace DocGrammar

variable {N U : Type} {input : Array UInt8}

/-! ## Replacing the data -/

/-- A state with other data. -/
def State.mapUser (f : U → U) (s : State input U) : State input U := { s with user := f s.user }

/-- A reply whose state has other data. -/
def mapReply (f : U → U) (reply : Reply input U) : Reply input U := (reply.1, reply.2.mapUser f)

/-- A piece of evaluation that commutes with replacing the data. -/
def Equivariant (f : U → U) (step : Step input U) : Prop :=
  ∀ s, step (s.mapUser f) = (step s).map (mapReply f)

/-- An action that commutes with replacing the data, if the matching of symbols does. -/
def EquivariantAction (f : U → U) (action : Action N U) : Prop :=
  ∀ (input : Array UInt8) (match? : N → Step input U), (∀ n, Equivariant f (match? n)) →
    ∀ start, Equivariant f fun s ↦ (action s start).run match?

/-- A direct action that commutes with replacing the data. -/
def EquivariantReply (f : U → U) (act : DirectAction U) : Prop :=
  ∀ (input : Array UInt8) (s : State input U) (start : Position),
    act (s.mapUser f) start = mapReply f (act s start)

namespace State

variable (f : U → U) (s : State input U)

theorem mapUser_cursor : (s.mapUser f).cursor = s.cursor := rfl
theorem mapUser_furthest : (s.mapUser f).furthest = s.furthest := rfl
theorem mapUser_peek : (s.mapUser f).peek = s.peek := rfl
theorem mapUser_rest : (s.mapUser f).rest = s.rest := rfl

theorem mapUser_matched (start : Position) :
    (s.mapUser f).matched start = s.matched start :=
  rfl

theorem mapUser_resultsSince (start : Position) :
    (s.mapUser f).resultsSince start = s.resultsSince start :=
  rfl

theorem mapUser_sliceSince (start : Position) :
    (s.mapUser f).sliceSince start = s.sliceSince start :=
  rfl

theorem mapUser_noted (event : Unit → Event) :
    (s.mapUser f).noted event = (s.noted event).mapUser f := by
  obtain ⟨cursor, cursor_le, results, errorsSilenced, resultsSilenced, location, synced, error,
    furthest, trace, user⟩ := s
  cases trace with
  | none => rfl
  | some events => rfl

theorem mapUser_push (value : Value) : (s.mapUser f).push value = (s.push value).mapUser f := by
  unfold push
  split
  · next h => rw [if_pos (show s.resultsSilenced = 0 from h)]; rfl
  · next h => rw [if_neg (show ¬ s.resultsSilenced = 0 from h)]

theorem mapUser_commitUnlessSilenced (failure : Failure) :
    (s.mapUser f).commitUnlessSilenced failure = (s.commitUnlessSilenced failure).mapUser f := by
  unfold commitUnlessSilenced
  split
  · next h => rw [if_pos (show s.errorsSilenced = 0 from h)]; rfl
  · next h => rw [if_neg (show ¬ s.errorsSilenced = 0 from h)]

theorem mapUser_failAt (offset : Nat) (reason : Reason) :
    (s.mapUser f).failAt offset reason = mapReply f (s.failAt offset reason) := by
  rw [failAt, mapUser_noted]
  exact congrArg (Prod.mk Outcome.fail) (mapUser_commitUnlessSilenced f (State.record _ _) _)

theorem mapUser_fail (reason : Reason) :
    (s.mapUser f).fail reason = mapReply f (s.fail reason) :=
  mapUser_failAt f s s.cursor reason

theorem mapUser_okWith (value : Value) :
    (s.mapUser f).okWith value = mapReply f (s.okWith value) :=
  congrArg (Prod.mk Outcome.ok) (mapUser_push f s value)

theorem mapUser_okReplace (start : Position) (value : Value) :
    (s.mapUser f).okReplace start value = mapReply f (s.okReplace start value) :=
  mapUser_okWith f (s.truncate start) value

end State

/-- An action that has no symbol matched is judged by its reply. -/
theorem EquivariantReply.toAction {f : U → U} {act : DirectAction U}
    (h : EquivariantReply f act) : EquivariantAction (N := N) f (DirectAction.toAction act) :=
  fun _ _ _ start s ↦ congrArg some (h _ s start)

/-! ## The engine -/

/-- The second state is the first one with other data. -/
def State.Replaced (f : U → U) (s s' : State input U) : Prop := s' = s.mapUser f

/-- To commute with replacing the data is to come to the same in two states, of which one has other
data. -/
theorem equivariant_iff {f : U → U} {step : Step input U} :
    Equivariant f step ↔ Respects (State.Replaced f) step := by
  constructor
  · rintro h s _ rfl
    rw [h s]
    rcases step s with _ | reply
    · exact .none
    · exact .some ⟨rfl, rfl⟩
  · intro h s
    obtain ⟨h₁, h₁'⟩ | ⟨outcome, s₁, _, h₁, h₁', rfl⟩ := h.cases (s := s) rfl
    · rw [h₁, h₁']
      rfl
    · rw [h₁, h₁']
      rfl

theorem mapUser_rejoin (f : U → U) (outer : Option Failure) (s : State input U) :
    Evaluate.rejoin outer (s.mapUser f) = (Evaluate.rejoin outer s).mapUser f := by
  obtain ⟨cursor, cursor_le, results, errorsSilenced, resultsSilenced, location, synced, error,
    furthest, trace, user⟩ := s
  cases furthest with
  | none => rfl
  | some inner => rfl

theorem mapUser_conclude (f : U → U) (name : Option String) (offset : Nat)
    (s : State input U) (outcome : Outcome) (ended : State input U) :
    Evaluate.conclude name offset (s.mapUser f) outcome (ended.mapUser f) =
      (Evaluate.conclude name offset s outcome ended).mapUser f := by
  have hrejoin : Evaluate.rejoin s.furthest (ended.mapUser f).unsilenceErrors =
      (Evaluate.rejoin s.furthest ended.unsilenceErrors).mapUser f :=
    mapUser_rejoin f s.furthest ended.unsilenceErrors
  simp only [Evaluate.conclude, State.mapUser_furthest, hrejoin]
  split
  · rfl
  · split
    · split
      · exact State.mapUser_commitUnlessSilenced f _ _
      · exact congrArg Prod.snd (State.mapUser_failAt f _ _ _)
    · exact congrArg Prod.snd (State.mapUser_failAt f _ _ _)

/-- The engine is indifferent to the data. -/
theorem State.Replaced.indifferent (f : U → U) :
    Indifferent (State.Replaced f : State input U → State input U → Prop) where
  cursor_eq := by
    rintro s _ rfl
    rfl
  results_eq := by
    rintro s _ rfl
    rfl
  resultsSilenced_eq := by
    rintro s _ rfl
    rfl
  moveTo := by
    rintro s _ rfl offset
    rfl
  replace := by
    rintro s _ rfl results
    rfl
  silenceErrors := by
    rintro s _ rfl
    rfl
  unsilenceErrors := by
    rintro s _ rfl
    rfl
  silenceResults := by
    rintro s _ rfl
    rfl
  unsilenceResults := by
    rintro s _ rfl
    rfl
  noted := by
    rintro s _ rfl event
    exact mapUser_noted f s event
  failAt := by
    rintro s _ rfl offset reason
    exact congrArg Prod.snd (mapUser_failAt f s offset reason)
  setAside := by
    rintro s _ rfl
    rfl
  conclude := by
    rintro s _ ended _ rfl rfl name offset outcome
    exact mapUser_conclude f name offset s outcome ended

namespace Rule

variable {f : U → U} {g : Grammar N U}

/-- **Matching does not look at the data.**  If all actions commute with a function on the data, so
does the evaluation of every rule. -/
theorem evaluate_equivariant (hg : ∀ n, (g n).Every (EquivariantAction f)) (budget : Nat)
    {r : Rule N U} (hr : r.Every (EquivariantAction f)) :
    Equivariant f (r.evaluate g budget : Step input U) := by
  rw [equivariant_iff]
  induction budget generalizing r with
  | zero => exact fun _ _ _ ↦ .none
  | succ budget ih =>
    refine step_respects (State.Replaced.indifferent f)
      (fun rule hrule ↦ ih (hr.of_mem_inner hg hrule)) fun action hruns start ↦ ?_
    exact equivariant_iff.1 (hr.of_runs hruns _ _ (fun n ↦ equivariant_iff.2 (ih (hg n))) start)

end Rule

namespace State

variable {f : U → U} {g : Grammar N U}

/-- The answer of a driver, with other data in the state it leaves. -/
def Answer.mapUser (f : U → U) (answer : Answer input U) : Answer input U :=
  (answer.1, answer.2.mapUser f)

/-- A parse comes to the same answer, location and message of an error included. -/
theorem parse_mapUser (hg : ∀ n, (g n).Every (EquivariantAction f)) (budget : Nat) {r : Rule N U}
    (hr : r.Every (EquivariantAction f)) (s : State input U) :
    (s.mapUser f).parse g budget r = (s.parse g budget r).map (Answer.mapUser f) := by
  have hevaluate : r.evaluate g budget (s.mapUser f).clearResults.clearErrors =
      (r.evaluate g budget s.clearResults.clearErrors).map (mapReply f) :=
    Rule.evaluate_equivariant hg budget hr s.clearResults.clearErrors
  simp only [parse, drive, hevaluate]
  rcases r.evaluate g budget s.clearResults.clearErrors with _ | ⟨_ | _ | _, s₁⟩
  · rfl
  · rfl
  · exact congrArg (fun s' ↦ some (Except.error s₁.report, s')) (mapUser_noted f s₁ _)
  · rfl

end State
end DocGrammar
