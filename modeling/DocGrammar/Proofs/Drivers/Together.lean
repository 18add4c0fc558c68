import DocGrammar.Proofs.Diagnostics.Committed
import DocGrammar.Proofs.SideBySide

/-!
# Drivers side by side

What `Indifferent` is for the engine, `Driven` is for the drivers around it: a relation between
states that they see nothing of.  Drivers do more than the engine, since they report failures and
count lines; but they also ask for less, because they begin by clearing results and diagnostics, and
states which are related from there on will do (`Cleared`).  So a driver answers the same in two
such states, and leaves related ones behind (`State.drivers_agree`).

There are three things that the engine neither looks at nor changes: the place from which lines are
counted, the trace, and the data of the grammar's own.  Two states may differ in the first two of
them (`State.Relocated`), and any relation between the first and the last may be asked for on top
(`Indifferent.and`).
-/

set_option autoImplicit false

namespace DocGrammar

variable {N U : Type} {input : Array UInt8} {R : State input U → State input U → Prop}

/-! ## What the engine does not touch -/

namespace State

/-- The two states count lines from the same place, and have the same data. -/
structure SamePlace (s t : State input U) : Prop where
  /-- The place has the same line and column. -/
  location_eq : t.location = s.location
  /-- The place has the same offset. -/
  synced_eq : t.synced = s.synced
  /-- The data is the same. -/
  user_eq : t.user = s.user

theorem SamePlace.refl (s : State input U) : s.SamePlace s := ⟨rfl, rfl, rfl⟩

theorem SamePlace.trans {s t u : State input U} (h : s.SamePlace t) (h' : t.SamePlace u) :
    s.SamePlace u :=
  ⟨h'.location_eq.trans h.location_eq, h'.synced_eq.trans h.synced_eq,
    h'.user_eq.trans h.user_eq⟩

theorem noted_samePlace (s : State input U) (event : Unit → Event) :
    s.SamePlace (s.noted event) := by
  unfold noted
  split
  · exact .refl s
  · exact ⟨rfl, rfl, rfl⟩

theorem commitUnlessSilenced_samePlace (s : State input U) (f : Failure) :
    s.SamePlace (s.commitUnlessSilenced f) := by
  unfold commitUnlessSilenced
  split
  · exact ⟨rfl, rfl, rfl⟩
  · exact .refl s

theorem failAt_samePlace (s : State input U) (offset : Nat) (reason : Reason) :
    s.SamePlace (s.failAt offset reason).2 := by
  have hrecorded (f : Failure) : s.SamePlace ((s.noted fun _ ↦ .failure f).record f) :=
    (s.noted_samePlace _).trans ⟨rfl, rfl, rfl⟩
  exact (hrecorded _).trans (commitUnlessSilenced_samePlace _ _)

theorem push_samePlace (s : State input U) (value : Value) : s.SamePlace (s.push value) := by
  unfold push
  split
  · exact ⟨rfl, rfl, rfl⟩
  · exact .refl s

end State

open State in
theorem Evaluate.conclude_samePlace (name : Option String) (offset : Nat)
    (before : State input U) (outcome : Outcome) (ended : State input U) :
    ended.SamePlace (conclude name offset before outcome ended) := by
  have hrejoin : ended.SamePlace (rejoin before.furthest ended.unsilenceErrors) := by
    unfold rejoin
    split
    · exact ⟨rfl, rfl, rfl⟩
    · exact ⟨rfl, rfl, rfl⟩
  unfold conclude
  split
  · exact hrejoin
  · split
    · split
      · exact hrejoin.trans (commitUnlessSilenced_samePlace _ _)
      · exact hrejoin.trans (failAt_samePlace _ _ _)
    · exact hrejoin.trans (failAt_samePlace _ _ _)

/-- A relation that is about nothing but places and data. -/
def Untouched (Q : State input U → State input U → Prop) : Prop :=
  ∀ ⦃s s' t t' : State input U⦄, Q s s' → s.SamePlace t → s'.SamePlace t' → Q t t'

/-- The engine is indifferent to whether two states are also in a relation that it does not
touch. -/
theorem Indifferent.and {Q : State input U → State input U → Prop} (hR : Indifferent R)
    (hQ : Untouched Q) : Indifferent fun s s' ↦ R s s' ∧ Q s s' where
  cursor_eq h := hR.cursor_eq h.1
  results_eq h := hR.results_eq h.1
  resultsSilenced_eq h := hR.resultsSilenced_eq h.1
  moveTo h offset := ⟨hR.moveTo h.1 offset, hQ h.2 ⟨rfl, rfl, rfl⟩ ⟨rfl, rfl, rfl⟩⟩
  replace h results := ⟨hR.replace h.1 results, hQ h.2 ⟨rfl, rfl, rfl⟩ ⟨rfl, rfl, rfl⟩⟩
  silenceErrors h := ⟨hR.silenceErrors h.1, hQ h.2 ⟨rfl, rfl, rfl⟩ ⟨rfl, rfl, rfl⟩⟩
  unsilenceErrors h := ⟨hR.unsilenceErrors h.1, hQ h.2 ⟨rfl, rfl, rfl⟩ ⟨rfl, rfl, rfl⟩⟩
  silenceResults h := ⟨hR.silenceResults h.1, hQ h.2 ⟨rfl, rfl, rfl⟩ ⟨rfl, rfl, rfl⟩⟩
  unsilenceResults h := ⟨hR.unsilenceResults h.1, hQ h.2 ⟨rfl, rfl, rfl⟩ ⟨rfl, rfl, rfl⟩⟩
  noted h event := ⟨hR.noted h.1 event,
    hQ h.2 (State.noted_samePlace _ event) (State.noted_samePlace _ event)⟩
  failAt h offset reason := ⟨hR.failAt h.1 offset reason,
    hQ h.2 (State.failAt_samePlace _ offset reason) (State.failAt_samePlace _ offset reason)⟩
  setAside h := ⟨hR.setAside h.1, hQ h.2 ⟨rfl, rfl, rfl⟩ ⟨rfl, rfl, rfl⟩⟩
  conclude h hended name offset outcome := ⟨hR.conclude h.1 hended.1 name offset outcome,
    hQ hended.2 (Evaluate.conclude_samePlace _ _ _ _ _) (Evaluate.conclude_samePlace _ _ _ _ _)⟩

namespace State

/-- The two states differ in nothing but the place from which lines are counted and in what has been
traced. -/
def Relocated (s s' : State input U) : Prop :=
  ∃ location synced trace, s' = { s with location, synced, trace }

theorem Relocated.noted {s s' : State input U} (h : s.Relocated s') (event : Unit → Event) :
    (s.noted event).Relocated (s'.noted event) := by
  obtain ⟨location, synced, trace, rfl⟩ := h
  rcases hold : s.trace with _ | old <;> rcases trace with _ | new
  all_goals simp only [State.noted, hold]
  all_goals exact ⟨_, _, _, rfl⟩

theorem Relocated.commitUnlessSilenced {s s' : State input U} (h : s.Relocated s') (f : Failure) :
    (s.commitUnlessSilenced f).Relocated (s'.commitUnlessSilenced f) := by
  obtain ⟨location, synced, trace, rfl⟩ := h
  unfold State.commitUnlessSilenced
  split
  · exact ⟨location, synced, trace, rfl⟩
  · exact ⟨location, synced, trace, rfl⟩

theorem Relocated.failAt {s s' : State input U} (h : s.Relocated s') (offset : Nat)
    (reason : Reason) : (s.failAt offset reason).2.Relocated (s'.failAt offset reason).2 := by
  refine Relocated.commitUnlessSilenced ?_ _
  obtain ⟨location, synced, trace, hnoted⟩ :=
    h.noted fun _ ↦ .failure ⟨offset, input[offset]?, reason⟩
  rw [hnoted]
  exact ⟨location, synced, trace, rfl⟩

theorem Relocated.conclude {s s' ended ended' : State input U} (h : s.Relocated s')
    (hended : ended.Relocated ended') (name : Option String) (offset : Nat) (outcome : Outcome) :
    (Evaluate.conclude name offset s outcome ended).Relocated
      (Evaluate.conclude name offset s' outcome ended') := by
  obtain ⟨_, _, _, rfl⟩ := h
  obtain ⟨location, synced, trace, rfl⟩ := hended
  have hrejoin : (Evaluate.rejoin s.furthest ended.unsilenceErrors).Relocated
      (Evaluate.rejoin s.furthest { ended with location, synced, trace }.unsilenceErrors) := by
    unfold Evaluate.rejoin
    dsimp only [State.unsilenceErrors]
    split
    · exact ⟨location, synced, trace, rfl⟩
    · exact ⟨location, synced, trace, rfl⟩
  unfold Evaluate.conclude
  dsimp only
  split
  · exact hrejoin
  · split
    · split
      · exact hrejoin.commitUnlessSilenced _
      · exact hrejoin.failAt _ _
    · exact hrejoin.failAt _ _

/-- The engine does not look at places and traces. -/
theorem Relocated.indifferent :
    Indifferent (Relocated : State input U → State input U → Prop) where
  cursor_eq := by
    rintro s _ ⟨location, synced, trace, rfl⟩
    rfl
  results_eq := by
    rintro s _ ⟨location, synced, trace, rfl⟩
    rfl
  resultsSilenced_eq := by
    rintro s _ ⟨location, synced, trace, rfl⟩
    rfl
  moveTo := by
    rintro s _ ⟨location, synced, trace, rfl⟩ offset
    exact ⟨location, synced, trace, rfl⟩
  replace := by
    rintro s _ ⟨location, synced, trace, rfl⟩ results
    exact ⟨location, synced, trace, rfl⟩
  silenceErrors := by
    rintro s _ ⟨location, synced, trace, rfl⟩
    exact ⟨location, synced, trace, rfl⟩
  unsilenceErrors := by
    rintro s _ ⟨location, synced, trace, rfl⟩
    exact ⟨location, synced, trace, rfl⟩
  silenceResults := by
    rintro s _ ⟨location, synced, trace, rfl⟩
    exact ⟨location, synced, trace, rfl⟩
  unsilenceResults := by
    rintro s _ ⟨location, synced, trace, rfl⟩
    exact ⟨location, synced, trace, rfl⟩
  noted := Relocated.noted
  failAt := Relocated.failAt
  setAside := by
    rintro s _ ⟨location, synced, trace, rfl⟩
    exact ⟨location, synced, trace, rfl⟩
  conclude := Relocated.conclude

end State

/-! ## Relations that drivers see nothing of -/

/-- Drivers do not see in what related states differ, and keep them related. -/
structure Driven (R : State input U → State input U → Prop) : Prop extends Indifferent R where
  /-- The location may be brought up to the cursor. -/
  sync : ∀ {s s'}, R s s' → R s.sync s'.sync
  /-- The report is the same. -/
  report_eq : ∀ {s s'}, R s s' → s'.report = s.report

/-- The cursor is the same, and what is left of the states when a driver has cleared results and
diagnostics is related. -/
structure Cleared (R : State input U → State input U → Prop) (s s' : State input U) : Prop where
  cursor_eq : s'.cursor = s.cursor
  related : R s.clearResults.clearErrors s'.clearResults.clearErrors

namespace State

/-- The same result, with related states. -/
structure Agree (R : State input U → State input U → Prop) (a a' : Answer input U) : Prop where
  result_eq : a'.1 = a.1
  related : R a.2 a'.2

theorem answer_agree (hR : Driven R) (start : Nat) {reply reply' : Reply input U}
    (h : SameReply R reply reply') : Agree R (answer start reply) (answer start reply') := by
  obtain ⟨outcome, s⟩ := reply
  obtain ⟨outcome', s'⟩ := reply'
  obtain ⟨rfl, hs⟩ := h
  have hsync := hR.sync hs
  cases outcome' with
  | fail =>
    refine ⟨congrArg Except.error (hR.report_eq hs), ?_⟩
    have hnoted := hR.noted hs fun _ ↦ .report s.report
    simp only [answer, hR.report_eq hs]
    exact hnoted
  | ok => exact ⟨congrArg (Except.ok <| · - start) (hR.cursor_eq hsync), hsync⟩
  | noMatch => exact ⟨congrArg (Except.ok <| · - start) (hR.cursor_eq hsync), hsync⟩

/-- Two pieces of evaluation that come to the same are driven to the same answer. -/
theorem drive_rel (hR : Driven R) {body body' : Step input U} {s s' : State input U}
    (hcursor : s'.cursor = s.cursor)
    (h : Option.Rel (SameReply R) (body s.clearResults.clearErrors)
      (body' s'.clearResults.clearErrors)) :
    Option.Rel (Agree R) (drive body s) (drive body' s') := by
  rw [drive, drive, hcursor]
  exact rel_map h fun _ _ hreply ↦ answer_agree hR _ hreply

theorem quietly_rel (hR : Indifferent R) {driver driver' : State input U → Option (Answer input U)}
    {s s' : State input U}
    (h : Option.Rel (Agree R) (driver s.silenceResults) (driver' s'.silenceResults)) :
    Option.Rel (Agree R) (quietly driver s) (quietly driver' s') :=
  rel_map h fun _ _ hagree ↦ ⟨hagree.result_eq, hR.unsilenceResults hagree.related⟩

theorem drive_agree (hR : Driven R) {body : Step input U} (hbody : Respects R body)
    {s s' : State input U} (h : Cleared R s s') :
    Option.Rel (Agree R) (drive body s) (drive body s') :=
  drive_rel hR h.cursor_eq (hbody h.related)

theorem quietly_agree (hR : Driven R) {driver : State input U → Option (Answer input U)}
    (hdriver : ∀ {s s'}, Cleared R s s' → Option.Rel (Agree R) (driver s) (driver s'))
    {s s' : State input U} (h : Cleared R s s') :
    Option.Rel (Agree R) (quietly driver s) (quietly driver s') :=
  quietly_rel hR.toIndifferent (hdriver ⟨h.cursor_eq, hR.silenceResults h.related⟩)

theorem whole_respects (hR : Indifferent R) {g : Grammar N U} {budget : Nat} {r : Rule N U}
    (hr : Respects R (r.evaluate g budget : Step input U)) :
    Respects R (whole g budget r : Step input U) := by
  intro s s' h
  -- what is done behind the rule, unless it failed
  have hend {s₁ s₁' : State input U} (hs : R s₁ s₁') :
      Option.Rel (SameReply R)
        (if s₁.atEnd then some (.ok, s₁) else some (s₁.fail .expectedEnd))
        (if s₁'.atEnd then some (.ok, s₁') else some (s₁'.fail .expectedEnd)) := by
    rw [hR.atEnd_eq hs]
    split
    · exact .some ⟨rfl, hs⟩
    · exact .some (hR.fail hs _)
  rw [whole, whole, hR.atStart_eq h]
  split
  · rcases hr.cases h with ⟨h₁, h₁'⟩ | ⟨_ | _ | _, s₁, s₁', h₁, h₁', hs⟩
    all_goals simp only [h₁, h₁']
    · exact .none
    · exact hend hs
    · exact .some ⟨rfl, hs⟩
    · exact hend hs
  · exact .some (hR.fail h _)

/-- The same, with going back to the start unless the whole matched. -/
theorem settled_whole_respects (hR : Indifferent R) {g : Grammar N U} {budget : Nat}
    {r : Rule N U} (hr : Respects R (r.evaluate g budget : Step input U)) :
    Respects R fun s : State input U ↦ (whole g budget r s).map (Rule.settle s.position) := by
  intro s s' h
  dsimp only
  rw [hR.position_eq h]
  exact rel_map (whole_respects hR hr h) fun _ _ hreply ↦ Rule.settle_respects hR hreply _

/-- **Drivers answer the same** in states that are related once they are cleared, and leave related
ones behind, if all actions involved respect the relation. -/
theorem drivers_agree (hR : Driven R) {g : Grammar N U} {budget : Nat} {r : Rule N U}
    (hr : ∀ action : Action N U, r.Involves g @action → RespectfulAction R @action)
    {driver : State input U → Option (Answer input U)} (hdriver : driver ∈ drivers g budget r)
    {s s' : State input U} (h : Cleared R s s') :
    Option.Rel (Agree R) (driver s) (driver s') := by
  have heval : Respects R (r.evaluate g budget : Step input U) :=
    Rule.evaluate_respects hR.toIndifferent budget hr
  simp only [drivers, List.mem_cons, List.not_mem_nil, or_false] at hdriver
  rcases hdriver with rfl | rfl | rfl
  · exact drive_agree hR heval h
  · exact quietly_agree hR (drive_agree hR heval) h
  · exact quietly_agree hR (drive_agree hR (settled_whole_respects hR.toIndifferent heval)) h

end State
end DocGrammar
