import DocGrammar.Proofs.Diagnostics.Furthest

/-!
# Testing the whole input

Whether a rule spans the whole input could be asked by testing a rule around it, which begins at the
start and ends at the end.  `State.testWhole` does not build that rule, but goes through the same
motions itself.  It comes to the same, down to the diagnostics and to where the cursor is left; only
the trace tells the difference, in which the rules around are missing.

So the rule inside starts from a state in which something else has been traced, or from the very
same if nothing is (`State.Annotated`), and from there on nothing but the trace differs.
-/

set_option autoImplicit false

namespace DocGrammar

variable {N U : Type} {input : Array UInt8}

namespace State

/-! ## Writing something down -/

/-- Something was written down between the two states, if the parse is traced. -/
structure Annotated (s s' : State input U) : Prop where
  retraced : s.Retraced s'
  eq_of_untraced : s.trace = none → s' = s

theorem Annotated.refl (s : State input U) : s.Annotated s := ⟨.refl s, fun _ ↦ rfl⟩

theorem Annotated.noted {s s' : State input U} (h : s.Annotated s') (event : Unit → Event) :
    s.Annotated (s'.noted event) := by
  refine ⟨h.retraced.noted event, fun hs ↦ ?_⟩
  rw [h.eq_of_untraced hs, State.noted, hs]

end State

/-! ## The rule around -/

namespace Rule

variable {g : Grammar N U} {budget : Nat} {r : Rule N U} {s s' : State input U}

/-- A rule without modifiers is its kind, with something written down before and after. -/
theorem evaluate_unmodified (g : Grammar N U) (budget : Nat) {r : Rule N U} (hr : r.modifiers = {})
    (s : State input U) :
    ∃ (enter : Unit → Event) (leave : Reply input U → Unit → Event),
      r.evaluate g (budget + 1) s =
        (Evaluate.kind g (evaluate g budget) r.name r.kind s.position (s.noted enter)).map
          fun reply ↦ ((settle s.position reply).1,
            (settle s.position reply).2.noted (leave reply)) := by
  have hbody (body : Position → Step input U) : Evaluate.modified r.modifiers body = body := by
    rw [hr]
    rfl
  refine ⟨fun _ ↦ .enter (r.label g) s.position.offset,
    fun reply _ ↦ .leave (r.label g) (settle s.position reply).2.cursor
      (settle s.position reply).1, ?_⟩
  rw [evaluate, step, hbody]
  split
  · next h =>
    rw [h]
    rfl
  · next h =>
    rw [h]
    rfl

/-- Nothing is undone where nothing was matched. -/
theorem settle_given (condition : Bool) (reason : Reason) (s : State input U) :
    settle s.position (Evaluate.given condition reason s) =
      Evaluate.given condition reason s := by
  have hback : (s.fail reason).2.restore s.position = (s.fail reason).2 :=
    restore_eq_self (by simp [State.position]) (by simp [State.position])
  cases condition with
  | true => rfl
  | false => exact congrArg (Prod.mk Outcome.fail) hback

/-- A rule that matches nothing, under a condition. -/
theorem evaluate_given (g : Grammar N U) (budget : Nat) {r : Rule N U} (hr : r.modifiers = {})
    (s : State input U) (condition : Bool) (reason : Reason)
    (hkind : ∀ event, Evaluate.kind g (evaluate g budget) r.name r.kind s.position (s.noted event) =
      some (Evaluate.given condition reason (s.noted event))) :
    ∃ enter leave, r.evaluate g (budget + 1) s =
      some ((Evaluate.given condition reason (s.noted enter)).1,
        (Evaluate.given condition reason (s.noted enter)).2.noted leave) := by
  obtain ⟨enter, leave, h⟩ := evaluate_unmodified g budget hr s
  have hsettle := settle_given condition reason (s.noted enter)
  rw [(s.noted_same enter).position_eq] at hsettle
  exact ⟨enter, _, by rw [h, hkind, Option.map_some, hsettle]⟩

/-- The rule inside comes to the same after something was written down.  If nothing is, its actions
may even look at the trace. -/
theorem evaluate_annotated (budget : Nat)
    (hr : s.trace = none ∨ ∀ action : Action N U, r.Involves g @action → UntracingAction @action)
    (h : s.Annotated s') :
    Option.Rel (SameReply State.Retraced) (r.evaluate g budget s) (r.evaluate g budget s') := by
  rcases hr with hs | hr
  · rw [h.eq_of_untraced hs]
    cases r.evaluate g budget s with
    | none => exact .none
    | some reply => exact .some ⟨rfl, .refl reply.2⟩
  · exact evaluate_respects State.Retraced.indifferent budget
      (fun action hinvolves ↦ hr @action hinvolves input) h.retraced

/-- At the end of the input, or not. -/
theorem inOrder_atEnd (h : s.Retraced s') :
    Option.Rel (SameReply State.Retraced)
      (if s.atEnd then some (.ok, s) else some (s.fail .expectedEnd))
      (Evaluate.inOrder (evaluate g (budget + 1)) [.atEnd] .ok s') := by
  obtain ⟨enter, leave, hatEnd⟩ :=
    evaluate_given g budget (r := .atEnd) rfl s' s.atEnd .expectedEnd fun event ↦ by
      rw [← State.Retraced.lockstep.atEnd_eq (i := ()) (h.noted event)]
      rfl
  have hgiven := Evaluate.given_simulates State.Retraced.lockstep (i := ()) (h.noted enter) s.atEnd
    .expectedEnd
  rw [Evaluate.inOrder, hatEnd]
  cases hend : s.atEnd with
  | true => exact .some ⟨rfl, (h.noted enter).noted leave⟩
  | false =>
    rw [hend] at hgiven
    exact .some ⟨rfl, hgiven.related.noted leave⟩

/-- The rules inside the rule around, one after the other. -/
theorem inOrder_wrapped (budget : Nat)
    (hr : s.trace = none ∨ ∀ action : Action N U, r.Involves g @action → UntracingAction @action)
    (h : s.Annotated s') :
    Option.Rel (SameReply State.Retraced) (State.whole g (budget + 1) r s)
      (Evaluate.inOrder (evaluate g (budget + 1)) [.atStart, r, .atEnd] .noMatch s') := by
  obtain ⟨enter, leave, hatStart⟩ :=
    evaluate_given g budget (r := .atStart) rfl s' s.atStart .expectedStart fun event ↦ by
      rw [← State.Retraced.lockstep.atStart_eq (i := ()) (h.retraced.noted event)]
      rfl
  have hgiven := Evaluate.given_simulates State.Retraced.lockstep (i := ()) (h.retraced.noted enter)
    s.atStart .expectedStart
  rw [State.whole, Evaluate.inOrder, hatStart]
  cases hstart : s.atStart with
  | false =>
    rw [hstart] at hgiven
    exact .some ⟨rfl, hgiven.related.noted leave⟩
  | true =>
    have hreplies := evaluate_annotated (budget + 1) hr ((h.noted enter).noted leave)
    simp only [if_true, Evaluate.given]
    rw [Evaluate.inOrder]
    generalize r.evaluate g (budget + 1) s = reply? at hreplies ⊢
    generalize r.evaluate g (budget + 1) ((s'.noted enter).noted leave) = reply?' at hreplies ⊢
    rcases hreplies with @⟨⟨outcome, s₁⟩, ⟨outcome', s₁'⟩, rfl, hs⟩ | _
    · cases outcome' with
      | ok => exact inOrder_atEnd hs
      | fail => exact .some ⟨rfl, hs⟩
      | noMatch => exact inOrder_atEnd hs
    · exact .none

end Rule

namespace State

variable {g : Grammar N U} {budget : Nat} {r : Rule N U} {s t : State input U} {outcome : Outcome}

/-- What the two ways of testing run. -/
theorem settled_whole_wrapped (g : Grammar N U) (budget : Nat) {r : Rule N U}
    (hr : s.trace = none ∨ ∀ action : Action N U, r.Involves g @action → UntracingAction @action) :
    Option.Rel (SameReply Retraced) ((whole g (budget + 1) r s).map (Rule.settle s.position))
      ((Rule.allOf [.atStart, r, .atEnd]).evaluate g (budget + 2) s) := by
  obtain ⟨enter, leave, hwrapped⟩ := Rule.evaluate_unmodified g (budget + 1)
    (r := .allOf [.atStart, r, .atEnd]) rfl s
  have hreplies := Rule.inOrder_wrapped budget hr ((Annotated.refl s).noted enter)
  have hkind : Evaluate.kind g (Rule.evaluate g (budget + 1))
      (Rule.allOf [.atStart, r, .atEnd]).name (Rule.allOf [.atStart, r, .atEnd]).kind s.position
      (s.noted enter) =
        Evaluate.inOrder (Rule.evaluate g (budget + 1)) [.atStart, r, .atEnd] .noMatch
          (s.noted enter) := rfl
  rw [hwrapped, hkind]
  generalize whole g (budget + 1) r s = reply? at hreplies ⊢
  generalize Evaluate.inOrder _ _ _ (s.noted enter) = reply?' at hreplies ⊢
  rcases hreplies with @⟨reply, reply', hreply⟩ | _
  · obtain ⟨houtcome, hs⟩ := Rule.settle_respects Retraced.indifferent hreply s.position
    exact .some ⟨houtcome, hs.noted _⟩
  · exact .none

/-! ## Passing the test -/

/-- The whole matches if the rule does not fail, from the start of the input to its end. -/
theorem whole_passes (h : whole g budget r s = some (outcome, t)) :
    outcome ≠ .fail ↔ s.cursor = 0 ∧ ∃ inner s₁, r.evaluate g budget s = some (inner, s₁) ∧
      inner ≠ .fail ∧ s₁.cursor = input.size := by
  rcases whole_inv h with ⟨hstart, heq⟩ | ⟨hstart, inner, s₁, hmatched, hinner⟩
  · obtain ⟨rfl, -⟩ := Prod.mk.inj heq
    exact iff_of_false (fun hne ↦ hne rfl) fun hstarts ↦ ne_of_beq_false hstart hstarts.1
  · have hcursor : s.cursor = 0 := eq_of_beq hstart
    rw [hmatched]
    rcases hinner with ⟨rfl, heq⟩ | ⟨hne, heq⟩
    · obtain ⟨rfl, -⟩ := Prod.mk.inj heq
      simp
    · cases hend : s₁.atEnd with
      | true =>
        rw [hend, if_pos rfl] at heq
        obtain ⟨rfl, -⟩ := Prod.mk.inj heq
        have hsize : s₁.cursor = input.size := eq_of_beq hend
        exact iff_of_true Outcome.noConfusion ⟨hcursor, inner, s₁, rfl, hne, hsize⟩
      | false =>
        rw [hend] at heq
        obtain ⟨rfl, -⟩ := Prod.mk.inj heq
        have hsize : s₁.cursor ≠ input.size := ne_of_beq_false hend
        refine iff_of_false (fun hne ↦ hne rfl) ?_
        rintro ⟨-, _, _, heq, -, hspans⟩
        cases heq
        exact hsize hspans

theorem answer_ok_iff (start : Nat) (reply : Reply input U) :
    (∃ n, (answer start reply).1 = .ok n) ↔ reply.1 ≠ .fail := by
  obtain ⟨outcome, s⟩ := reply
  cases outcome with
  | ok => exact iff_of_true ⟨_, rfl⟩ Outcome.noConfusion
  | noMatch => exact iff_of_true ⟨_, rfl⟩ Outcome.noConfusion
  | fail => exact iff_of_false (fun ⟨n, hn⟩ ↦ by cases hn) fun hne ↦ hne rfl

theorem testWhole_passes {answer : Except ParseError Nat}
    (h : s.testWhole g budget r = some (answer, t)) :
    (∃ n, answer = .ok n) ↔ s.cursor = 0 ∧ ∃ inner s₁,
      r.evaluate g budget s.silenceResults.clearResults.clearErrors = some (inner, s₁) ∧
        inner ≠ .fail ∧ s₁.cursor = input.size := by
  obtain ⟨_, hdrive, heq⟩ := Option.map_eq_some_iff.1 h
  obtain ⟨rfl, -⟩ := Prod.mk.inj heq
  obtain ⟨_, hsettled, rfl⟩ := Option.map_eq_some_iff.1 hdrive
  obtain ⟨⟨outcome, s₂⟩, hwhole, rfl⟩ := Option.map_eq_some_iff.1 hsettled
  have hsettle : (Rule.settle s.silenceResults.clearResults.clearErrors.position
      (outcome, s₂)).1 = outcome := by
    cases outcome <;> rfl
  rw [answer_ok_iff, hsettle]
  exact whole_passes hwhole

/-- **Testing the whole input is testing a rule around it**, which begins at the start of the input
and ends at its end. -/
theorem testWhole_eq_test (g : Grammar N U) (budget : Nat) (r : Rule N U) (s : State input U)
    (hr : s.trace = none ∨ ∀ action : Action N U, r.Involves g @action → UntracingAction @action) :
    Option.Rel SameAnswer (s.testWhole g (budget + 1) r)
      (s.test g (budget + 2) (.allOf [.atStart, r, .atEnd])) ∧
    ∀ answer t, s.testWhole g (budget + 1) r = some (answer, t) →
      ((∃ n, answer = .ok n) ↔ s.cursor = 0 ∧ ∃ outcome s₁,
        r.evaluate g (budget + 1) s.silenceResults.clearResults.clearErrors = some (outcome, s₁) ∧
          (outcome = .ok ∧ s₁.cursor = input.size ∨
            outcome = .noMatch ∧ s.cursor = input.size)) := by
  refine ⟨?_, fun answer t h ↦ ?_⟩
  · have hreplies := settled_whole_wrapped g budget
      (s := s.silenceResults.clearResults.clearErrors) hr
    have hdriven : Option.Rel (Agree Retraced)
        (drive (fun s ↦ (whole g (budget + 1) r s).map (Rule.settle s.position)) s.silenceResults)
        (parse g (budget + 2) (.allOf [.atStart, r, .atEnd]) s.silenceResults) :=
      drive_rel Retraced.driven rfl hreplies
    exact rel_imp (quietly_rel Retraced.indifferent hdriven) fun _ _ h ↦ ⟨h.result_eq, h.related⟩
  · rw [testWhole_passes h]
    refine and_congr_right fun hcursor ↦ exists₂_congr fun outcome s₁ ↦
      and_congr_right fun hmatched ↦ ?_
    cases outcome with
    | ok => simp
    | fail => simp
    | noMatch =>
      have hstays : s₁.cursor = s.cursor :=
        ((Rule.evaluate_returns hmatched).cursor_eq Outcome.noConfusion).trans rfl
      simp [hstays]

/-! ### An integer with something behind it -/

/-- Traced or not, the rule around finds the same fault with the text `7x`, and goes back. -/
theorem testWhole_eq_test_notWhole :
    (∀ action : Action Unit Unit, Rule.askInteger.Involves Rule.integers @action →
        UntracingAction @action) ∧
      ∃ t, State.test Rule.integers 9 (.allOf [.atStart, Rule.askInteger, .atEnd])
          { Rule.notWhole with trace := some #[] } =
        some (.error ⟨⟨1, 2⟩, "expected end of input, found 'x'"⟩, t) ∧ t.cursor = 0 := by
  have hanswer : (State.testWhole Rule.integers 8 Rule.askInteger
      { Rule.notWhole with trace := some #[] }).map (fun answer ↦
        match answer.1 with
        | .ok _ => none
        | .error e => some (e, answer.2.cursor)) =
      some (some (⟨⟨1, 2⟩, "expected end of input, found 'x'"⟩, 0)) := by decide +kernel
  obtain ⟨⟨e | n, t⟩, htest, he⟩ := Option.map_eq_some_iff.1 hanswer
  · obtain ⟨hsame, -⟩ := testWhole_eq_test Rule.integers 7 Rule.askInteger
      { Rule.notWhole with trace := some #[] } (.inr Rule.askInteger_untracing)
    rw [htest] at hsame
    generalize State.test _ 9 _ _ = answer? at hsame ⊢
    cases hsame with
    | @some _ answer' hsame =>
      obtain ⟨answer', t'⟩ := answer'
      obtain ⟨rfl, trace, rfl⟩ := hsame
      obtain ⟨rfl, hcursor⟩ := Prod.mk.inj (Option.some.inj he)
      exact ⟨Rule.askInteger_untracing, _, rfl, hcursor⟩
  · cases he

end State
end DocGrammar
