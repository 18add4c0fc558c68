import DocGrammar.Grammar.Evaluate
import DocGrammar.Proofs.Diagnostics.Accounts
import DocGrammar.Proofs.Diagnostics.Oblivious
import DocGrammar.Proofs.Plain

/-!
# The committed failure

A failure is committed exactly where it ends something: whatever recovers from a failure has
silenced it, and whatever fails has committed what it failed of.  So a rule that does not fail, or
that is matched in silence, leaves the committed failure as it was, and a rule that fails otherwise
leaves one behind.

It follows for the drivers, which start without a committed failure, that a parse that succeeds has
none to show, and that one that fails always knows why.
-/

set_option autoImplicit false

namespace DocGrammar

variable {N U : Type} {input : Array UInt8}

namespace State

/-! ## Drivers -/

/-- The whole fails at the start, or in the rule inside, or comes to what there is at the end. -/
theorem whole_inv {g : Grammar N U} {budget : Nat} {r : Rule N U} {s : State input U}
    {reply : Reply input U} (h : whole g budget r s = some reply) :
    s.atStart = false ∧ reply = s.fail .expectedStart ∨
      s.atStart = true ∧ ∃ outcome s₁, r.evaluate g budget s = some (outcome, s₁) ∧
        (outcome = .fail ∧ reply = (.fail, s₁) ∨
          outcome ≠ .fail ∧ reply = if s₁.atEnd then (.ok, s₁) else s₁.fail .expectedEnd) := by
  rw [whole] at h
  cases hstart : s.atStart with
  | false =>
    rw [hstart] at h
    cases h
    exact .inl ⟨rfl, rfl⟩
  | true =>
    rw [hstart, if_pos rfl] at h
    rcases hmatched : r.evaluate g budget s with _ | ⟨outcome, s₁⟩
    all_goals rw [hmatched] at h
    · cases h
    · refine .inr ⟨rfl, outcome, s₁, rfl, ?_⟩
      cases outcome with
      | fail =>
        cases h
        exact .inl ⟨rfl, rfl⟩
      | ok =>
        simp only [← apply_ite some] at h
        exact .inr ⟨Outcome.noConfusion, (Option.some.inj h).symm⟩
      | noMatch =>
        simp only [← apply_ite some] at h
        exact .inr ⟨Outcome.noConfusion, (Option.some.inj h).symm⟩

theorem whole_accountable {g : Grammar N U} {budget : Nat} {r : Rule N U}
    (hr : Accountable (r.evaluate g budget : Step input U)) :
    Accountable (whole g budget r : Step input U) := by
  intro s reply h
  rcases whole_inv h with ⟨-, rfl⟩ | ⟨-, outcome, s₁, hmatched, ⟨rfl, rfl⟩ | ⟨hne, rfl⟩⟩
  · exact ⟨_, .fail s _⟩
  · exact hr hmatched
  · obtain ⟨fs, h₁⟩ := hr hmatched
    split
    · exact ⟨_, h₁.trans hne (.of_quiet (.refl s₁) Outcome.noConfusion)⟩
    · exact ⟨_, h₁.trans hne (.fail s₁ _)⟩

/-- What the second state, in which a driver has left things, has to do with the first, in which
the evaluation inside it has. -/
structure Left (s₁ t : State input U) (outcome : Outcome) (answer : Except ParseError Nat) :
    Prop where
  /-- The committed failure is still there, -/
  error_eq : t.error = s₁.error
  /-- and so is the furthest. -/
  furthest_eq : t.furthest = s₁.furthest
  /-- So is what has been written down. -/
  logged_eq : t.logged = s₁.logged
  /-- If the evaluation has failed, the answer is the report, and lines are counted as before. -/
  failed : outcome = .fail →
    answer = .error t.report ∧ t.location = s₁.location ∧ t.synced = s₁.synced
  /-- Otherwise it is no error, and lines are counted from the cursor. -/
  passed : outcome ≠ .fail → (∃ n, answer = .ok n) ∧
    t.location = s₁.locate s₁.cursor ∧ t.synced = s₁.cursor

theorem noted_report (s : State input U) (event : Unit → Event) :
    (s.noted event).report = s.report := by
  unfold noted
  split <;> rfl

theorem answer_left (start : Nat) (outcome : Outcome) (s₁ : State input U) :
    s₁.Left (answer start (outcome, s₁)).2 outcome (answer start (outcome, s₁)).1 := by
  cases outcome with
  | ok => exact ⟨rfl, rfl, rfl, fun h ↦ (by cases h), fun _ ↦ ⟨⟨_, rfl⟩, rfl, rfl⟩⟩
  | noMatch => exact ⟨rfl, rfl, rfl, fun h ↦ (by cases h), fun _ ↦ ⟨⟨_, rfl⟩, rfl, rfl⟩⟩
  | fail =>
    have hnoted := s₁.noted_recorded (fun _ ↦ .report s₁.report) rfl
    refine ⟨hnoted.error_eq, hnoted.furthest_eq, hnoted.logged_eq.trans ?_, fun _ ↦
      ⟨congrArg Except.error (s₁.noted_report _).symm, hnoted.location_eq, hnoted.synced_eq⟩,
      fun h ↦ absurd rfl h⟩
    simp only [List.append_nil]
    exact congrFun Option.map_id _

theorem clearResults_quiet (s : State input U) : s.clearErrors.Quiet s.clearResults.clearErrors :=
  ⟨rfl, rfl, rfl, rfl, rfl, rfl⟩

/-- Whatever a driver answers, it accounts for a run without failures before. -/
theorem drive_accounts {body : Step input U} (hbody : Accountable body) {s t : State input U}
    {answer : Except ParseError Nat} (h : drive body s = some (answer, t)) :
    ∃ fs outcome s₁, Accounts s.clearErrors fs (outcome, s₁) ∧ s₁.Left t outcome answer := by
  obtain ⟨⟨outcome, s₁⟩, hreply, heq⟩ := Option.map_eq_some_iff.1 h
  obtain ⟨fs, haccounts⟩ := hbody hreply
  have hleft := answer_left s.cursor outcome s₁
  rw [heq] at hleft
  exact ⟨fs, outcome, s₁, haccounts.after s.clearResults_quiet.recorded, hleft⟩

theorem quietly_accounts {body : Step input U} (hbody : Accountable body) {s t : State input U}
    {answer : Except ParseError Nat} (h : quietly (drive body) s = some (answer, t)) :
    ∃ fs outcome s₁, Accounts s.clearErrors fs (outcome, s₁) ∧ s₁.Left t outcome answer := by
  obtain ⟨⟨answer', t'⟩, hdrive, heq⟩ := Option.map_eq_some_iff.1 h
  cases heq
  obtain ⟨fs, outcome, s₁, haccounts, hleft⟩ := drive_accounts hbody hdrive
  exact ⟨fs, outcome, s₁, haccounts.after s.clearErrors.silenceResults_quiet.recorded,
    ⟨hleft.error_eq, hleft.furthest_eq, hleft.logged_eq, hleft.failed, hleft.passed⟩⟩

/-- The three drivers for a rule. -/
def drivers (g : Grammar N U) (budget : Nat) (r : Rule N U) :
    List (State input U → Option (Answer input U)) :=
  [parse g budget r, test g budget r, testWhole g budget r]

theorem drivers_account {g : Grammar N U} {budget : Nat} {r : Rule N U}
    (hr : ∀ action : Action N U, r.Involves g @action → HonestAction @action)
    {driver : State input U → Option (Answer input U)} (hdriver : driver ∈ drivers g budget r)
    {s t : State input U} {answer : Except ParseError Nat} (h : driver s = some (answer, t)) :
    ∃ fs outcome s₁, Accounts s.clearErrors fs (outcome, s₁) ∧ s₁.Left t outcome answer := by
  have heval : Accountable (r.evaluate g budget : Step input U) :=
    Rule.evaluate_accountable budget hr
  simp only [drivers, List.mem_cons, List.not_mem_nil, or_false] at hdriver
  rcases hdriver with rfl | rfl | rfl
  · exact drive_accounts heval h
  · exact quietly_accounts heval h
  · refine quietly_accounts (fun s reply hreply ↦ ?_) h
    obtain ⟨reply', hwhole, rfl⟩ := Option.map_eq_some_iff.1 hreply
    obtain ⟨fs, haccounts⟩ := whole_accountable heval hwhole
    exact ⟨fs, Rule.settle_accounts haccounts s.position⟩

/-- Where a failure is committed, there is one to report. -/
theorem isSome_reported (s : State input U) (h : s.error.isSome) : s.reported.isSome := by
  obtain ⟨c, hc⟩ := Option.isSome_iff_exists.1 h
  rcases hfurthest : s.furthest with _ | f
  · simp only [reported, hc, hfurthest, Option.isSome_some]
  · simp only [reported, hc, hfurthest]
    split <;> rfl

end State

/-! ## What is committed -/

namespace Rule

/-- **What is committed is exact.**  Let all actions involved in a rule be honest.  If matching the
rule succeeds or leaves it out, or if failures are silenced, the committed failure is what it was
before; if it fails and failures are not silenced, there is a committed failure afterwards.  So none
is left by a parse that succeeds, and one that fails, where failures are not silenced, reports a
failure and nothing general. -/
theorem evaluate_commits (g : Grammar N U) (budget : Nat) (r : Rule N U)
    (hr : ∀ action : Action N U, r.Involves g @action → HonestAction @action)
    (s : State input U) :
    (∀ outcome s', r.evaluate g budget s = some (outcome, s') →
      (outcome ≠ .fail → s'.error = s.error) ∧
      (s.errorsSilenced ≠ 0 → s'.error = s.error) ∧
      (outcome = .fail → s.errorsSilenced = 0 → s'.error.isSome)) ∧
    ∀ driver ∈ State.drivers g budget r, ∀ answer t, driver s = some (answer, t) →
      (∀ n, answer = .ok n → t.error = none) ∧
      ∀ e, answer = .error e → s.errorsSilenced = 0 →
        ∃ f, t.reported = some f ∧ e = .clipped (t.locate f.offset) f.message := by
  refine ⟨fun outcome s' h ↦ ?_, fun driver hdriver answer t h ↦ ?_⟩
  · obtain ⟨fs, haccounts⟩ := evaluate_accountable budget hr h
    exact ⟨haccounts.error_eq, haccounts.error_silenced, fun hfail ↦ (haccounts.failed hfail).2⟩
  · obtain ⟨fs, outcome, s₁, haccounts, hleft⟩ := State.drivers_account hr hdriver h
    by_cases hfail : outcome = .fail
    · obtain ⟨rfl, -, -⟩ := hleft.failed hfail
      refine ⟨fun n hn ↦ (by cases hn), fun e he hs ↦ ?_⟩
      cases he
      have hcommitted := (haccounts.failed hfail).2 hs
      rw [← hleft.error_eq] at hcommitted
      obtain ⟨f, hf⟩ := Option.isSome_iff_exists.1 (t.isSome_reported hcommitted)
      exact ⟨f, hf, by rw [State.report, hf]⟩
    · obtain ⟨⟨n, rfl⟩, -, -⟩ := hleft.passed hfail
      exact ⟨fun _ _ ↦ hleft.error_eq.trans (haccounts.error_eq hfail), fun e he ↦ (by cases he)⟩

/-! ### An integer that is asked for and is none -/

theorem askInteger_honest (action : Action Unit Unit) (h : askInteger.Involves integers @action) :
    HonestAction @action := by
  have hask : askInteger.Every HonestAction := fun _ s _ ↦
    .call (.quiet (.refl s)) fun reply ↦ .done (.quiet (.refl _)) (by simp)
  have hunsigned : PlainReply (fun _ ↦ true) (Leaf.closeUnsigned (U := Unit) 10) :=
    closeUnsigned_plain 10
  have hsigned : PlainReply (fun _ ↦ true) (Leaf.closeSigned (U := Unit)) := closeSigned_plain
  exact Every.of_involves
    (fun _ ↦ every_signedDecimal hunsigned.toAction.honest hsigned.toAction.honest) hask h

/-- The bytes of `-x` with the cursor at the start. -/
def noInteger : State #[0x2D, 0x78] Unit := State.start _ ()

/-- There are no digits behind the sign, and that is what is reported. -/
theorem evaluate_commits_noInteger :
    (∀ action : Action Unit Unit, askInteger.Involves integers @action → HonestAction @action) ∧
      ∃ t f, noInteger.parse integers 8 askInteger =
          some (.error ⟨⟨1, 2⟩, "expected within range '0'..='9', found 'x'"⟩, t) ∧
        t.reported = some f ∧
        ⟨⟨1, 2⟩, "expected within range '0'..='9', found 'x'"⟩ =
          ParseError.clipped (t.locate f.offset) f.message := by
  have hanswer : (noInteger.parse integers 8 askInteger).map (fun answer ↦
      match answer.1 with
      | .ok _ => none
      | .error e => some e) =
        some (some ⟨⟨1, 2⟩, "expected within range '0'..='9', found 'x'"⟩) := by
    decide +kernel
  obtain ⟨⟨e | n, t⟩, hparse, he⟩ := Option.map_eq_some_iff.1 hanswer
  · cases he
    obtain ⟨-, hreported⟩ :=
      (evaluate_commits integers 8 askInteger askInteger_honest noInteger).2 _
      List.mem_cons_self _ t hparse
    obtain ⟨f, hf, heq⟩ := hreported _ rfl rfl
    exact ⟨askInteger_honest, t, f, hparse, hf, heq⟩
  · cases he

end Rule
end DocGrammar
