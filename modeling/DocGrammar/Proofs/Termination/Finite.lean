import DocGrammar.Proofs.Lockstep
import DocGrammar.Proofs.Termination.Budget
import DocGrammar.Proofs.Termination.Loops
import Mathlib.Order.Filter.AtTopBot.Basic

/-!
# Grammars without symbols terminate

A rule in which no symbol occurs is a finite tree, and nothing can lead from within the tree back to
its root.  So it terminates wherever its actions do, whatever they do to the state: they may move
the cursor back, even to before the rule, and drop results that are not theirs.

There are two things to see.  Descending into the tree is recursion on the rule; how much budget it
takes depends on the state if actions have symbols matched, and so the budgets are not computed but
shown to be large enough from some number on (`Answers`).  Repetition is a loop, and it ends because
a round that is followed by another has ended further on than it began, whatever happened in between
(`Evaluate.Repeats`).
-/

set_option autoImplicit false

namespace DocGrammar

open Filter

variable {N U : Type} {input : Array UInt8}

/-! ## Finite rules -/

mutual

/-- No symbol occurs within a rule. -/
def Rule.symbolless : Rule N U → Bool
  | ⟨_, _, kind⟩ => Kind.symbolless kind

/-- No symbol occurs within a kind. -/
def Kind.symbolless : Kind N U (Rule N U) → Bool
  | .bounded _ _ inner => Rule.symbolless inner
  | .anyOf rules => Rule.symbollessAll rules
  | .allOf rules => Rule.symbollessAll rules
  | .reference rule => Rule.symbolless rule
  | .symbol _ => false
  | .closing inner _ => Rule.symbolless inner
  | _ => true

/-- No symbol occurs within one of several rules. -/
def Rule.symbollessAll : List (Rule N U) → Bool
  | [] => true
  | rule :: rest => Rule.symbolless rule && Rule.symbollessAll rest

end

/-- An action that comes to an end in every state, the symbols included that it may have matched. -/
def TerminatingAction (g : Grammar N U) (action : Action N U) : Prop :=
  ∀ ⦃input : Array UInt8⦄ (s : State input U) (start : Position),
    ∃ budget, ((action s start).run fun n ↦ (g n).evaluate g budget).isSome

/-- An action that has no symbol matched is done at once. -/
theorem terminatingAction_toAction (g : Grammar N U) (act : DirectAction U) :
    TerminatingAction g (DirectAction.toAction @act) :=
  fun _ _ _ ↦ ⟨0, rfl⟩

/-! ## Budgets that are large enough -/

/-- From every state there is one reply that all budgets come to which are large enough. -/
def Answers (step : Nat → Step input U) : Prop :=
  ∀ s, ∃ reply, ∀ᶠ budget in atTop, step budget s = some reply

/-- The same of the body of a rule, from wherever it starts. -/
def AnswersFrom (body : Nat → Position → Step input U) : Prop :=
  ∀ start, Answers fun budget ↦ body budget start

/-- What takes no budget. -/
theorem answers_of_eq {step : Nat → Step input U} {s : State input U} (reply : Reply input U)
    (h : ∀ budget, step budget s = some reply) :
    ∃ reply, ∀ᶠ budget in atTop, step budget s = some reply :=
  ⟨reply, .of_forall h⟩

namespace Evaluate

variable {eval : Nat → Rule N U → Step input U}

theorem inOrder_answers {rules : List (Rule N U)}
    (heval : ∀ r ∈ rules, Answers fun budget ↦ eval budget r) (outcome : Outcome) :
    Answers fun budget ↦ inOrder (eval budget) rules outcome := by
  induction rules generalizing outcome with
  | nil => exact fun s ↦ answers_of_eq (outcome, s) fun _ ↦ rfl
  | cons rule rest ih =>
    intro s
    have hrest := ih fun r hr ↦ heval r (List.mem_cons_of_mem rule hr)
    obtain ⟨⟨found, s₁⟩, hrule⟩ := heval rule List.mem_cons_self s
    cases found with
    | ok =>
      obtain ⟨reply, hreply⟩ := hrest .ok s₁
      refine ⟨reply, ?_⟩
      filter_upwards [hrule, hreply] with budget h₁ h₂
      simp only [inOrder, h₁, h₂]
    | noMatch =>
      obtain ⟨reply, hreply⟩ := hrest outcome s₁
      refine ⟨reply, ?_⟩
      filter_upwards [hrule, hreply] with budget h₁ h₂
      simp only [inOrder, h₁, h₂]
    | fail =>
      refine ⟨(.fail, s₁), ?_⟩
      filter_upwards [hrule] with budget h₁
      simp only [inOrder, h₁]

theorem firstOf_answers {rules : List (Rule N U)}
    (heval : ∀ r ∈ rules, Answers fun budget ↦ eval budget r) (start : Position) :
    Answers fun budget ↦ firstOf (eval budget) start rules := by
  induction rules with
  | nil => exact fun s ↦ answers_of_eq (.fail, s) fun _ ↦ rfl
  | cons rule rest ih =>
    intro s
    have hrest := ih fun r hr ↦ heval r (List.mem_cons_of_mem rule hr)
    obtain ⟨⟨found, s₁⟩, hrule⟩ := heval rule List.mem_cons_self s
    by_cases hfound : found = .ok
    · subst hfound
      refine ⟨(.ok, s₁), ?_⟩
      filter_upwards [hrule] with budget h₁
      simp only [firstOf, h₁]
    · obtain ⟨reply, hreply⟩ := hrest (s₁.restore start)
      refine ⟨reply, ?_⟩
      filter_upwards [hrule, hreply] with budget h₁ h₂
      cases found with
      | ok => exact absurd rfl hfound
      | fail => simp only [firstOf, h₁, h₂]
      | noMatch => simp only [firstOf, h₁, h₂]

theorem choice_answers {rules : List (Rule N U)}
    (heval : ∀ r ∈ rules, Answers fun budget ↦ eval budget r) (name : Option String) :
    AnswersFrom fun budget ↦ choice (eval budget) name rules := by
  intro start s
  obtain ⟨⟨outcome, ended⟩, hattempts⟩ :=
    firstOf_answers heval start { s.silenceErrors with furthest := none }
  refine ⟨(outcome, conclude name start.offset s outcome ended), ?_⟩
  filter_upwards [hattempts] with budget h₁
  rw [choice_eq_conclude, h₁, Option.map_some]

theorem bounded_answers {inside : Nat → Step input U} (hinside : Answers inside)
    (opener closer : UInt8) : Answers fun budget ↦ bounded opener closer (inside budget) := by
  intro s
  by_cases hpeek : s.peek = some opener
  · obtain ⟨⟨found, s₁⟩, hfound⟩ := hinside (s.advance 1)
    by_cases hfail : found = .fail
    · subst hfail
      refine ⟨(.fail, s₁), ?_⟩
      filter_upwards [hfound] with budget h₁
      simp only [bounded, if_pos hpeek, h₁]
    · refine ⟨if s₁.peek = some closer then (.ok, s₁.advance 1)
        else s₁.fail (.expectedCloser closer), ?_⟩
      filter_upwards [hfound] with budget h₁
      cases found with
      | fail => exact absurd rfl hfail
      | ok =>
        simp only [bounded, if_pos hpeek, h₁]
        split <;> rfl
      | noMatch =>
        simp only [bounded, if_pos hpeek, h₁]
        split <;> rfl
  · exact answers_of_eq (s.fail (.expectedOpener opener)) fun _ ↦ if_neg hpeek

/-! ## Repetition and modifiers -/

variable {body : Nat → Position → Step input U}

/-- The rounds of a loop, as many as there may be. -/
theorem again_answers (hbody : AnswersFrom body) (rounds : Nat) (s : State input U) :
    ∃ s', ∀ᶠ budget in atTop, again (body budget) rounds s = some s' := by
  induction rounds generalizing s with
  | zero => exact ⟨s, .of_forall fun _ ↦ rfl⟩
  | succ rounds ih =>
    obtain ⟨⟨found, s₁⟩, hround⟩ := hbody s.position s
    by_cases hfound : found = .ok
    · subst hfound
      obtain ⟨s', hrest⟩ := ih s₁
      refine ⟨if s.cursor < s₁.cursor then s' else s₁, ?_⟩
      filter_upwards [hround, hrest] with budget h₁ h₂
      simp only [again, h₁, h₂]
      split <;> rfl
    · refine ⟨s₁.restore s.position, ?_⟩
      filter_upwards [hround] with budget h₁
      cases found with
      | ok => exact absurd rfl hfound
      | fail => simp only [again, h₁]
      | noMatch => simp only [again, h₁]

theorem repeated_answers (hbody : AnswersFrom body) :
    AnswersFrom fun budget ↦ repeated (body budget) := by
  intro start s
  obtain ⟨⟨found, s₁⟩, hfirst⟩ := hbody start s
  by_cases hfound : found = .ok
  · subst hfound
    obtain ⟨s₂, hagain⟩ := again_answers hbody (input.size + 1 - s₁.cursor) s₁.silenceErrors
    refine ⟨(.ok, s₂.unsilenceErrors), ?_⟩
    filter_upwards [hfirst, hagain] with budget h₁ h₂
    simp only [repeated, h₁, h₂]
  · refine ⟨(found, s₁), ?_⟩
    filter_upwards [hfirst] with budget h₁
    cases found with
    | ok => exact absurd rfl hfound
    | fail => simp only [repeated, h₁]
    | noMatch => simp only [repeated, h₁]

theorem optional_answers (hbody : AnswersFrom body) :
    AnswersFrom fun budget ↦ optional (body budget) := by
  intro start s
  obtain ⟨⟨found, s₁⟩, hquiet⟩ := hbody start s.silenceErrors
  cases found with
  | fail =>
    refine ⟨(.noMatch, s₁.unsilenceErrors.restore start), ?_⟩
    filter_upwards [hquiet] with budget h₁
    simp only [optional, h₁]
  | ok =>
    refine ⟨(.ok, s₁.unsilenceErrors), ?_⟩
    filter_upwards [hquiet] with budget h₁
    simp only [optional, h₁]
  | noMatch =>
    refine ⟨(.noMatch, s₁.unsilenceErrors), ?_⟩
    filter_upwards [hquiet] with budget h₁
    simp only [optional, h₁]

theorem lookahead_answers (hbody : AnswersFrom body) :
    AnswersFrom fun budget ↦ lookahead (body budget) := by
  intro start s
  obtain ⟨⟨found, s₁⟩, hquiet⟩ := hbody start s.silenceResults
  refine ⟨(found, s₁.unsilenceResults), ?_⟩
  filter_upwards [hquiet] with budget h₁
  simp only [lookahead, h₁]

theorem flat_answers (hbody : AnswersFrom body) : AnswersFrom fun budget ↦ flat (body budget) := by
  intro start s
  obtain ⟨⟨found, s₁⟩, hspan⟩ := lookahead_answers hbody start s
  cases found with
  | ok =>
    refine ⟨(.ok, s₁.push (.slice (s₁.matched start))), ?_⟩
    filter_upwards [hspan] with budget h₁
    simp only [flat, h₁]
  | fail =>
    refine ⟨(.fail, s₁), ?_⟩
    filter_upwards [hspan] with budget h₁
    simp only [flat, h₁]
  | noMatch =>
    refine ⟨(.noMatch, s₁), ?_⟩
    filter_upwards [hspan] with budget h₁
    simp only [flat, h₁]

theorem wrapIf_answers {wrapper : (Position → Step input U) → Position → Step input U}
    (hwrapper : ∀ {body : Nat → Position → Step input U}, AnswersFrom body →
      AnswersFrom fun budget ↦ wrapper (body budget))
    (wanted : Bool) (hbody : AnswersFrom body) :
    AnswersFrom fun budget ↦ wrapIf wanted wrapper (body budget) := by
  cases wanted with
  | false => exact hbody
  | true => exact hwrapper hbody

theorem modified_answers (m : Modifiers) (hbody : AnswersFrom body) :
    AnswersFrom fun budget ↦ modified m (body budget) :=
  wrapIf_answers optional_answers _ <|
  wrapIf_answers lookahead_answers _ <|
  wrapIf_answers flat_answers _ <|
  wrapIf_answers optional_answers _ <|
  wrapIf_answers repeated_answers _ hbody

end Evaluate

/-! ## Rules -/

/-- A terminating action has a reply that all large enough budgets come to. -/
theorem TerminatingAction.answers {g : Grammar N U} {action : Action N U}
    (haction : TerminatingAction g @action) (start : Position) :
    Answers fun budget (s : State input U) ↦
      (action s start).run fun n ↦ (g n).evaluate g budget := by
  intro s
  obtain ⟨enough, hsome⟩ := haction s start
  obtain ⟨reply, hreply⟩ := Option.isSome_iff_exists.1 hsome
  refine ⟨reply, ?_⟩
  filter_upwards [eventually_ge_atTop enough] with budget hle
  exact Program.run_follows (fun n ↦ Rule.evaluate_follows g hle (g n)) hreply

/-- What closes with an action. -/
theorem Evaluate.closing_answers {g : Grammar N U} {inner : Rule N U} {action : Action N U}
    (hinner : Answers fun budget ↦ (inner.evaluate g budget : Step input U))
    (haction : TerminatingAction g @action) {name : Option String} :
    AnswersFrom fun budget ↦
      (kind g (Rule.evaluate g budget) name (.closing inner @action) :
        Position → Step input U) := by
  intro start s
  obtain ⟨⟨found, s₁⟩, hfound⟩ := hinner s
  cases found with
  | ok =>
    by_cases hheard : s₁.resultsSilenced = 0
    · obtain ⟨reply, hreply⟩ := haction.answers start s₁
      refine ⟨reply, ?_⟩
      filter_upwards [hfound, hreply] with budget h₁ h₂
      simp only [kind, h₁, if_pos hheard, h₂]
    · refine ⟨(.ok, s₁), ?_⟩
      filter_upwards [hfound] with budget h₁
      simp only [kind, h₁, if_neg hheard]
  | fail =>
    refine ⟨(.fail, s₁), ?_⟩
    filter_upwards [hfound] with budget h₁
    simp only [kind, h₁]
  | noMatch =>
    refine ⟨(.noMatch, s₁), ?_⟩
    filter_upwards [hfound] with budget h₁
    simp only [kind, h₁]

namespace Rule

variable {g : Grammar N U}

/-- One level of evaluation, and the budget that it takes. -/
theorem answers_of_kind {r : Rule N U}
    (hkind : AnswersFrom fun budget ↦
      (Evaluate.kind g (evaluate g budget) r.name r.kind : Position → Step input U)) :
    Answers fun budget ↦ (r.evaluate g budget : Step input U) := by
  intro s
  obtain ⟨reply, hbody⟩ := Evaluate.modified_answers r.modifiers hkind s.position
    (s.noted fun _ ↦ .enter (r.label g) s.position.offset)
  obtain ⟨enough, hbody⟩ := eventually_atTop.1 hbody
  let settled := settle s.position reply
  refine ⟨(settled.1, settled.2.noted fun _ ↦
    .leave (r.label g) settled.2.cursor settled.1), eventually_atTop.2 ⟨enough + 1, ?_⟩⟩
  intro budget hle
  obtain ⟨budget, rfl⟩ := Nat.exists_eq_succ_of_ne_zero (Nat.ne_zero_of_lt hle)
  simp only [evaluate, step, hbody budget (Nat.le_of_succ_le_succ hle)]
  rfl

mutual

/-- **A finite rule comes to an end**, by recursion on the rule. -/
theorem answers : ∀ (r : Rule N U), r.symbolless = true → r.Every (TerminatingAction g) →
    Answers fun budget ↦ (r.evaluate g budget : Step input U)
  | ⟨name, _, kind⟩, hr, hactions => answers_of_kind (kind_answers kind name hr hactions)

theorem kind_answers : ∀ (k : Kind N U (Rule N U)) (name : Option String),
    k.symbolless = true → k.Every (TerminatingAction g) →
      AnswersFrom fun budget ↦
        (Evaluate.kind g (evaluate g budget) name k : Position → Step input U)
  | .nothing, _, _, _ => fun _ s ↦ answers_of_eq (.ok, s) fun _ ↦ rfl
  | .atStart, _, _, _ => fun _ _ ↦ answers_of_eq _ fun _ ↦ rfl
  | .atEnd, _, _, _ => fun _ _ ↦ answers_of_eq _ fun _ ↦ rfl
  | .emptyInput, _, _, _ => fun _ _ ↦ answers_of_eq _ fun _ ↦ rfl
  | .byte _, _, _, _ => fun _ _ ↦ answers_of_eq _ fun _ ↦ rfl
  | .range _ _, _, _, _ => fun _ _ ↦ answers_of_eq _ fun _ ↦ rfl
  | .literal _, _, _, _ => fun _ _ ↦ answers_of_eq _ fun _ ↦ rfl
  | .bounded opener closer inner, _, hk, hactions => fun _ ↦
    Evaluate.bounded_answers (answers inner hk hactions) opener closer
  | .anyOf rules, name, hk, hactions =>
    Evaluate.choice_answers (answers_of_mem rules hk hactions) name
  | .allOf rules, _, hk, hactions => fun _ ↦
    Evaluate.inOrder_answers (answers_of_mem rules hk hactions) .noMatch
  | .reference rule, _, hk, hactions => fun _ ↦ answers rule hk hactions
  | .symbol _, _, hk, _ => nomatch hk
  | .leaf _, _, _, hactions => fun start ↦ TerminatingAction.answers hactions start
  | .closing inner _, _, hk, hactions =>
    Evaluate.closing_answers (answers inner hk hactions.1) hactions.2

theorem answers_of_mem : ∀ (rules : List (Rule N U)), symbollessAll rules = true →
    EveryIn (TerminatingAction g) rules →
      ∀ r ∈ rules, Answers fun budget ↦ (r.evaluate g budget : Step input U)
  | [], _, _ => List.forall_mem_nil _
  | rule :: rest, hrules, hactions => List.forall_mem_cons.2
    ⟨answers rule (Bool.and_eq_true_iff.1 hrules).1 hactions.1,
      answers_of_mem rest (Bool.and_eq_true_iff.1 hrules).2 hactions.2⟩

end

/-- **Without symbols everything terminates.**  Let no symbol occur in a rule, and let its actions
terminate, whatever they do to the state.  Then the rule has a reply in every state, and all budgets
come to it which are large enough.  In a repetition, whatever its body is, the bound on the rounds
makes no difference: it comes to a reply if and only if it does without the bound, and then the body
has been matched at most twice and once more for every byte of the input.  For wherever it goes on,
a round has ended further on than it started. -/
theorem evaluate_terminates (g : Grammar N U) (r : Rule N U) (hr : r.symbolless = true)
    (hactions : r.Every (TerminatingAction g)) (s : State input U) :
    (∃ budget reply, ∀ budget' ≥ budget, r.evaluate g budget' s = some reply) ∧
      ∀ (body : Position → Step input U) (start : Position) (t : State input U)
        (reply : Reply input U),
        (Evaluate.repeated body start t = some reply ↔
          ∃ offsets, Evaluate.Repeats body start offsets t reply) ∧
        ∀ offsets, Evaluate.Repeats body start offsets t reply →
          offsets.Pairwise (· < ·) ∧ offsets.length + 1 ≤ input.size + 2 := by
  obtain ⟨reply, hreply⟩ := answers r hr hactions s
  obtain ⟨budget, hbudget⟩ := eventually_atTop.1 hreply
  exact ⟨⟨budget, reply, hbudget⟩, fun _ _ _ _ ↦
    ⟨Evaluate.repeated_eq_some_iff, fun _ h ↦ h.increasing⟩⟩

/-! ### An action that goes back -/

/-- Any number of times the letter `a`, and back to the start of the input, again and again. -/
def backAndForth : Rule Empty Unit :=
  (closing (byte 0x61).optional.repeated
    (DirectAction.toAction fun s _ ↦ (.ok, s.moveTo 0))).repeatedOrNone

/-- The inner repetition ends where there is no letter any more, and the outer one because the
action has gone back: the rule matches, and has consumed nothing in the end. -/
theorem evaluate_terminates_backAndForth :
    backAndForth.symbolless = true ∧ backAndForth.Every (TerminatingAction nofun) ∧
      ∃ budget t, (∀ budget' ≥ budget, backAndForth.evaluate nofun budget'
          (State.start #[0x61, 0x61, 0x62] ()) = some (.ok, t)) ∧ t.cursor = 0 := by
  have hactions : backAndForth.Every (TerminatingAction nofun) := by
    simp [backAndForth, terminatingAction_toAction]
  have hmatched : (backAndForth.evaluate nofun 4 (State.start #[0x61, 0x61, 0x62] ())).map
      (fun (outcome, t) ↦ (outcome, t.cursor)) = some (.ok, 0) := by decide +kernel
  obtain ⟨⟨outcome, t⟩, h, heq⟩ := Option.map_eq_some_iff.1 hmatched
  obtain ⟨rfl, hcursor⟩ := Prod.mk.inj heq
  obtain ⟨⟨budget, reply, hreply⟩, -⟩ := evaluate_terminates nofun backAndForth rfl hactions
    (State.start #[0x61, 0x61, 0x62] ())
  obtain rfl : reply = (.ok, t) := evaluate_unique (hreply budget (Nat.le_refl budget)) h
  exact ⟨rfl, hactions, budget, t, hreply, hcursor⟩

end Rule
end DocGrammar
