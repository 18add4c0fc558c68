import DocGrammar.Proofs.Diagnostics.Furthest

/-!
# Modifiers are wrappers around one another

A rule has its modifiers in a set, and `Evaluate.modified` applies them all on one level: the rule
is entered once, its layers share the position from entry, and only when all of them are done does
it go back there.  The set can also be written out, each modifier on a reference of its own, around
a rule that has kept nothing but its repetition (`Rule.nested`).  Then every layer is a rule that
takes its own position and goes back by itself.

The two come to the same.  What makes up for the difference is that a layer may leave anything
behind where it did not succeed, since the rule goes back in the end.  So the layers are compared by
what is left when one has gone back (`Rule.Coincide`), and then each of them makes of bodies that
coincide bodies that coincide.  Only the trace can tell that more rules have been entered.
-/

set_option autoImplicit false

namespace DocGrammar

variable {N U : Type} {input : Array UInt8}

/-! ## Writing modifiers out -/

/-- How many layers a set has around the repetition. -/
def Modifiers.layers (m : Modifiers) : Nat :=
  m.flat.toNat + m.lookahead.toNat + m.optional.toNat

namespace Rule

/-- A rule with no modifier but a repetition; of the two, the one that may match nothing, if it has
both. -/
def bare (r : Rule N U) : Rule N U :=
  { r with
    modifiers :=
      { repeated := r.modifiers.repeated && !r.modifiers.repeatedOrNone
        repeatedOrNone := r.modifiers.repeatedOrNone } }

/-- A rule, or a reference to it that carries modifiers, if `wanted`. -/
def referredIf (wanted : Bool) (m : Modifiers) (r : Rule N U) : Rule N U :=
  if wanted then (reference r).modified m else r

/-- A rule with its modifiers written out, one for each reference. -/
def nested (r : Rule N U) : Rule N U :=
  referredIf r.modifiers.optional { optional := true } <|
  referredIf r.modifiers.lookahead { lookahead := true } <|
  referredIf r.modifiers.flat { flat := true } r.bare

/-! ## What is involved -/

theorem Involves.of_referredIf {g : Grammar N U} {action : Action N U} {wanted : Bool}
    {r : Rule N U} {m : Modifiers} (h : (referredIf wanted m r).Involves g @action) :
    r.Involves g @action := by
  cases wanted with
  | false => exact h
  | true => exact h.of_reference rfl

/-! ## Coinciding where it counts -/

/-- The body of a rule, its modifiers included. -/
def body (g : Grammar N U) (eval : Rule N U → Step input U) (r : Rule N U) :
    Position → Step input U :=
  Evaluate.modified r.modifiers (Evaluate.kind g eval r.name r.kind)

/-- Two replies are the same, but for the trace, once one has gone back to where the rule
started. -/
def SameSettled (start : Position) (reply reply' : Reply input U) : Prop :=
  SameReply State.Retraced (settle start reply) (settle start reply')

/-- Two bodies come to the same, but for the trace, once one has gone back to where they started. -/
def Coincide (body body' : Position → Step input U) : Prop :=
  ∀ ⦃s s' : State input U⦄, s.Retraced s' →
    Option.Rel (SameSettled s.position) (body s.position s) (body' s.position s')

section

variable {start : Position} {reply reply' reply'' : Reply input U}

theorem settle_settle (start : Position) (reply : Reply input U) :
    settle start (settle start reply) = settle start reply := by
  obtain ⟨outcome, s⟩ := reply
  have htwice : (s.restore start).restore start = s.restore start := by
    simp only [State.restore, State.moveTo, List.take_take, Nat.min_self]
  cases outcome with
  | ok => rfl
  | fail => exact congrArg (Prod.mk Outcome.fail) htwice
  | noMatch => exact congrArg (Prod.mk Outcome.noMatch) htwice

theorem SameSettled.of_retraced {s s' : State input U} (h : s.Retraced s') (start : Position)
    (outcome : Outcome) : SameSettled start (outcome, s) (outcome, s') := by
  have hreply : SameReply State.Retraced (outcome, s) (outcome, s') := ⟨rfl, h⟩
  exact settle_respects State.Retraced.indifferent hreply start

theorem SameSettled.symm (h : SameSettled start reply reply') : SameSettled start reply' reply :=
  ⟨h.outcome_eq.symm, h.related.symm⟩

theorem SameSettled.trans (h : SameSettled start reply reply')
    (h' : SameSettled start reply' reply'') : SameSettled start reply reply'' :=
  ⟨h'.outcome_eq.trans h.outcome_eq, h.related.trans h'.related⟩

/-- Going back makes no difference, and neither does writing something down behind that. -/
theorem sameSettled_settle (start : Position) (reply : Reply input U) (event : Unit → Event) :
    SameSettled start reply ((settle start reply).1, (settle start reply).2.noted event) := by
  have hsettled : SameSettled start reply (settle start reply) := by
    rw [SameSettled, settle_settle]
    exact ⟨rfl, .refl _⟩
  exact hsettled.trans (.of_retraced ((State.Retraced.refl _).noted event) start _)

variable {s s' : State input U} {outcome outcome' : Outcome}

/-- What it means for two replies to be the same once one has gone back. -/
theorem sameSettled_iff : SameSettled start (outcome, s) (outcome', s') ↔
    outcome' = outcome ∧ (outcome = .ok → s.Retraced s') ∧
      (outcome ≠ .ok → (s.restore start).Retraced (s'.restore start)) := by
  constructor
  · rintro ⟨houtcome, hs⟩
    cases outcome <;> cases outcome' <;> simp_all [settle]
  · rintro ⟨rfl, hok, hback⟩
    cases outcome' with
    | ok => exact ⟨rfl, hok rfl⟩
    | fail => exact ⟨rfl, hback Outcome.noConfusion⟩
    | noMatch => exact ⟨rfl, hback Outcome.noConfusion⟩

/-- Replies stay the same when something is done to both states that has nothing to do with going
back. -/
theorem SameSettled.map {leave : State input U → State input U}
    (hback : ∀ s, (leave s).restore start = leave (s.restore start))
    (hleave : ∀ {s s'}, s.Retraced s' → (leave s).Retraced (leave s'))
    (h : SameSettled start (outcome, s) (outcome', s')) :
    SameSettled start (outcome, leave s) (outcome', leave s') := by
  obtain ⟨rfl, hok, hundone⟩ := sameSettled_iff.1 h
  refine sameSettled_iff.2 ⟨rfl, fun ho ↦ hleave (hok ho), fun ho ↦ ?_⟩
  rw [hback, hback]
  exact hleave (hundone ho)

end

/-! ## Layers -/

namespace Coincide

variable {body body' body'' : Position → Step input U}

/-- There are two ways for two bodies to coincide. -/
theorem cases (h : Coincide body body') {s s' : State input U} (hs : s.Retraced s') :
    (body s.position s = none ∧ body' s.position s' = none) ∨
      ∃ outcome s₁ s₁', body s.position s = some (outcome, s₁) ∧
        body' s.position s' = some (outcome, s₁') ∧
        SameSettled s.position (outcome, s₁) (outcome, s₁') := by
  have hreplies := h hs
  generalize body s.position s = reply? at hreplies ⊢
  generalize body' s.position s' = reply?' at hreplies ⊢
  rcases hreplies with @⟨⟨outcome, s₁⟩, ⟨outcome', s₁'⟩, hreply⟩ | _
  · obtain ⟨rfl, -⟩ := sameSettled_iff.1 hreply
    exact .inr ⟨_, _, _, rfl, rfl, hreply⟩
  · exact .inl ⟨rfl, rfl⟩

theorem symm (h : Coincide body body') : Coincide body' body := by
  intro s s' hs
  have hposition : s'.position = s.position := State.Retraced.indifferent.position_eq hs
  rcases h.cases hs.symm with ⟨h₁, h₁'⟩ | ⟨_, s₁, s₁', h₁, h₁', hreply⟩
  all_goals
    rw [hposition] at h₁ h₁'
    rw [h₁, h₁']
  · exact .none
  · exact .some (hposition ▸ hreply.symm)

theorem trans (h : Coincide body body') (h' : Coincide body' body'') : Coincide body body'' := by
  intro s s' hs
  rcases h.cases (.refl s) with ⟨h₁, h₁'⟩ | ⟨_, s₁, s₁', h₁, h₁', hreply⟩
  all_goals
    have hright := h' hs
    rw [h₁'] at hright
    rw [h₁]
  · exact hright
  · generalize body'' s.position s' = reply? at hright ⊢
    cases hright with
    | some hright => exact .some (hreply.trans hright)

theorem optional (h : Coincide body body') :
    Coincide (Evaluate.optional body) (Evaluate.optional body') := by
  intro s s' hs
  simp only [Evaluate.optional]
  rcases h.cases (State.Retraced.indifferent.silenceErrors hs) with
    ⟨h₁, h₁'⟩ | ⟨outcome, s₁, s₁', h₁, h₁', hreply⟩
  all_goals
    change body s.position s.silenceErrors = _ at h₁
    change body' s.position s'.silenceErrors = _ at h₁'
    simp only [h₁, h₁']
  · exact .none
  · have hheard : SameSettled s.position (outcome, s₁.unsilenceErrors)
        (outcome, s₁'.unsilenceErrors) :=
      hreply.map (fun _ ↦ rfl) State.Retraced.indifferent.unsilenceErrors
    obtain ⟨-, -, hback⟩ := sameSettled_iff.1 hheard
    cases outcome with
    | ok => exact .some hheard
    | noMatch => exact .some hheard
    | fail => exact .some (.of_retraced (hback Outcome.noConfusion) s.position .noMatch)

theorem lookahead (h : Coincide body body') :
    Coincide (Evaluate.lookahead body) (Evaluate.lookahead body') := by
  intro s s' hs
  simp only [Evaluate.lookahead]
  rcases h.cases (State.Retraced.indifferent.silenceResults hs) with
    ⟨h₁, h₁'⟩ | ⟨outcome, s₁, s₁', h₁, h₁', hreply⟩
  all_goals
    change body s.position s.silenceResults = _ at h₁
    change body' s.position s'.silenceResults = _ at h₁'
    simp only [h₁, h₁']
  · exact .none
  · have hheard : SameSettled s.silenceResults.position (outcome, s₁.unsilenceResults)
        (outcome, s₁'.unsilenceResults) :=
      hreply.map (fun _ ↦ rfl) State.Retraced.indifferent.unsilenceResults
    exact .some hheard

theorem flat (h : Coincide body body') :
    Coincide (Evaluate.flat body) (Evaluate.flat body') := by
  intro s s' hs
  simp only [Evaluate.flat]
  rcases h.lookahead.cases hs with ⟨h₁, h₁'⟩ | ⟨outcome, s₁, s₁', h₁, h₁', hreply⟩
  all_goals simp only [h₁, h₁']
  · exact .none
  · cases outcome with
    | ok =>
      have hs₁ : s₁.Retraced s₁' := (sameSettled_iff.1 hreply).2.1 rfl
      simp only [State.Retraced.indifferent.matched_eq hs₁]
      exact .some (.of_retraced (State.Retraced.indifferent.push hs₁ _) s.position .ok)
    | fail => exact .some hreply
    | noMatch => exact .some hreply

end Coincide

/-! ## Levels -/

section

variable {g : Grammar N U} {r : Rule N U}

/-- A rule on a level of its own is its body: what the level adds is a note on entering, going back,
and a note on leaving. -/
theorem coincide_step {eval : Rule N U → Step input U}
    (hbody : RespectsFrom State.Retraced (r.body g eval)) :
    Coincide (r.body g eval) fun _ ↦ r.step g eval := by
  intro s s' hs
  have hposition : s'.position = s.position := State.Retraced.indifferent.position_eq hs
  have hentered := hs.noted fun _ ↦ .enter (r.label g) s.position.offset
  simp only [step, hposition]
  rcases (hbody s.position).cases hentered with
    ⟨h₁, h₁'⟩ | ⟨outcome, s₁, s₁', h₁, h₁', hs₁⟩
  all_goals
    rw [h₁]
    rw [body] at h₁'
    simp only [h₁']
  · exact .none
  · exact .some ((SameSettled.of_retraced hs₁ s.position outcome).trans (sameSettled_settle _ _ _))

/-- The body of a rule does not look at what has been traced, if none of the actions involved
does. -/
theorem body_respects (budget : Nat)
    (hr : ∀ action : Action N U, r.Involves g @action → UntracingAction @action) :
    RespectsFrom State.Retraced (r.body g (evaluate g budget) : Position → Step input U) := by
  have hR : Indifferent (State.Retraced : State input U → State input U → Prop) :=
    State.Retraced.indifferent
  have hkind := Evaluate.kind_concordant hR.concordant
    (fun rule hrule _ ↦ evaluate_respects hR budget
      fun action hinvolves ↦ hr @action (.within hrule hinvolves) input)
    (fun action hruns _ start _ _ hs ↦ (hr @action (.here hruns) input start hs).run
      fun n hasks ↦ evaluate_respects hR budget
        fun action' hinvolves ↦ hr @action' (.asked hruns hasks hinvolves) input) r.name
  have hfrom : SimulatesFrom (fun _ : Unit ↦ State.Retraced) (fun start start' ↦ start' = start)
      (Evaluate.kind g (evaluate g budget) r.name r.kind)
      (Evaluate.kind g (evaluate g budget) r.name r.kind : Position → Step input U) := by
    rintro i _ start rfl
    exact hkind i start
  exact fun start ↦ Evaluate.modified_simulates State.Retraced.lockstep r.modifiers hfrom () rfl

theorem coincide_evaluate (budget : Nat)
    (hr : ∀ action : Action N U, r.Involves g @action → UntracingAction @action) :
    Coincide (r.body g (evaluate g budget) : Position → Step input U)
      fun _ ↦ r.evaluate g (budget + 1) :=
  coincide_step (body_respects budget hr)

/-- **One layer**: modifiers on a reference to a rule do what they do around the body of the
rule. -/
theorem Coincide.referredIf {m : Modifiers}
    (hm : ∀ {body body' : Position → Step input U}, Coincide body body' →
      Coincide (Evaluate.modified m body) (Evaluate.modified m body'))
    (wanted : Bool) {budget : Nat}
    (hr : ∀ action : Action N U, r.Involves g @action → UntracingAction @action)
    {body : Position → Step input U} (h : Coincide body fun _ ↦ r.evaluate g budget) :
    Coincide (Evaluate.wrapIf wanted (Evaluate.modified m) body)
      fun _ ↦ (referredIf wanted m r).evaluate g (budget + wanted.toNat) := by
  cases wanted with
  | false => exact h
  | true =>
    have hlevel : Coincide (Evaluate.modified m fun _ ↦ r.evaluate g budget)
        (fun _ ↦ ((reference r).modified m).evaluate g (budget + 1) : Position → Step input U) :=
      coincide_evaluate (r := (reference r).modified m) budget fun action hinvolves ↦
        hr @action (hinvolves.of_reference rfl)
    exact (hm h).trans hlevel

/-- The layers around the repetition, taken apart. -/
theorem body_eq_layers (r : Rule N U) (eval : Rule N U → Step input U) :
    r.body g eval =
      (Evaluate.wrapIf r.modifiers.optional Evaluate.optional <|
        Evaluate.wrapIf r.modifiers.lookahead Evaluate.lookahead <|
        Evaluate.wrapIf r.modifiers.flat Evaluate.flat <| r.bare.body g eval) := by
  have hrepetition : (r.modifiers.repeated && !r.modifiers.repeatedOrNone ||
      r.modifiers.repeatedOrNone) = (r.modifiers.repeated || r.modifiers.repeatedOrNone) := by
    cases r.modifiers.repeated <;> cases r.modifiers.repeatedOrNone <;> rfl
  simp only [body, bare, Evaluate.modified, hrepetition]
  rfl

/-- The layers of a rule, from the inside out. -/
theorem coincide_nested (budget : Nat)
    (hr : ∀ action : Action N U, r.Involves g @action → UntracingAction @action) :
    Coincide (r.body g (evaluate g budget) : Position → Step input U)
      fun _ ↦ r.nested.evaluate g (budget + 1 + r.modifiers.layers) := by
  let flattened := referredIf r.modifiers.flat { flat := true } r.bare
  let tested := referredIf r.modifiers.lookahead { lookahead := true } flattened
  have hbare (action : Action N U) (h : r.bare.Involves g @action) : UntracingAction @action :=
    hr @action (h.of_kind_eq (show r.kind = r.bare.kind from rfl))
  have hflattened (action : Action N U) (h : flattened.Involves g @action) :
      UntracingAction @action :=
    hbare @action h.of_referredIf
  have htested (action : Action N U) (h : tested.Involves g @action) : UntracingAction @action :=
    hflattened @action h.of_referredIf
  have hrepetition : Coincide (r.bare.body g (evaluate g budget) : Position → Step input U)
      fun _ ↦ r.bare.evaluate g (budget + 1) :=
    coincide_evaluate budget hbare
  have hflat := Coincide.referredIf (m := { flat := true }) Coincide.flat r.modifiers.flat hbare
    hrepetition
  have hlookahead := Coincide.referredIf (m := { lookahead := true }) Coincide.lookahead
    r.modifiers.lookahead hflattened hflat
  have hoptional := Coincide.referredIf (m := { optional := true }) Coincide.optional
    r.modifiers.optional htested hlookahead
  rw [body_eq_layers, Modifiers.layers, ← Nat.add_assoc, ← Nat.add_assoc]
  exact hoptional

/-- Two levels that coincide come to the same, since both have gone back where they had to. -/
theorem Coincide.replies {r' : Rule N U} {budget budget' : Nat}
    (h : Coincide (fun _ ↦ r.evaluate g budget)
      (fun _ ↦ r'.evaluate g budget' : Position → Step input U)) (s : State input U) :
    Option.Rel (SameReply State.Retraced) (r.evaluate g budget s) (r'.evaluate g budget' s) := by
  rcases h.cases (.refl s) with ⟨h₁, h₁'⟩ | ⟨outcome, s₁, s₁', h₁, h₁', hreply⟩
  all_goals rw [h₁, h₁']
  · exact .none
  · rw [SameSettled, (evaluate_returns h₁).settle_eq, (evaluate_returns h₁').settle_eq] at hreply
    exact .some hreply

end

/-! ## Whole rules -/

/-- **Modifiers are wrappers around one another.**  Let no action involved in matching a rule look
at what has been traced.  The rule comes to the same as its modifiers written out, one for each
reference: if one of the two terminates, so does the other, with the same outcome, and the states
that they leave differ in nothing but the trace.  In particular a reference comes to the same as the
rule it leads to, and to match a rule once or more often adds nothing to matching it any number of
times. -/
theorem evaluate_nested (g : Grammar N U) (budget : Nat) (r : Rule N U)
    (huntracing : ∀ action : Action N U, r.Involves g @action → UntracingAction @action)
    (s : State input U) :
    Option.Rel (SameReply State.Retraced) (r.evaluate g (budget + 1) s)
        (r.nested.evaluate g (budget + 1 + r.modifiers.layers) s) ∧
      Option.Rel (SameReply State.Retraced) (r.evaluate g (budget + 1) s)
        ((reference r).evaluate g (budget + 2) s) ∧
      Option.Rel (SameReply State.Retraced) (r.repeatedOrNone.evaluate g (budget + 1) s)
        (r.repeatedOrNone.repeated.evaluate g (budget + 1) s) := by
  have hrule : Coincide (r.body g (evaluate g budget) : Position → Step input U)
      fun _ ↦ r.evaluate g (budget + 1) :=
    coincide_evaluate budget huntracing
  have hreference : Coincide
      (fun _ ↦ r.evaluate g (budget + 1))
      (fun _ ↦ (reference r).evaluate g (budget + 2) : Position → Step input U) :=
    coincide_evaluate (r := reference r) (budget + 1) fun action h ↦
      huntracing @action (h.of_reference rfl)
  have hany : Coincide
      (r.repeatedOrNone.body g (evaluate g budget) : Position → Step input U)
      fun _ ↦ r.repeatedOrNone.evaluate g (budget + 1) :=
    coincide_evaluate budget fun action h ↦
      huntracing @action (h.of_kind_eq (show r.kind = r.repeatedOrNone.kind from rfl))
  have hboth : Coincide
      (r.repeatedOrNone.repeated.body g (evaluate g budget) : Position → Step input U)
      fun _ ↦ r.repeatedOrNone.repeated.evaluate g (budget + 1) :=
    coincide_evaluate budget fun action h ↦
      huntracing @action (h.of_kind_eq (show r.kind = r.repeatedOrNone.repeated.kind from rfl))
  have hbody : r.repeatedOrNone.repeated.body g (evaluate g budget) =
      (r.repeatedOrNone.body g (evaluate g budget) : Position → Step input U) := by
    simp [body, repeated, repeatedOrNone, modified, Modifiers.union, Evaluate.modified]
  rw [hbody] at hboth
  exact ⟨(hrule.symm.trans (coincide_nested budget huntracing)).replies s, hreference.replies s,
    (hany.symm.trans hboth).replies s⟩

/-! ### Integers that go on as long as there are any -/

/-- Integers, one after the other, as one span; there may be none. -/
def integerSpan : Rule Unit Unit :=
  askInteger.repeated.repeatedOrNone.flat.optional.named "integers"

/-- There is one integer, and behind it none: written out or not, the rule matches as far as that,
and adds what it has matched. -/
theorem evaluate_nested_integerSpan :
    (∀ action : Action Unit Unit, integerSpan.Involves integers @action →
        UntracingAction @action) ∧
      integerSpan.modifiers.layers = 2 ∧
      ∃ t t', integerSpan.evaluate integers 8 notWhole = some (.ok, t) ∧
        integerSpan.nested.evaluate integers 10 notWhole = some (.ok, t') ∧
        t.Retraced t' ∧ t.cursor = 1 ∧ t.results = [.slice [0x37]] := by
  have huntracing (action : Action Unit Unit) (h : integerSpan.Involves integers @action) :
      UntracingAction @action :=
    askInteger_untracing @action (h.of_kind_eq (show askInteger.kind = integerSpan.kind from rfl))
  have hmatched : (integerSpan.evaluate integers 8 notWhole).map
      (fun (outcome, t) ↦ (outcome, t.cursor, t.results)) =
        some (.ok, 1, [.slice [0x37]]) := by decide +kernel
  obtain ⟨⟨outcome, t⟩, h, heq⟩ := Option.map_eq_some_iff.1 hmatched
  obtain ⟨rfl, hleft⟩ := Prod.mk.inj heq
  obtain ⟨hcursor, hresults⟩ := Prod.mk.inj hleft
  obtain ⟨hnested, -⟩ := evaluate_nested integers 7 integerSpan huntracing notWhole
  have hlayers : integerSpan.modifiers.layers = 2 := rfl
  rw [hlayers] at hnested
  obtain ⟨⟨outcome', t'⟩, h', hsame⟩ := exists_of_rel hnested h
  obtain ⟨rfl, hretraced⟩ := hsame
  exact ⟨huntracing, hlayers, t, t', h, h', hretraced, hcursor, hresults⟩

end Rule
end DocGrammar
