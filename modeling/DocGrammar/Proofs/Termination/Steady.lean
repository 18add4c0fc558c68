import DocGrammar.Proofs.Plain

/-!
# Rules that come to an end

A rule that leads to no other rule by name is a finite tree, and matching it nests no deeper than
the tree is high.  This file shows more than that it comes to an end: whatever relation the steps of
the engine keep between the state before and the state after, the rule keeps too.

`Steady` says what is asked of the relation, one field for each thing the engine does on its own.
Two parameters say for which rules: which labels may be written down, and which bytes may be
consumed.  `Goes` is the conclusion for one run: there is a reply, and its state is related to the
one before.

The lemmas on the combinators ask for the same of the rules inside, for all states with at most a
given number of bytes left, so they serve recursive rules as well.  The last theorem,
`Rule.evaluate_sure`, is for the finite trees, which `Rule.fitsWithin` recognizes.
-/

set_option autoImplicit false

namespace DocGrammar

variable {N U : Type} {input : Array UInt8}

/-! ## Relations that the engine keeps -/

/-- The engine keeps the relation between the state before and the state after, as long as it
enters rules with `inert` labels only, and consumes bytes that fit. -/
structure Steady (inert : String → Bool) (fits : UInt8 → Bool)
    (R : State input U → State input U → Prop) : Prop where
  refl : ∀ s, R s s
  trans : ∀ {s s' s''}, R s s' → R s' s'' → R s s''
  /-- The cursor does not go back. -/
  cursor_le : ∀ {s s'}, R s s' → s.cursor ≤ s'.cursor
  /-- The cursor may move on over bytes that fit, -/
  forward : ∀ {s s'}, s.Forward fits s' → R s s'
  /-- a failure be recorded at the cursor, -/
  fail : ∀ s reason, R s (s.fail reason).2
  /-- and whatever was done be undone. -/
  restore : ∀ {s s'}, R s s' → ∀ start : Position, start.offset = s.cursor → R s (s'.restore start)
  /-- It may be done with failures silenced, -/
  silently : ∀ {s s'}, R s.silenceErrors s' → R s s'.unsilenceErrors
  /-- in the attempts of a choice, -/
  conclude : ∀ {s ended}, R { s.silenceErrors with furthest := none } ended → ∀ name outcome,
    R s (Evaluate.conclude name s.cursor s outcome ended)
  /-- and between entering and leaving a rule. -/
  within : ∀ {label}, inert label = true → ∀ {s s'} offset,
    R (s.noted fun _ ↦ .enter label offset) s' → ∀ offset' outcome,
    R s (s'.noted fun _ ↦ .leave label offset' outcome)

/-- There is a reply, and its state is related to the one before. -/
def Goes (R : State input U → State input U → Prop) (s : State input U)
    (reply? : Option (Reply input U)) : Prop :=
  ∃ outcome s', reply? = some (outcome, s') ∧ R s s'

/-- A piece of evaluation that goes somewhere from every state with at most `n` bytes left. -/
def Sure (R : State input U → State input U → Prop) (n : Nat) (step : Step input U) : Prop :=
  ∀ s : State input U, input.size - s.cursor ≤ n → Goes R s (step s)

/-- The body of a rule that goes somewhere, if it starts where the state is. -/
def SureFrom (R : State input U → State input U → Prop) (n : Nat)
    (body : Position → Step input U) : Prop :=
  ∀ (start : Position) (s : State input U), start.offset = s.cursor → input.size - s.cursor ≤ n →
    Goes R s (body start s)

section

variable {inert : String → Bool} {fits : UInt8 → Bool} {R : State input U → State input U → Prop}
  (hR : Steady inert fits R) {n : Nat}

include hR

namespace Steady

/-- Whatever is no matter of diagnostics may change in place. -/
theorem still {s s' : State input U} (h : s.Quiet s') (hcursor : s'.cursor = s.cursor) : R s s' :=
  hR.forward (h.forward hcursor)

theorem push {s s' : State input U} (h : R s s') (value : Value) : R s (s'.push value) :=
  hR.trans h (hR.still (s'.push_quiet value) (s'.push_cursor value))

theorem muted {s s' : State input U} (h : R s.silenceResults s') : R s s'.unsilenceResults :=
  hR.trans (hR.still s.silenceResults_quiet rfl)
    (hR.trans h (hR.still s'.unsilenceResults_quiet rfl))

theorem fail_reply (s : State input U) (reason : Reason) : Goes R s (some (s.fail reason)) :=
  ⟨_, _, rfl, hR.fail s reason⟩

/-- Whatever is plain goes somewhere. -/
theorem plain_reply {s : State input U} {reply : Reply input U} (h : PlainTo fits s reply) :
    Goes R s (some reply) := by
  obtain ⟨s', hforward, rfl | ⟨reason, rfl⟩⟩ := h
  · exact ⟨.ok, s', rfl, hR.forward hforward⟩
  · exact ⟨_, _, rfl, hR.trans (hR.forward hforward) (hR.fail s' reason)⟩

/-- Fewer bytes are left afterwards. -/
theorem left_le {s s' : State input U} (h : R s s') (hs : input.size - s.cursor ≤ n) :
    input.size - s'.cursor ≤ n := by
  have := hR.cursor_le h
  omega

/-- One thing after another. -/
theorem goes_trans {s s' : State input U} {reply? : Option (Reply input U)} (h : R s s')
    (h' : Goes R s' reply?) : Goes R s reply? := by
  obtain ⟨outcome, s'', hreply, hs⟩ := h'
  exact ⟨outcome, s'', hreply, hR.trans h hs⟩

end Steady

/-! ## Sequences and choices -/

namespace Evaluate

theorem inOrder_sure {eval : Rule N U → Step input U} {rules : List (Rule N U)}
    (heval : ∀ r ∈ rules, Sure R n (eval r)) (outcome : Outcome) :
    Sure R n (inOrder eval rules outcome) := by
  induction rules generalizing outcome with
  | nil => exact fun s _ ↦ ⟨outcome, s, rfl, hR.refl s⟩
  | cons rule rest ih =>
    intro s hs
    have hrest := ih fun r hr ↦ heval r (List.mem_cons_of_mem rule hr)
    obtain ⟨o, s₁, hrule, h₁⟩ := heval rule List.mem_cons_self s hs
    have hs₁ := hR.left_le h₁ hs
    simp only [inOrder, hrule]
    cases o with
    | ok => exact hR.goes_trans h₁ (hrest .ok s₁ hs₁)
    | fail => exact ⟨.fail, s₁, rfl, h₁⟩
    | noMatch => exact hR.goes_trans h₁ (hrest outcome s₁ hs₁)

theorem firstOf_sure {eval : Rule N U → Step input U} {rules : List (Rule N U)}
    (heval : ∀ r ∈ rules, Sure R n (eval r)) :
    SureFrom R n fun start ↦ firstOf eval start rules := by
  induction rules with
  | nil => exact fun _ s _ _ ↦ ⟨.fail, s, rfl, hR.refl s⟩
  | cons rule rest ih =>
    intro start s hstart hs
    have hrest := ih fun r hr ↦ heval r (List.mem_cons_of_mem rule hr)
    obtain ⟨o, s₁, hrule, h₁⟩ := heval rule List.mem_cons_self s hs
    have hback := hR.restore h₁ start hstart
    have hcursor : start.offset = (s₁.restore start).cursor :=
      (Nat.min_eq_left (hstart ▸ s.cursor_le)).symm
    have hnext := hR.goes_trans hback
      (hrest start (s₁.restore start) hcursor (hR.left_le hback hs))
    simp only [firstOf, hrule]
    cases o with
    | ok => exact ⟨.ok, s₁, rfl, h₁⟩
    | fail => exact hnext
    | noMatch => exact hnext

theorem choice_sure {eval : Rule N U → Step input U} {rules : List (Rule N U)}
    (heval : ∀ r ∈ rules, Sure R n (eval r)) (name : Option String) :
    SureFrom R n (choice eval name rules) := by
  intro start s hstart hs
  rw [choice_eq_conclude]
  obtain ⟨outcome, ended, hattempts, hended⟩ := firstOf_sure hR heval start
    { s.silenceErrors with furthest := none } hstart hs
  dsimp only at hattempts
  exact ⟨outcome, _, by rw [hattempts]; rfl, hstart ▸ hR.conclude hended name outcome⟩

/-! ## Kinds -/

theorem bounded_sure {inside : Step input U} (hinside : Sure R n inside) {opener closer : UInt8}
    (hopener : fits opener = true) (hcloser : fits closer = true) :
    Sure R n (bounded opener closer inside) := by
  intro s hs
  -- what is done behind the inside, unless it failed
  have hclosing {s₁ : State input U} (h₁ : R s s₁) : Goes R s
      (if s₁.peek = some closer then some (.ok, s₁.advance 1)
        else some (s₁.fail (.expectedCloser closer))) := by
    split
    · next hpeek =>
      exact ⟨.ok, _, rfl, hR.trans h₁ (hR.forward (State.advance_one_forward hpeek hcloser))⟩
    · exact hR.goes_trans h₁ (hR.fail_reply s₁ _)
  simp only [bounded]
  split
  · next hpeek =>
    have hopened := hR.forward (State.advance_one_forward hpeek hopener)
    obtain ⟨o, s₁, hin, h₁⟩ := hinside (s.advance 1) (hR.left_le hopened hs)
    have hboth := hR.trans hopened h₁
    rw [hin]
    cases o with
    | ok => exact hclosing hboth
    | fail => exact ⟨.fail, s₁, rfl, hboth⟩
    | noMatch => exact hclosing hboth
  · exact hR.fail_reply s _

/-- A kind of rule that goes somewhere, since the rules inside do and its action does. -/
theorem kind_sure {g : Grammar N U} {eval : Rule N U → Step input U} {k : Kind N U (Rule N U)}
    (hfits : k.fits fits = true) (hinner : ∀ r ∈ k.inner g, Sure R n (eval r))
    (hruns : ∀ action : Action N U, k.Runs @action → ∀ start,
      Sure R n fun s ↦ (action s start).run fun n ↦ eval (g n))
    (name : Option String) : SureFrom R n (kind g eval name k) := by
  intro start s hstart hs
  cases k with
  | nothing => exact ⟨.ok, s, rfl, hR.refl s⟩
  | atStart => exact hR.plain_reply (given_plain s _ _)
  | atEnd => exact hR.plain_reply (given_plain s _ _)
  | emptyInput => exact hR.plain_reply (given_plain s _ _)
  | byte b =>
    refine hR.plain_reply (oneByte_plain s (fun c hc ↦ ?_) _)
    rw [eq_of_beq hc]
    exact hfits
  | range low high => exact hR.plain_reply (oneByte_plain s (fun c hc ↦ Kind.fits_range hfits hc) _)
  | literal bytes => exact hR.plain_reply (literal_plain s hfits start)
  | bounded opener closer inner =>
    obtain ⟨hopener, hcloser⟩ := Bool.and_eq_true_iff.1 hfits
    exact bounded_sure hR (hinner inner List.mem_cons_self) hopener hcloser s hs
  | anyOf rules => exact choice_sure hR hinner name start s hstart hs
  | allOf rules => exact inOrder_sure hR hinner .noMatch s hs
  | reference rule => exact hinner rule List.mem_cons_self s hs
  | symbol n => exact hinner (g n) List.mem_cons_self s hs
  | leaf action => exact hruns action rfl start s hs
  | closing inner action =>
    obtain ⟨o, s₁, hin, h₁⟩ := hinner inner List.mem_cons_self s hs
    simp only [kind, hin]
    cases o with
    | ok =>
      dsimp only
      split
      · exact hR.goes_trans h₁ (hruns action rfl start s₁ (hR.left_le h₁ hs))
      · exact ⟨.ok, s₁, rfl, h₁⟩
    | fail => exact ⟨.fail, s₁, rfl, h₁⟩
    | noMatch => exact ⟨.noMatch, s₁, rfl, h₁⟩

/-! ## Repetition and modifiers -/

theorem again_sure {body : Position → Step input U} (hbody : SureFrom R n body) (rounds : Nat)
    (s : State input U) (hs : input.size - s.cursor ≤ n) :
    ∃ s', again body rounds s = some s' ∧ R s s' := by
  induction rounds generalizing s with
  | zero => exact ⟨s, rfl, hR.refl s⟩
  | succ rounds ih =>
    obtain ⟨o, s₁, hround, h₁⟩ := hbody s.position s rfl hs
    have hback := hR.restore h₁ s.position rfl
    simp only [again, hround]
    cases o with
    | ok =>
      dsimp only
      split
      · obtain ⟨s', hagain, h'⟩ := ih s₁ (hR.left_le h₁ hs)
        exact ⟨s', hagain, hR.trans h₁ h'⟩
      · exact ⟨s₁, rfl, h₁⟩
    | fail => exact ⟨_, rfl, hback⟩
    | noMatch => exact ⟨_, rfl, hback⟩

theorem repeated_sure {body : Position → Step input U} (hbody : SureFrom R n body) :
    SureFrom R n (repeated body) := by
  intro start s hstart hs
  obtain ⟨o, s₁, hfirst, h₁⟩ := hbody start s hstart hs
  simp only [repeated, hfirst]
  cases o with
  | ok =>
    have hs₁ : input.size - s₁.cursor ≤ n := hR.left_le h₁ hs
    obtain ⟨s₂, hagain, h₂⟩ :=
      again_sure hR hbody (input.size + 1 - s₁.cursor) s₁.silenceErrors hs₁
    simp only [hagain]
    exact ⟨.ok, _, rfl, hR.trans h₁ (hR.silently h₂)⟩
  | fail => exact ⟨.fail, s₁, rfl, h₁⟩
  | noMatch => exact ⟨.noMatch, s₁, rfl, h₁⟩

theorem optional_sure {body : Position → Step input U} (hbody : SureFrom R n body) :
    SureFrom R n (optional body) := by
  intro start s hstart hs
  obtain ⟨o, s₁, hquiet, h₁⟩ := hbody start s.silenceErrors hstart hs
  have hheard := hR.silently h₁
  simp only [optional, hquiet]
  cases o with
  | ok => exact ⟨.ok, _, rfl, hheard⟩
  | fail => exact ⟨.noMatch, _, rfl, hR.restore hheard start hstart⟩
  | noMatch => exact ⟨.noMatch, _, rfl, hheard⟩

theorem lookahead_sure {body : Position → Step input U} (hbody : SureFrom R n body) :
    SureFrom R n (lookahead body) := by
  intro start s hstart hs
  obtain ⟨o, s₁, hquiet, h₁⟩ := hbody start s.silenceResults hstart hs
  simp only [lookahead, hquiet]
  exact ⟨o, _, rfl, hR.muted h₁⟩

theorem flat_sure {body : Position → Step input U} (hbody : SureFrom R n body) :
    SureFrom R n (flat body) := by
  intro start s hstart hs
  obtain ⟨o, s₁, hlookahead, h₁⟩ := lookahead_sure hR hbody start s hstart hs
  simp only [flat, hlookahead]
  cases o with
  | ok => exact ⟨.ok, _, rfl, hR.push h₁ _⟩
  | fail => exact ⟨.fail, s₁, rfl, h₁⟩
  | noMatch => exact ⟨.noMatch, s₁, rfl, h₁⟩

omit hR in
theorem wrapIf_sure {wrapper : (Position → Step input U) → Position → Step input U}
    (hwrapper : ∀ {body}, SureFrom R n body → SureFrom R n (wrapper body)) (wanted : Bool)
    {body : Position → Step input U} (hbody : SureFrom R n body) :
    SureFrom R n (wrapIf wanted wrapper body) := by
  cases wanted with
  | false => exact hbody
  | true => exact hwrapper hbody

theorem modified_sure (m : Modifiers) {body : Position → Step input U} (hbody : SureFrom R n body) :
    SureFrom R n (modified m body) :=
  wrapIf_sure (optional_sure hR) _ <|
  wrapIf_sure (lookahead_sure hR) _ <|
  wrapIf_sure (flat_sure hR) _ <|
  wrapIf_sure (optional_sure hR) _ <|
  wrapIf_sure (repeated_sure hR) _ hbody

end Evaluate

/-! ## Whole rules -/

namespace Rule

theorem settle_goes {s : State input U} {start : Position} (hstart : start.offset = s.cursor)
    {outcome : Outcome} {s' : State input U} (h : R s s') :
    R s (settle start (outcome, s')).2 := by
  cases outcome with
  | ok => exact h
  | fail => exact hR.restore h start hstart
  | noMatch => exact hR.restore h start hstart

/-- One level of evaluation, between entering the rule and leaving it. -/
theorem step_goes {g : Grammar N U} {eval : Rule N U → Step input U} {r : Rule N U}
    (hbody : SureFrom R n (Evaluate.kind g eval r.name r.kind)) (s : State input U)
    (hs : input.size - s.cursor ≤ n) :
    ∃ outcome s', R (s.noted fun _ ↦ .enter (r.label g) s.position.offset) s' ∧
      r.step g eval s =
        some (outcome, s'.noted fun _ ↦ .leave (r.label g) s'.cursor outcome) := by
  obtain ⟨o, s₁, hreply, h₁⟩ := Evaluate.modified_sure hR r.modifiers hbody s.position
    (s.noted fun _ ↦ .enter (r.label g) s.position.offset) (s.noted_cursor _).symm
    (by rwa [s.noted_cursor])
  have hsettled : R _ (settle s.position (o, s₁)).2 := settle_goes hR (s.noted_cursor _).symm h₁
  exact ⟨(settle s.position (o, s₁)).1, (settle s.position (o, s₁)).2, hsettled, by
    simp only [step, hreply]⟩

theorem step_sure {g : Grammar N U} {eval : Rule N U → Step input U} {r : Rule N U}
    (hlabel : inert (r.label g) = true)
    (hbody : SureFrom R n (Evaluate.kind g eval r.name r.kind)) : Sure R n (r.step g eval) := by
  intro s hs
  obtain ⟨outcome, s', hR', hstep⟩ := step_goes hR hbody s hs
  exact ⟨_, _, hstep, hR.within hlabel _ hR' _ _⟩

end Rule

end

/-! ## Finite rules -/

/-- A rule no higher than the depth that leads to no other rule by name, and neither is called
anything but inert nor consumes bytes that do not fit; and neither is, nor does, any rule
inside. -/
def Rule.fitsWithin (g : Grammar N U) (inert : String → Bool) (fits : UInt8 → Bool) :
    Nat → Rule N U → Bool
  | 0, _ => false
  | depth + 1, r =>
    inert (r.label g) && r.kind.fits fits &&
      match r.kind with
      | .bounded _ _ inner => fitsWithin g inert fits depth inner
      | .anyOf rules => rules.all (fitsWithin g inert fits depth)
      | .allOf rules => rules.all (fitsWithin g inert fits depth)
      | .reference rule => fitsWithin g inert fits depth rule
      | .symbol _ => false
      | .closing inner _ => fitsWithin g inert fits depth inner
      | _ => true

/-- An action that always comes to an end, and keeps a relation, whatever a symbol does that it asks
for. -/
def SteadyAction (R : State input U → State input U → Prop) (action : Action N U) : Prop :=
  ∀ (match? : N → Step input U) (start : Position) (s : State input U),
    Goes R s ((action s start).run match?)

theorem PlainAction.steady {inert : String → Bool} {fits : UInt8 → Bool}
    {R : State input U → State input U → Prop} (hR : Steady inert fits R) {action : Action N U}
    (h : PlainAction fits @action) : SteadyAction R @action := by
  intro match? start s
  obtain ⟨reply, hreply, hplain⟩ := h s start
  rw [hreply, Program.run]
  exact hR.plain_reply hplain

/-- **Finite rules come to an end**, and keep every relation that the engine and their actions
keep. -/
theorem Rule.evaluate_sure {inert : String → Bool} {fits : UInt8 → Bool}
    {R : State input U → State input U → Prop} (hR : Steady inert fits R) {g : Grammar N U}
    {depth : Nat} {r : Rule N U} (hr : r.fitsWithin g inert fits depth = true)
    (hactions : r.Every (SteadyAction (N := N) R)) {budget : Nat} (hbudget : depth ≤ budget)
    (n : Nat) : Sure R n (r.evaluate g budget) := by
  induction budget generalizing r depth with
  | zero =>
    obtain rfl := Nat.le_zero.1 hbudget
    cases hr
  | succ budget ih =>
    rcases depth with _ | depth
    · cases hr
    have hle := Nat.le_of_succ_le_succ hbudget
    obtain ⟨name, m, k⟩ := r
    simp only [fitsWithin, Bool.and_eq_true] at hr
    obtain ⟨⟨hlabel, hfits⟩, hinner⟩ := hr
    refine step_sure hR hlabel (Evaluate.kind_sure hR hfits (fun rule hrule ↦ ?_)
      (fun action hruns start s _ ↦ hactions.of_runs hruns _ start s) name)
    cases k with
    | bounded opener closer inner =>
      rw [List.mem_singleton.1 hrule]
      exact ih hinner hactions hle
    | anyOf rules =>
      exact ih (List.all_eq_true.1 hinner rule hrule) (everyIn_iff.1 hactions rule hrule) hle
    | allOf rules =>
      exact ih (List.all_eq_true.1 hinner rule hrule) (everyIn_iff.1 hactions rule hrule) hle
    | reference inner =>
      rw [List.mem_singleton.1 hrule]
      exact ih hinner hactions hle
    | symbol n => cases hinner
    | closing inner action =>
      rw [List.mem_singleton.1 hrule]
      exact ih hinner hactions.1 hle
    | _ => exact absurd hrule List.not_mem_nil

end DocGrammar
