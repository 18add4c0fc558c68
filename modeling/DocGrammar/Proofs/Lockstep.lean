import DocGrammar.Proofs.Actions
import DocGrammar.Proofs.Scan.Rest

/-!
# Two runs in lockstep

Two runs of the engine are in lockstep if they take the same way through the rules: they succeed and
fail at the same places, and what is done to the state of one is done to the state of the other.
Then whatever relation there is between the two states, it only has to survive the single
operations.  `Lockstep` lists these, and there is one lemma for each combinator of the evaluator;
the last ones are about one level of evaluation.

The relation is one of a family, since it may change on the way in and back again on the way out: a
lookahead silences results once more, and a choice sets the furthest failure aside.  The positions
to which the two runs go back are related as well, because they need not have the same results.  And
the two runs may use different evaluators for the rules inside, so that the rules themselves may
differ.

`Proofs.SideBySide` is about the case where one relation will do, and the results are the same.
-/

set_option autoImplicit false

namespace DocGrammar

variable {N U : Type} {input : Array UInt8}

/-! ## A choice in two parts -/

namespace Evaluate

/-- How a choice that was tried in one state leaves the state in which its attempts have ended. -/
def conclude (name : Option String) (offset : Nat) (before : State input U) (outcome : Outcome)
    (ended : State input U) : State input U :=
  let state := rejoin before.furthest ended.unsilenceErrors
  if outcome = .ok then state
  else
    match ended.furthest with
    | some inner =>
      if offset < inner.offset ∨ name = none then state.commitUnlessSilenced inner
      else (state.failAt offset (.noAlternative name)).2
    | none => (state.failAt offset (.noAlternative name)).2

/-- A choice is its attempts and the conclusion from them. -/
theorem choice_eq_conclude (eval : Rule N U → Step input U) (name : Option String)
    (rules : List (Rule N U)) (start : Position) (s : State input U) :
    choice eval name rules start s =
      (firstOf eval start rules { s.silenceErrors with furthest := none }).map
        fun (outcome, ended) ↦ (outcome, conclude name start.offset s outcome ended) := by
  rw [choice]
  generalize hattempts : firstOf eval start rules { s.silenceErrors with furthest := none } =
    attempts
  rcases attempts with _ | ⟨outcome, ended⟩
  · rfl
  · rcases firstOf_outcome hattempts with rfl | rfl
    · rfl
    · simp only [conclude, reduceCtorEq, if_false, Option.map_some]
      cases ended.furthest with
      | none => rfl
      | some inner =>
        dsimp only
        split
        · rfl
        · rfl

/-- A conclusion is a matter of diagnostics. -/
theorem conclude_same (name : Option String) (offset : Nat) (before : State input U)
    (outcome : Outcome) (ended : State input U) :
    ended.unsilenceErrors.Same (conclude name offset before outcome ended) := by
  have hrejoin := rejoin_same before.furthest ended.unsilenceErrors
  unfold conclude
  split
  · exact hrejoin
  · split
    · split
      · exact hrejoin.trans ⟨by constructor <;> simp, by simp⟩
      · exact hrejoin.trans (State.failAt_same _ _ _)
    · exact hrejoin.trans (State.failAt_same _ _ _)

end Evaluate

/-! ## Relations between two runs -/

section

variable {α β γ δ : Type} {Q Q' : α → β → Prop} {S : γ → δ → Prop} {f : α → γ} {f' : β → δ}
  {a? : Option α} {b? : Option β}

theorem rel_imp (h : Option.Rel Q a? b?) (hQ : ∀ a b, Q a b → Q' a b) : Option.Rel Q' a? b? := by
  cases h with
  | none => exact .none
  | some h => exact .some (hQ _ _ h)

theorem rel_map (h : Option.Rel Q a? b?) (hf : ∀ a b, Q a b → S (f a) (f' b)) :
    Option.Rel S (a?.map f) (b?.map f') := by
  cases h with
  | none => exact .none
  | some h => exact .some (hf _ _ h)

theorem exists_of_rel (h : Option.Rel Q a? b?) {a : α} (ha : a? = some a) :
    ∃ b, b? = some b ∧ Q a b := by
  cases h with
  | none => cases ha
  | some h =>
    cases ha
    exact ⟨_, rfl, h⟩

end

/-- The same outcome, with related states. -/
structure SameReply (R : State input U → State input U → Prop) (reply reply' : Reply input U) :
    Prop where
  outcome_eq : reply'.1 = reply.1
  related : R reply.2 reply'.2

/-- Two pieces of evaluation that come to the same reply in related states, but for the
relation. -/
def Simulates (R : State input U → State input U → Prop) (step step' : Step input U) : Prop :=
  ∀ ⦃s s' : State input U⦄, R s s' → Option.Rel (SameReply R) (step s) (step' s')

/-- There are two ways for two runs to be the same. -/
theorem Simulates.cases {R : State input U → State input U → Prop} {step step' : Step input U}
    (hstep : Simulates R step step') {s s' : State input U} (h : R s s') :
    (step s = none ∧ step' s' = none) ∨
      ∃ outcome s₁ s₁', step s = some (outcome, s₁) ∧ step' s' = some (outcome, s₁') ∧
        R s₁ s₁' := by
  have hreplies := hstep h
  generalize step s = reply? at hreplies ⊢
  generalize step' s' = reply?' at hreplies ⊢
  rcases hreplies with @⟨⟨outcome, s₁⟩, ⟨outcome', s₁'⟩, rfl, hs⟩ | _
  · exact .inr ⟨_, _, _, rfl, rfl, hs⟩
  · exact .inl ⟨rfl, rfl⟩

variable {ι : Type} {R : ι → State input U → State input U → Prop}
  {P : Position → Position → Prop}

/-- The bodies of two rules that come to the same, from wherever they start, for the whole family of
relations. -/
def SimulatesFrom (R : ι → State input U → State input U → Prop) (P : Position → Position → Prop)
    (body body' : Position → Step input U) : Prop :=
  ∀ (i : ι) ⦃start start' : Position⦄, P start start' →
    Simulates (R i) (body start) (body' start')

/-- What the engine does to both of two related states leaves them related, and what it asks of a
state does not tell them apart. -/
structure Lockstep (R : ι → State input U → State input U → Prop)
    (P : Position → Position → Prop) : Prop where
  /-- The cursor is the same, -/
  cursor_eq : ∀ {i s s'}, R i s s' → s'.cursor = s.cursor
  /-- and the positions to which the runs may go back have the same offset. -/
  offset_eq : ∀ {p p'}, P p p' → p'.offset = p.offset
  /-- Where the runs are, they may go back to later. -/
  position : ∀ {i s s'}, R i s s' → P s.position s'.position
  restore : ∀ {i s s'}, R i s s' → ∀ {p p'}, P p p' → R i (s.restore p) (s'.restore p')
  /-- Bytes may be consumed, -/
  advance : ∀ {i s s'}, R i s s' → ∀ n, R i (s.advance n) (s'.advance n)
  /-- a result be added, -/
  push : ∀ {i s s'}, R i s s' → ∀ value, R i (s.push value) (s'.push value)
  /-- and a failure be recorded. -/
  failAt : ∀ {i s s'}, R i s s' → ∀ offset reason,
    R i (s.failAt offset reason).2 (s'.failAt offset reason).2
  /-- Failures may be silenced and heard again. -/
  silenceErrors : ∀ {i s s'}, R i s s' → R i s.silenceErrors s'.silenceErrors
  unsilenceErrors : ∀ {i s s'}, R i s s' → R i s.unsilenceErrors s'.unsilenceErrors
  /-- While results are silenced the relation may be another one, -/
  muted : ∀ i, ∃ j, (∀ {s s'}, R i s s' → R j s.silenceResults s'.silenceResults) ∧
    ∀ {s s'}, R j s s' → R i s.unsilenceResults s'.unsilenceResults
  /-- and so it may during the attempts of a choice. -/
  tried : ∀ i, ∃ j, (∀ {s s'}, R i s s' →
      R j { s.silenceErrors with furthest := none } { s'.silenceErrors with furthest := none }) ∧
    ∀ {s s' ended ended'}, R i s s' → R j ended ended' → ∀ name offset outcome,
      R i (Evaluate.conclude name offset s outcome ended)
        (Evaluate.conclude name offset s' outcome ended')

namespace Lockstep

variable (hR : Lockstep R P) {i : ι} {s s' : State input U}

include hR

theorem peek_eq (h : R i s s') : s'.peek = s.peek := by
  simp only [State.peek, hR.cursor_eq h]

theorem atStart_eq (h : R i s s') : s'.atStart = s.atStart := by
  simp only [State.atStart, hR.cursor_eq h]

theorem atEnd_eq (h : R i s s') : s'.atEnd = s.atEnd := by
  simp only [State.atEnd, hR.cursor_eq h]

theorem matched_eq (h : R i s s') {start start' : Position} (hstart : P start start') :
    s'.matched start' = s.matched start := by
  simp only [State.matched, hR.cursor_eq h, hR.offset_eq hstart]

theorem fail (h : R i s s') (reason : Reason) :
    SameReply (R i) (s.fail reason) (s'.fail reason) := by
  simp only [State.fail_eq, hR.cursor_eq h]
  exact ⟨rfl, hR.failAt h _ _⟩

theorem okWith (h : R i s s') (value : Value) :
    SameReply (R i) (s.okWith value) (s'.okWith value) :=
  ⟨rfl, hR.push h value⟩

end Lockstep

/-! ## Sequences and choices -/

namespace Evaluate

variable {eval eval' : Rule N U → Step input U}

theorem inOrder_simulates {rules : List (Rule N U)} {R : State input U → State input U → Prop}
    (heval : ∀ r ∈ rules, Simulates R (eval r) (eval' r)) (outcome : Outcome) :
    Simulates R (inOrder eval rules outcome) (inOrder eval' rules outcome) := by
  induction rules generalizing outcome with
  | nil => exact fun _ _ h ↦ .some ⟨rfl, h⟩
  | cons rule rest ih =>
    intro s s' h
    have hrest := ih fun r hr ↦ heval r (List.mem_cons_of_mem _ hr)
    simp only [inOrder]
    rcases (heval rule List.mem_cons_self).cases h with
      ⟨h₁, h₁'⟩ | ⟨_ | _ | _, s₁, s₁', h₁, h₁', hs⟩
    all_goals simp only [h₁, h₁']
    · exact .none
    · exact hrest .ok hs
    · exact .some ⟨rfl, hs⟩
    · exact hrest outcome hs

variable (hR : Lockstep R P)

include hR

theorem firstOf_simulates {i : ι} {start start' : Position} (hstart : P start start')
    {rules : List (Rule N U)} (heval : ∀ r ∈ rules, Simulates (R i) (eval r) (eval' r)) :
    Simulates (R i) (firstOf eval start rules) (firstOf eval' start' rules) := by
  induction rules with
  | nil => exact fun _ _ h ↦ .some ⟨rfl, h⟩
  | cons rule rest ih =>
    intro s s' h
    have hrest := ih fun r hr ↦ heval r (List.mem_cons_of_mem _ hr)
    simp only [firstOf]
    rcases (heval rule List.mem_cons_self).cases h with
      ⟨h₁, h₁'⟩ | ⟨_ | _ | _, s₁, s₁', h₁, h₁', hs⟩
    all_goals simp only [h₁, h₁']
    · exact .none
    · exact .some ⟨rfl, hs⟩
    · exact hrest (hR.restore hs hstart)
    · exact hrest (hR.restore hs hstart)

theorem choice_simulates {rules : List (Rule N U)}
    (heval : ∀ r ∈ rules, ∀ i, Simulates (R i) (eval r) (eval' r)) (name : Option String) :
    SimulatesFrom R P (choice eval name rules) (choice eval' name rules) := by
  intro i start start' hstart s s' h
  obtain ⟨j, hentered, hconclude⟩ := hR.tried i
  rw [choice_eq_conclude, choice_eq_conclude, hR.offset_eq hstart]
  obtain ⟨h₁, h₁'⟩ | ⟨outcome, ended, ended', h₁, h₁', hs⟩ :=
    (firstOf_simulates hR hstart fun r hr ↦ heval r hr j).cases (hentered h)
  · rw [h₁, h₁']
    exact .none
  · rw [h₁, h₁']
    exact .some ⟨rfl, hconclude h hs _ _ _⟩

/-! ## Kinds -/

theorem given_simulates {i : ι} {s s' : State input U} (h : R i s s') (condition : Bool)
    (reason : Reason) : SameReply (R i) (given condition reason s) (given condition reason s') := by
  cases condition with
  | true => exact ⟨rfl, h⟩
  | false => exact hR.fail h reason

theorem oneByte_simulates {i : ι} {s s' : State input U} (h : R i s s') (accepts : UInt8 → Bool)
    (reason : Reason) :
    SameReply (R i) (oneByte accepts reason s) (oneByte accepts reason s') := by
  rw [oneByte, oneByte, hR.peek_eq h]
  split
  · split
    · exact hR.okWith (hR.advance h 1) _
    · exact hR.fail h reason
  · exact hR.fail h reason

theorem literal_simulates {i : ι} {s s' : State input U} (h : R i s s') (bytes : List UInt8)
    {start start' : Position} (hstart : P start start') :
    SameReply (R i) (literal bytes start s) (literal bytes start' s') := by
  have hadvance := hR.advance h bytes.length
  rw [literal, literal, hR.cursor_eq h]
  split
  · simp only [hR.matched_eq hadvance hstart]
    exact hR.okWith hadvance _
  · exact hR.fail h _

theorem bounded_simulates {i : ι} {inside inside' : Step input U}
    (hinside : Simulates (R i) inside inside') (opener closer : UInt8) :
    Simulates (R i) (bounded opener closer inside) (bounded opener closer inside') := by
  intro s s' h
  -- what is done behind the inside, unless it failed
  have hclosing {s₁ s₁' : State input U} (hs : R i s₁ s₁') :
      Option.Rel (SameReply (R i))
        (if s₁.peek = some closer then some (.ok, s₁.advance 1)
          else some (s₁.fail (.expectedCloser closer)))
        (if s₁'.peek = some closer then some (.ok, s₁'.advance 1)
          else some (s₁'.fail (.expectedCloser closer))) := by
    rw [hR.peek_eq hs]
    split
    · exact .some ⟨rfl, hR.advance hs 1⟩
    · exact .some (hR.fail hs _)
  rw [bounded, bounded, hR.peek_eq h]
  split
  · rcases hinside.cases (hR.advance h 1) with ⟨h₁, h₁'⟩ | ⟨_ | _ | _, s₁, s₁', h₁, h₁', hs⟩
    all_goals simp only [h₁, h₁']
    · exact .none
    · exact hclosing hs
    · exact .some ⟨rfl, hs⟩
    · exact hclosing hs
  · exact .some (hR.fail h _)

/-- A kind of rule whose inner rules are in lockstep.  What it does itself, if it runs an action,
has to be looked at apart. -/
theorem kind_simulates {g : Grammar N U} {k : Kind N U (Rule N U)}
    (hinner : ∀ r ∈ k.inner g, ∀ i, Simulates (R i) (eval r) (eval' r)) (name : Option String)
    (hruns : ∀ action : Action N U, k.Runs @action →
      SimulatesFrom R P (kind g eval name k) (kind g eval' name k)) :
    SimulatesFrom R P (kind g eval name k) (kind g eval' name k) := by
  intro i start start' hstart s s' h
  cases k with
  | nothing => exact .some ⟨rfl, h⟩
  | atStart =>
    rw [kind, kind, hR.atStart_eq h]
    exact .some (given_simulates hR h _ _)
  | atEnd =>
    rw [kind, kind, hR.atEnd_eq h]
    exact .some (given_simulates hR h _ _)
  | emptyInput =>
    rw [kind, kind, hR.atStart_eq h, hR.atEnd_eq h]
    exact .some (given_simulates hR h _ _)
  | byte b => exact .some (oneByte_simulates hR h _ _)
  | range low high => exact .some (oneByte_simulates hR h _ _)
  | literal bytes => exact .some (literal_simulates hR h bytes hstart)
  | bounded opener closer inner =>
    exact bounded_simulates hR (hinner inner List.mem_cons_self i) opener closer h
  | anyOf rules => exact choice_simulates hR hinner name i hstart h
  | allOf rules => exact inOrder_simulates (fun r hr ↦ hinner r hr i) .noMatch h
  | reference rule => exact hinner rule List.mem_cons_self i h
  | symbol n => exact hinner (g n) List.mem_cons_self i h
  | leaf action => exact hruns action rfl i hstart h
  | closing inner action => exact hruns action rfl i hstart h

/-! ## Repetition and modifiers -/

variable {body body' : Position → Step input U}

theorem again_simulates (hbody : SimulatesFrom R P body body') (rounds : Nat) {i : ι}
    {s s' : State input U} (h : R i s s') :
    Option.Rel (R i) (again body rounds s) (again body' rounds s') := by
  induction rounds generalizing s s' with
  | zero => exact .some h
  | succ rounds ih =>
    have hstart := hR.position h
    rw [again, again, hR.cursor_eq h]
    rcases (hbody i hstart).cases h with ⟨h₁, h₁'⟩ | ⟨_ | _ | _, s₁, s₁', h₁, h₁', hs⟩
    all_goals simp only [h₁, h₁']
    · exact .none
    · rw [hR.cursor_eq hs]
      split
      · exact ih hs
      · exact .some hs
    · exact .some (hR.restore hs hstart)
    · exact .some (hR.restore hs hstart)

theorem repeated_simulates (hbody : SimulatesFrom R P body body') :
    SimulatesFrom R P (repeated body) (repeated body') := by
  intro i start start' hstart s s' h
  simp only [repeated]
  rcases (hbody i hstart).cases h with ⟨h₁, h₁'⟩ | ⟨_ | _ | _, s₁, s₁', h₁, h₁', hs⟩
  all_goals simp only [h₁, h₁']
  · exact .none
  · have hagain :=
      again_simulates hR hbody (input.size + 1 - s₁.cursor) (hR.silenceErrors hs)
    rw [hR.cursor_eq hs]
    generalize again body _ s₁.silenceErrors = s? at hagain ⊢
    generalize again body' _ s₁'.silenceErrors = s?' at hagain ⊢
    rcases hagain with hs | _
    · exact .some ⟨rfl, hR.unsilenceErrors hs⟩
    · exact .none
  · exact .some ⟨rfl, hs⟩
  · exact .some ⟨rfl, hs⟩

theorem optional_simulates (hbody : SimulatesFrom R P body body') :
    SimulatesFrom R P (optional body) (optional body') := by
  intro i start start' hstart s s' h
  simp only [optional]
  rcases (hbody i hstart).cases (hR.silenceErrors h) with
    ⟨h₁, h₁'⟩ | ⟨_ | _ | _, s₁, s₁', h₁, h₁', hs⟩
  all_goals simp only [h₁, h₁']
  · exact .none
  · exact .some ⟨rfl, hR.unsilenceErrors hs⟩
  · exact .some ⟨rfl, hR.restore (hR.unsilenceErrors hs) hstart⟩
  · exact .some ⟨rfl, hR.unsilenceErrors hs⟩

theorem lookahead_simulates (hbody : SimulatesFrom R P body body') :
    SimulatesFrom R P (lookahead body) (lookahead body') := by
  intro i start start' hstart s s' h
  obtain ⟨j, hmuted, hheard⟩ := hR.muted i
  simp only [lookahead]
  obtain ⟨h₁, h₁'⟩ | ⟨o, s₁, s₁', h₁, h₁', hs⟩ := (hbody j hstart).cases (hmuted h)
  · rw [h₁, h₁']
    exact .none
  · rw [h₁, h₁']
    exact .some ⟨rfl, hheard hs⟩

theorem flat_simulates (hbody : SimulatesFrom R P body body') :
    SimulatesFrom R P (flat body) (flat body') := by
  intro i start start' hstart s s' h
  simp only [flat]
  rcases (lookahead_simulates hR hbody i hstart).cases h with
    ⟨h₁, h₁'⟩ | ⟨_ | _ | _, s₁, s₁', h₁, h₁', hs⟩
  all_goals simp only [h₁, h₁']
  · exact .none
  · rw [hR.matched_eq hs hstart]
    exact .some ⟨rfl, hR.push hs _⟩
  · exact .some ⟨rfl, hs⟩
  · exact .some ⟨rfl, hs⟩

omit hR in
theorem wrapIf_simulates {wrapper : (Position → Step input U) → Position → Step input U}
    (hwrapper : ∀ {body body'}, SimulatesFrom R P body body' →
      SimulatesFrom R P (wrapper body) (wrapper body'))
    (wanted : Bool) (hbody : SimulatesFrom R P body body') :
    SimulatesFrom R P (wrapIf wanted wrapper body) (wrapIf wanted wrapper body') := by
  cases wanted with
  | false => exact hbody
  | true => exact hwrapper hbody

theorem modified_simulates (m : Modifiers) (hbody : SimulatesFrom R P body body') :
    SimulatesFrom R P (modified m body) (modified m body') :=
  wrapIf_simulates (optional_simulates hR) _ <|
  wrapIf_simulates (lookahead_simulates hR) _ <|
  wrapIf_simulates (flat_simulates hR) _ <|
  wrapIf_simulates (optional_simulates hR) _ <|
  wrapIf_simulates (repeated_simulates hR) _ hbody

end Evaluate

/-! ## Whole rules -/

namespace Rule

theorem settle_simulates (hR : Lockstep R P) {i : ι} {reply reply' : Reply input U}
    (h : SameReply (R i) reply reply') {start start' : Position} (hstart : P start start') :
    SameReply (R i) (settle start reply) (settle start' reply') := by
  obtain ⟨outcome, s⟩ := reply
  obtain ⟨outcome', s'⟩ := reply'
  obtain ⟨rfl, hs⟩ := h
  cases outcome' with
  | ok => exact ⟨rfl, hs⟩
  | fail => exact ⟨rfl, hR.restore hs hstart⟩
  | noMatch => exact ⟨rfl, hR.restore hs hstart⟩

/-- **One level of evaluation stays in lockstep** if the bodies do, and it makes no difference what
is written down on entering and leaving. -/
theorem step_simulates (hR : Lockstep R P) {g g' : Grammar N U}
    {eval eval' : Rule N U → Step input U} {r r' : Rule N U}
    (hnoted : ∀ {i s s'}, R i s s' → ∀ event : String → Event,
      R i (s.noted fun _ ↦ event (r.label g)) (s'.noted fun _ ↦ event (r'.label g')))
    (hmodifiers : r'.modifiers = r.modifiers)
    (hkind : SimulatesFrom R P (Evaluate.kind g eval r.name r.kind)
      (Evaluate.kind g' eval' r'.name r'.kind)) (i : ι) :
    Simulates (R i) (r.step g eval) (r'.step g' eval') := by
  intro s s' h
  have hstart := hR.position h
  have hbody := Evaluate.modified_simulates hR r.modifiers hkind i hstart
  simp only [step, hmodifiers, hR.offset_eq hstart]
  obtain ⟨h₁, h₁'⟩ | ⟨outcome, s₁, s₁', h₁, h₁', hs⟩ :=
    hbody.cases (hnoted h fun label ↦ .enter label s.position.offset)
  · rw [h₁, h₁']
    exact .none
  · have hreply : SameReply (R i) (outcome, s₁) (outcome, s₁') := ⟨rfl, hs⟩
    obtain ⟨houtcome, hleft⟩ := settle_simulates hR hreply hstart
    rw [h₁, h₁']
    simp only [houtcome, hR.cursor_eq hleft]
    exact .some ⟨rfl, hnoted hleft fun label ↦ .leave label _ _⟩

end Rule
end DocGrammar
