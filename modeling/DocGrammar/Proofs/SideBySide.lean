import DocGrammar.Proofs.Lockstep

/-!
# Two runs side by side

Many things that hold of the engine compare two runs: one with diagnostics and one without, one with
other data of the grammar's own, one that is traced and one that is not.  All of them have the same
shape.  There is a relation between states; the engine asks nothing of a state in which related
states differ, and whatever it does to both of two related states leaves them related.  Then
matching the same rule in related states comes to the same outcome, in related states.

`Indifferent` says what is asked of the relation, one field for each thing the engine does to a
state, and `Respects` is the conclusion for a piece of evaluation.  The relation may also change
while the engine is at work and change back again; then it is one of a `Concordant` family, which
asks for the same with the words of `Proofs.Lockstep`.

Actions are outside the engine, and could look at whatever they like.  Two programs that do not,
`Program.Matches`, ask for the same symbols in related states and go on related; a rule all of whose
actions run programs like that respects the relation, which is `Rule.evaluate_concordant`, and for a
single relation `Rule.evaluate_respects`.
-/

set_option autoImplicit false

namespace DocGrammar

variable {N U : Type} {input : Array UInt8}

/-! ## Relations that the engine is indifferent to -/

/-- A piece of evaluation that comes to the same reply in related states, but for the relation. -/
def Respects (R : State input U → State input U → Prop) (step : Step input U) : Prop :=
  ∀ ⦃s s' : State input U⦄, R s s' → Option.Rel (SameReply R) (step s) (step s')

/-- The body of a rule comes to the same in related states, from wherever it starts. -/
def RespectsFrom (R : State input U → State input U → Prop)
    (body : Position → Step input U) : Prop :=
  ∀ start, Respects R (body start)

/-- The engine does not see in what related states differ, and keeps them related. -/
structure Indifferent (R : State input U → State input U → Prop) : Prop where
  /-- The cursor is the same. -/
  cursor_eq : ∀ {s s'}, R s s' → s'.cursor = s.cursor
  /-- The results are the same. -/
  results_eq : ∀ {s s'}, R s s' → s'.results = s.results
  /-- Results are silenced to the same depth. -/
  resultsSilenced_eq : ∀ {s s'}, R s s' → s'.resultsSilenced = s.resultsSilenced
  /-- The cursor may be moved, -/
  moveTo : ∀ {s s'}, R s s' → ∀ offset, R (s.moveTo offset) (s'.moveTo offset)
  /-- other results be put in place of those that are there, -/
  replace : ∀ {s s'}, R s s' → ∀ results, R { s with results } { s' with results }
  /-- failures and results be silenced and heard again, -/
  silenceErrors : ∀ {s s'}, R s s' → R s.silenceErrors s'.silenceErrors
  unsilenceErrors : ∀ {s s'}, R s s' → R s.unsilenceErrors s'.unsilenceErrors
  silenceResults : ∀ {s s'}, R s s' → R s.silenceResults s'.silenceResults
  unsilenceResults : ∀ {s s'}, R s s' → R s.unsilenceResults s'.unsilenceResults
  /-- an event be written down, -/
  noted : ∀ {s s'}, R s s' → ∀ event, R (s.noted event) (s'.noted event)
  /-- a failure be recorded, -/
  failAt : ∀ {s s'}, R s s' → ∀ offset reason,
    R (s.failAt offset reason).2 (s'.failAt offset reason).2
  /-- the furthest failure be set aside before a choice, -/
  setAside : ∀ {s s'}, R s s' → R { s with furthest := none } { s' with furthest := none }
  /-- and a choice be concluded. -/
  conclude : ∀ {s s' ended ended'}, R s s' → R ended ended' → ∀ name offset outcome,
    R (Evaluate.conclude name offset s outcome ended)
      (Evaluate.conclude name offset s' outcome ended')

variable {R : State input U → State input U → Prop}

/-- There are two ways for two runs to be the same. -/
theorem Respects.cases {step : Step input U} (hstep : Respects R step) {s s' : State input U}
    (h : R s s') :
    (step s = none ∧ step s' = none) ∨
      ∃ outcome s₁ s₁', step s = some (outcome, s₁) ∧ step s' = some (outcome, s₁') ∧
        R s₁ s₁' :=
  Simulates.cases hstep h

namespace Indifferent

variable (hR : Indifferent R) {s s' : State input U}

include hR

theorem position_eq (h : R s s') : s'.position = s.position := by
  simp only [State.position, hR.cursor_eq h, hR.results_eq h]

theorem atStart_eq (h : R s s') : s'.atStart = s.atStart := by
  simp only [State.atStart, hR.cursor_eq h]

theorem atEnd_eq (h : R s s') : s'.atEnd = s.atEnd := by
  simp only [State.atEnd, hR.cursor_eq h]

theorem matched_eq (h : R s s') (start : Position) : s'.matched start = s.matched start := by
  simp only [State.matched, hR.cursor_eq h]

theorem resultsSince_eq (h : R s s') (start : Position) :
    s'.resultsSince start = s.resultsSince start := by
  simp only [State.resultsSince, hR.results_eq h]

theorem sliceSince_eq (h : R s s') (start : Position) :
    s'.sliceSince start = s.sliceSince start := by
  simp only [State.sliceSince, hR.resultsSince_eq h]

theorem advance (h : R s s') (n : Nat) : R (s.advance n) (s'.advance n) := by
  simp only [State.advance, hR.cursor_eq h]
  exact hR.moveTo h _

theorem truncate (h : R s s') (start : Position) : R (s.truncate start) (s'.truncate start) := by
  simp only [State.truncate, hR.results_eq h]
  exact hR.replace h _

theorem restore (h : R s s') (start : Position) : R (s.restore start) (s'.restore start) := by
  have hmoved := hR.replace (hR.moveTo h start.offset) (s.results.take start.results)
  simp only [State.restore, hR.results_eq h]
  exact hmoved

theorem push (h : R s s') (value : Value) : R (s.push value) (s'.push value) := by
  have hsilenced := hR.resultsSilenced_eq h
  unfold State.push
  split
  · next hs =>
    rw [if_pos (hsilenced ▸ hs), hR.results_eq h]
    exact hR.replace h _
  · next hs =>
    rw [if_neg (hsilenced ▸ hs)]
    exact h

/-! Ways to end a rule. -/

theorem fail (h : R s s') (reason : Reason) : SameReply R (s.fail reason) (s'.fail reason) := by
  simp only [State.fail_eq, hR.cursor_eq h]
  exact ⟨rfl, hR.failAt h _ _⟩

theorem okWith (h : R s s') (value : Value) : SameReply R (s.okWith value) (s'.okWith value) :=
  ⟨rfl, hR.push h value⟩

theorem okReplace (h : R s s') (start : Position) (value : Value) :
    SameReply R (s.okReplace start value) (s'.okReplace start value) :=
  hR.okWith (hR.truncate h start) value

end Indifferent

/-! ## Actions -/

/-- The two programs ask for the same symbols in related states, go on related after related
replies, and finish with related replies. -/
inductive Program.Matches (R : State input U → State input U → Prop) :
    Program N input U → Program N input U → Prop
  | done {reply reply' : Reply input U} (h : SameReply R reply reply') :
      Matches R (.done reply) (.done reply')
  | call {symbol : N} {s s' : State input U} {next next' : Reply input U → Program N input U}
      (h : R s s')
      (hnext : ∀ {reply reply'}, SameReply R reply reply' →
        Matches R (next reply) (next' reply')) :
      Matches R (.call symbol s next) (.call symbol s' next')

/-- An action that does not see in what related states differ, and keeps them related. -/
def RespectfulAction (R : State input U → State input U → Prop) (action : Action N U) : Prop :=
  ∀ (start : Position) ⦃s s' : State input U⦄, R s s' →
    (action s start).Matches R (action s' start)

/-- A direct action that neither sees nor changes more of a state than the engine does, and so
respects every relation that the engine is indifferent to. -/
def BlindReply (act : DirectAction U) : Prop :=
  ∀ ⦃input : Array UInt8⦄ ⦃R : State input U → State input U → Prop⦄, Indifferent R →
    ∀ (start : Position) ⦃s s' : State input U⦄, R s s' → SameReply R (act s start) (act s' start)

theorem BlindReply.toAction {act : DirectAction U} (h : BlindReply @act) (hR : Indifferent R) :
    RespectfulAction R (DirectAction.toAction (N := N) @act) :=
  fun start _ _ hs ↦ .done (h hR start hs)

/-- Programs that match come to the same, if the symbols they ask for do. -/
theorem Program.Matches.run {match? : N → Step input U} {p p' : Program N input U}
    (h : p.Matches R p') (hsymbols : ∀ n, p.Asks n → Respects R (match? n)) :
    Option.Rel (SameReply R) (p.run match?) (p'.run match?) := by
  induction h with
  | done h => exact .some h
  | @call symbol s s' next next' h _ ih =>
    simp only [Program.run]
    obtain ⟨h₁, h₁'⟩ | ⟨outcome, s₁, s₁', h₁, h₁', hs⟩ := (hsymbols symbol .now).cases h
    · rw [h₁, h₁']
      exact .none
    · rw [h₁, h₁']
      exact ih ⟨rfl, hs⟩ fun n hn ↦ hsymbols n (.later _ hn)

/-! ## The engine -/

/-- A family of relations that two runs of the same rules keep: silenced to the same depth, they run
the same actions, and it makes no difference what is written down. -/
structure Concordant {ι : Type} (R : ι → State input U → State input U → Prop) : Prop extends
    Lockstep R (fun start start' ↦ start' = start) where
  resultsSilenced_eq : ∀ {i s s'}, R i s s' → s'.resultsSilenced = s.resultsSilenced
  noted : ∀ {i s s'}, R i s s' → ∀ event, R i (s.noted event) (s'.noted event)

/-- A relation that the engine is indifferent to is the same all the way. -/
theorem Indifferent.concordant (hR : Indifferent R) : Concordant fun _ : Unit ↦ R where
  cursor_eq := hR.cursor_eq
  offset_eq := congrArg Position.offset
  position := hR.position_eq
  restore := by
    rintro _ s s' h _ start rfl
    exact hR.restore h start
  advance := hR.advance
  push := hR.push
  failAt := hR.failAt
  silenceErrors := hR.silenceErrors
  unsilenceErrors := hR.unsilenceErrors
  muted _ := ⟨(), hR.silenceResults, hR.unsilenceResults⟩
  tried _ := ⟨(), fun h ↦ hR.setAside (hR.silenceErrors h), hR.conclude⟩
  resultsSilenced_eq := hR.resultsSilenced_eq
  noted := hR.noted

section Families

variable {ι : Type} {R : ι → State input U → State input U → Prop}

/-- A kind of rule whose inner rules respect the relations, and whose action does, with the symbols
that it asks for. -/
theorem Evaluate.kind_concordant (hR : Concordant R) {g : Grammar N U}
    {eval : Rule N U → Step input U} {k : Kind N U (Rule N U)}
    (hinner : ∀ r ∈ k.inner g, ∀ i, Respects (R i) (eval r))
    (hruns : ∀ action : Action N U, k.Runs @action →
      ∀ i, RespectsFrom (R i) fun start s ↦ (action s start).run fun n ↦ eval (g n))
    (name : Option String) (i : ι) : RespectsFrom (R i) (kind g eval name k) := by
  suffices hkind : SimulatesFrom R (fun start start' ↦ start' = start)
      (kind g eval name k) (kind g eval name k) from fun start ↦ hkind i rfl
  refine kind_simulates hR.toLockstep hinner name fun action haction ↦ ?_
  rintro i _ start rfl s s' h
  cases k with
  | leaf action' =>
    cases haction
    exact hruns action rfl i start h
  | closing inner action' =>
    cases haction
    simp only [kind]
    rcases (hinner inner List.mem_cons_self i).cases h with
      ⟨h₁, h₁'⟩ | ⟨_ | _ | _, s₁, s₁', h₁, h₁', hs⟩
    all_goals simp only [h₁, h₁']
    · exact .none
    · rw [hR.resultsSilenced_eq hs]
      split
      · exact hruns action rfl i start hs
      · exact .some ⟨rfl, hs⟩
    · exact .some ⟨rfl, hs⟩
    · exact .some ⟨rfl, hs⟩
  | _ => exact haction.elim

namespace Rule

/-- **One level of evaluation respects** what the rules inside respect and the rule's own
action does. -/
theorem step_concordant (hR : Concordant R) {g : Grammar N U} {eval : Rule N U → Step input U}
    {r : Rule N U} (hinner : ∀ rule ∈ r.kind.inner g, ∀ i, Respects (R i) (eval rule))
    (hruns : ∀ action : Action N U, r.kind.Runs @action →
      ∀ i, RespectsFrom (R i) fun start s ↦ (action s start).run fun n ↦ eval (g n)) (i : ι) :
    Respects (R i) (r.step g eval) := by
  have hkind := Evaluate.kind_concordant hR hinner hruns r.name
  refine step_simulates hR.toLockstep (fun h event ↦ hR.noted h _) rfl ?_ i
  rintro i _ start rfl
  exact hkind i start

/-- **Evaluation respects** every family that the engine keeps and all actions involved respect, by
induction on the budget. -/
theorem evaluate_concordant (hR : Concordant R) {g : Grammar N U} (budget : Nat) {r : Rule N U}
    (hr : ∀ action : Action N U, r.Involves g @action → ∀ i, RespectfulAction (R i) @action)
    (i : ι) : Respects (R i) (r.evaluate g budget) := by
  induction budget generalizing r i with
  | zero => exact fun _ _ _ ↦ .none
  | succ budget ih =>
    refine step_concordant hR
      (fun rule hrule ↦ ih fun action hinvolves ↦ hr @action (.within hrule hinvolves))
      (fun action hruns i start s s' hs ↦ ?_) i
    exact (hr @action (.here hruns) i start hs).run fun n hasks ↦
      ih (fun action' hinvolves ↦ hr @action' (.asked hruns hasks hinvolves)) i

end Rule
end Families

/-! ## A single relation -/

namespace Rule

theorem settle_respects (hR : Indifferent R) {reply reply' : Reply input U}
    (h : SameReply R reply reply') (start : Position) :
    SameReply R (settle start reply) (settle start reply') :=
  settle_simulates hR.concordant.toLockstep (i := ()) h rfl

theorem step_respects (hR : Indifferent R) {g : Grammar N U} {eval : Rule N U → Step input U}
    {r : Rule N U} (hinner : ∀ rule ∈ r.kind.inner g, Respects R (eval rule))
    (hruns : ∀ action : Action N U, r.kind.Runs @action →
      RespectsFrom R fun start s ↦ (action s start).run fun n ↦ eval (g n)) :
    Respects R (r.step g eval) :=
  step_concordant hR.concordant (fun rule hrule _ ↦ hinner rule hrule)
    (fun action hruns' _ ↦ hruns action hruns') ()

/-- **Evaluation respects** every relation that the engine is indifferent to and all actions
involved respect. -/
theorem evaluate_respects (hR : Indifferent R) {g : Grammar N U} (budget : Nat) {r : Rule N U}
    (hr : ∀ action : Action N U, r.Involves g @action → RespectfulAction R @action) :
    Respects R (r.evaluate g budget) :=
  evaluate_concordant hR.concordant budget (fun action hinvolves _ ↦ hr action hinvolves) ()

end Rule
end DocGrammar
