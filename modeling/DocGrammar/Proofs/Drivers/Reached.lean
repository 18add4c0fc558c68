import DocGrammar.Proofs.Diagnostics.Furthest

/-!
# States that can be reached

Whoever holds a state can do one thing after the other to it: move the cursor or go back to a
position, even one that never was, add and drop results, silence and hear, fail, have rules matched
and call drivers.  The action of a rule can do all of this as well, while a driver runs it.
`State.Reaches` says that one state becomes another in this way, and `Program.Open` that a program
does nothing else; each needs the other, since drivers run actions and actions may call drivers.

Where the last parse ended that succeeded is a matter of history, and no field of a state tells.  So
it is written down in the data of the grammar's own, which any grammar can keep an entry for:
`notes user last` says that according to `user` the last one ended at `last`, or that there has been
none.  A driver that succeeds is followed by a new entry, and nothing else changes it.

What is kept by the calls themselves, and is about places and data only, is kept by whatever can be
done (`State.Reaches.keeps`).
-/

set_option autoImplicit false

namespace DocGrammar

variable {N U : Type} {input : Array UInt8}

/-! ## Reaching a state -/

section

variable (notes : U → Option Nat → Prop)

/-- A call that has nothing matched. -/
inductive State.Operation : State input U → State input U → Prop
  | advance (s : State input U) (n : Nat) : Operation s (s.advance n)
  | restore (s : State input U) (start : Position) : Operation s (s.restore start)
  | push (s : State input U) (value : Value) : Operation s (s.push value)
  | truncate (s : State input U) (start : Position) : Operation s (s.truncate start)
  | clearResults (s : State input U) : Operation s s.clearResults
  | silenceErrors (s : State input U) : Operation s s.silenceErrors
  | unsilenceErrors (s : State input U) : Operation s s.unsilenceErrors
  | silenceResults (s : State input U) : Operation s s.silenceResults
  | unsilenceResults (s : State input U) : Operation s s.unsilenceResults
  | failAt (s : State input U) (offset : Nat) (reason : Reason) :
      Operation s (s.failAt offset reason).2
  | clearErrors (s : State input U) : Operation s s.clearErrors
  /-- The data is changed, but for the notes in it. -/
  | withUser (s : State input U) (user : U) (h : ∀ last, notes s.user last → notes user last) :
      Operation s { s with user }
  /-- All is begun anew. -/
  | renew (s : State input U) (user : U) (h : notes user none) :
      Operation s { State.start input user with trace := s.trace }

mutual

/-- The second state is reached from the first by one call after the other. -/
inductive State.Reaches : State input U → State input U → Prop
  | refl (s : State input U) : State.Reaches s s
  | operation {s t t' : State input U} (h : State.Reaches s t)
      (hoperation : State.Operation notes t t') : State.Reaches s t'
  /-- A rule is matched. -/
  | matched {s t t' : State input U} {N : Type} {g : Grammar N U} {budget : Nat} {r : Rule N U}
      {outcome : Outcome} (h : State.Reaches s t) (hr : Rule.Open N g r)
      (hmatched : r.evaluate g budget t = some (outcome, t')) : State.Reaches s t'
  /-- A driver answers with an error. -/
  | failed {s t t' : State input U} {N : Type} {g : Grammar N U} {budget : Nat} {r : Rule N U}
      {driver : State input U → Option (State.Answer input U)} {e : ParseError}
      (h : State.Reaches s t) (hr : Rule.Open N g r) (hdriver : driver ∈ State.drivers g budget r)
      (hfailed : driver t = some (.error e, t')) : State.Reaches s t'
  /-- A driver succeeds, and where it ended is noted. -/
  | passed {s t t' : State input U} {N : Type} {g : Grammar N U} {budget : Nat} {r : Rule N U}
      {driver : State input U → Option (State.Answer input U)} {n : Nat} {user : U}
      (h : State.Reaches s t) (hr : Rule.Open N g r) (hdriver : driver ∈ State.drivers g budget r)
      (hpassed : driver t = some (.ok n, t')) (hnotes : notes user (some t'.cursor)) :
      State.Reaches s { t' with user }

/-- A program that does nothing else, beginning with a state, and with every reply it gets. -/
inductive Program.Open : (N : Type) → State input U → Program N input U → Prop
  | done {N : Type} {s : State input U} {reply : Reply input U} (h : State.Reaches s reply.2) :
      Program.Open N s (.done reply)
  | call {N : Type} {s s' : State input U} {symbol : N} {next : Reply input U → Program N input U}
      (h : State.Reaches s s') (hnext : ∀ reply, Program.Open N reply.2 (next reply)) :
      Program.Open N s (.call symbol s' next)

/-- A rule none of whose actions does anything else. -/
inductive Rule.Open : (N : Type) → Grammar N U → Rule N U → Prop
  | intro {N : Type} {g : Grammar N U} {r : Rule N U}
      (h : ∀ action : Action N U, r.Involves g @action →
        ∀ (s : State input U) (start : Position), Program.Open N s (action s start)) :
      Rule.Open N g r

end

end

/-- A rule is open if the actions that occur in it and in the rules of its grammar are. -/
theorem Rule.Open.of_every {notes : U → Option Nat → Prop} {g : Grammar N U}
    (hg : ∀ n, (g n).Every fun action ↦ ∀ (s : State input U) (start : Position),
      Program.Open notes N s (action s start))
    {r : Rule N U}
    (hr : r.Every fun action ↦ ∀ (s : State input U) (start : Position),
      Program.Open notes N s (action s start)) :
    @Rule.Open U input notes N g r :=
  .intro fun _ h ↦ Every.of_involves hg hr h

/-! ## One state beside itself -/

/-- The two states are the same, and have a property. -/
def Both (P : State input U → Prop) (s s' : State input U) : Prop := s' = s ∧ P s

theorem Indifferent.eq : Indifferent fun s s' : State input U ↦ s' = s where
  cursor_eq := congrArg State.cursor
  results_eq := congrArg State.results
  resultsSilenced_eq := congrArg State.resultsSilenced
  moveTo h offset := congrArg (State.moveTo · offset) h
  replace := by
    rintro s _ rfl results
    rfl
  silenceErrors := congrArg State.silenceErrors
  unsilenceErrors := congrArg State.unsilenceErrors
  silenceResults := congrArg State.silenceResults
  unsilenceResults := congrArg State.unsilenceResults
  noted h event := congrArg (State.noted · event) h
  failAt h offset reason := congrArg (fun s ↦ (State.failAt s offset reason).2) h
  setAside := by
    rintro s _ rfl
    rfl
  conclude := by
    rintro s _ ended _ rfl rfl name offset outcome
    rfl

variable {notes : U → Option Nat → Prop} {P : State input U → Prop}

/-- A property that is about nothing but places and data. -/
def OfPlace (P : State input U → Prop) : Prop :=
  ∀ ⦃s t : State input U⦄, P s → s.SamePlace t → P t

theorem Both.indifferent (hP : OfPlace P) : Indifferent (Both P) :=
  Indifferent.eq.and fun _ _ _ _ hs h _ ↦ hP hs h

theorem Respects.keeps {step : Step input U} (h : Respects (Both P) step) {s s₁ : State input U}
    (hs : P s) {outcome : Outcome} (hstep : step s = some (outcome, s₁)) : P s₁ := by
  obtain ⟨hnone, -⟩ | ⟨o, s₂, _, hsome, -, -, hs₂⟩ := h.cases ⟨rfl, hs⟩
  · cases hnone.symm.trans hstep
  · cases hsome.symm.trans hstep
    exact hs₂

namespace State

/-- How a driver ends when what it runs keeps a property. -/
inductive Ends (P : State input U → Prop) : Answer input U → Prop
  | failed {e : ParseError} {t : State input U} (ht : P t) : Ends P (.error e, t)
  | passed {n : Nat} {s₁ t : State input U} (hs₁ : P s₁) (hplace : s₁.sync.SamePlace t)
      (hcursor : t.cursor = s₁.cursor) : Ends P (.ok n, t)

theorem answer_ends (hP : OfPlace P) (start : Nat)
    {outcome : Outcome} {s₁ : State input U} (hs₁ : P s₁) :
    Ends P (answer start (outcome, s₁)) := by
  cases outcome with
  | fail => exact .failed (hP hs₁ (s₁.noted_samePlace _))
  | ok => exact .passed hs₁ (.refl _) rfl
  | noMatch => exact .passed hs₁ (.refl _) rfl

theorem drive_ends (hP : OfPlace P) {body : Step input U}
    (hbody : Respects (Both P) body) {s : State input U} (hs : P s) {a : Answer input U}
    (h : drive body s = some a) : Ends P a := by
  have hcleared : P s.clearResults.clearErrors := hP hs ⟨rfl, rfl, rfl⟩
  obtain ⟨⟨outcome, s₁⟩, hreply, rfl⟩ := Option.map_eq_some_iff.1 h
  exact answer_ends hP s.cursor (hbody.keeps hcleared hreply)

theorem quietly_ends (hP : OfPlace P) {body : Step input U}
    (hbody : Respects (Both P) body) {s : State input U} (hs : P s) {a : Answer input U}
    (h : quietly (drive body) s = some a) : Ends P a := by
  have hsilenced : P s.silenceResults := hP hs ⟨rfl, rfl, rfl⟩
  obtain ⟨a', hdrive, rfl⟩ := Option.map_eq_some_iff.1 h
  cases drive_ends hP hbody hsilenced hdrive with
  | failed ht => exact .failed (hP ht ⟨rfl, rfl, rfl⟩)
  | passed hs₁ hplace hcursor => exact .passed hs₁ (hplace.trans ⟨rfl, rfl, rfl⟩) hcursor

theorem drivers_end (hP : OfPlace P) {g : Grammar N U}
    {budget : Nat} {r : Rule N U}
    (hr : ∀ action : Action N U, r.Involves g @action → RespectfulAction (Both P) @action)
    {driver : State input U → Option (Answer input U)} (hdriver : driver ∈ drivers g budget r)
    {s : State input U} (hs : P s) {a : Answer input U} (h : driver s = some a) : Ends P a := by
  have heval : Respects (Both P) (r.evaluate g budget : Step input U) :=
    Rule.evaluate_respects (Both.indifferent hP) budget hr
  simp only [drivers, List.mem_cons, List.not_mem_nil, or_false] at hdriver
  rcases hdriver with rfl | rfl | rfl
  · exact drive_ends hP heval hs h
  · exact quietly_ends hP heval hs h
  · exact quietly_ends hP (settled_whole_respects (Both.indifferent hP) heval) hs h

end State

/-! ## What is kept -/

/-- What keeps a property of states, where it takes more than the calls that leave place and data
alone. -/
structure Kept (notes : U → Option Nat → Prop) (P : State input U → Prop) : Prop where
  /-- It is about places and data. -/
  ofPlace : OfPlace P
  /-- It is about no more of the data than the notes, -/
  withUser : ∀ {s : State input U} (user : U), P s →
    (∀ last, notes s.user last → notes user last) → P { s with user }
  /-- holds at the beginning, -/
  start : ∀ {user : U}, notes user none → P (State.start input user)
  /-- and when lines have been counted up to the cursor, and that was noted. -/
  sync : ∀ {s : State input U} (user : U), P s → notes user (some s.cursor) →
    P { s.sync with user }

theorem State.Operation.keeps (hP : Kept notes P) {s t : State input U}
    (h : State.Operation notes s t) (hs : P s) : P t := by
  cases h with
  | push value => exact hP.ofPlace hs (s.push_samePlace value)
  | failAt offset reason => exact hP.ofPlace hs (s.failAt_samePlace offset reason)
  | withUser user h => exact hP.withUser user hs h
  | renew user h => exact hP.ofPlace (hP.start h) ⟨rfl, rfl, rfl⟩
  | _ => exact hP.ofPlace hs ⟨rfl, rfl, rfl⟩

mutual

/-- **Whatever is kept by the calls is kept by whatever can be done.** -/
theorem State.Reaches.keeps (hP : Kept notes P) {s t : State input U} :
    State.Reaches notes s t → P s → P t
  | .refl _, hs => hs
  | .operation h hoperation, hs => hoperation.keeps hP (h.keeps hP hs)
  | .matched h hr hmatched, hs =>
    (Rule.evaluate_respects (Both.indifferent hP.ofPlace) _ (hr.respects hP)).keeps
      (h.keeps hP hs) hmatched
  | .failed h hr hdriver hfailed, hs => by
    cases State.drivers_end hP.ofPlace (hr.respects hP) hdriver (h.keeps hP hs) hfailed with
    | failed ht => exact ht
  | .passed h hr hdriver hpassed hnotes, hs => by
    cases State.drivers_end hP.ofPlace (hr.respects hP) hdriver (h.keeps hP hs) hpassed with
    | passed hs₁ hplace hcursor =>
      rw [hcursor] at hnotes
      exact hP.ofPlace (hP.sync _ hs₁ hnotes) ⟨hplace.location_eq, hplace.synced_eq, rfl⟩

theorem Program.Open.keeps (hP : Kept notes P) {N : Type} {s : State input U}
    {p : Program N input U} : Program.Open notes N s p → P s → p.Matches (Both P) p
  | .done h, hs => .done ⟨rfl, rfl, h.keeps hP hs⟩
  | .call h hnext, hs => .call ⟨rfl, h.keeps hP hs⟩ fun {reply reply'} hreply ↦ by
    obtain ⟨houtcome, heq, hreply⟩ := hreply
    rw [Prod.ext houtcome heq]
    exact (hnext reply).keeps hP hreply

theorem Rule.Open.respects (hP : Kept notes P) {N : Type} {g : Grammar N U} {r : Rule N U} :
    @Rule.Open U input notes N g r → ∀ action : Action N U, r.Involves g @action →
      RespectfulAction (Both P) @action
  | .intro h, action, hinvolves => by
    rintro start _ s ⟨rfl, hs⟩
    exact (h @action hinvolves s start).keeps hP hs

end

end DocGrammar
