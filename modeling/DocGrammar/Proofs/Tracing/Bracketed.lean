import DocGrammar.Proofs.Backtracking
import DocGrammar.Proofs.Drivers.Reached
import DocGrammar.Proofs.Tracing.Written

/-!
# Traces are bracketed

A traced parse writes down when it enters a rule and when it leaves it.  The two are brackets, and
`Bracketed` says that each is closed before the one around it is; that both of a pair have the label
of one rule; and that a rule that did not match is left at the offset at which it was entered.

The relation `State.Logs`, that what has been written between two states is bracketed, does not last
through every single thing that the engine does, since a rule that is entered has to be left.  So
the engine's own part is taken from `Guarded` with no label to be written down at all, which leaves
out nothing but the two brackets of one level of evaluation (`Rule.step_brackets`).  An action may
do to a state whatever can be done to it, and evaluate rules of any grammar; that is followed along
`State.Reaches` (`State.Reaches.logs`).

The main statement is `Rule.evaluate_brackets`: what an evaluation writes down is bracketed, and the
outermost pair is that of its own rule.
-/

set_option autoImplicit false

namespace DocGrammar

variable {N U : Type} {input : Array UInt8}

/-! ## Brackets -/

/-- Whether an event is that a rule is entered, or that one is left. -/
def Event.isBracket : Event → Bool
  | .enter .. => true
  | .leave .. => true
  | .failure _ => false
  | .report _ => false

/-- Events of which those that enter a rule and those that leave one are in pairs, one within the
other or behind it.  The two of a pair have the same rule's label, and unless the rule has matched,
they have the same offset. -/
inductive Bracketed : List Event → Prop where
  | nil : Bracketed []
  | other {event : Event} {behind : List Event} (h : event.isBracket = false)
      (hbehind : Bracketed behind) : Bracketed (event :: behind)
  | pair {N U : Type} (g : Grammar N U) (r : Rule N U) {offset offset' : Nat} {outcome : Outcome}
      {inside behind : List Event} (hback : outcome ≠ .ok → offset' = offset)
      (hinside : Bracketed inside) (hbehind : Bracketed behind) :
      Bracketed (.enter (r.label g) offset ::
        (inside ++ .leave (r.label g) offset' outcome :: behind))

theorem Bracketed.append {events events' : List Event} (h : Bracketed events)
    (h' : Bracketed events') : Bracketed (events ++ events') := by
  induction h with
  | nil => exact h'
  | other h _ ih => exact .other h ih
  | pair g r hback hinside _ _ ih =>
    simp only [List.cons_append, List.append_assoc]
    exact .pair g r hback hinside ih

namespace State

/-! ## What is written between two states -/

/-- What has been written down between the two states is bracketed. -/
def Logs (s s' : State input U) : Prop := ∃ events, Bracketed events ∧ s.Wrote events s'

variable {s s' s'' : State input U}

theorem Logs.of_trace_eq (h : s'.trace = s.trace) : s.Logs s' := ⟨[], .nil, wrote_nil h⟩

theorem Logs.trans (h : s.Logs s') (h' : s'.Logs s'') : s.Logs s'' := by
  obtain ⟨events, hevents, hwrote⟩ := h
  obtain ⟨events', hevents', hwrote'⟩ := h'
  exact ⟨_, hevents.append hevents', hwrote.trans hwrote'⟩

theorem noted_logs (s : State input U) {event : Unit → Event}
    (h : (event ()).isBracket = false) : s.Logs (s.noted event) :=
  ⟨_, .other h .nil, s.noted_wrote event⟩

theorem failAt_logs (s : State input U) (offset : Nat) (reason : Reason) :
    s.Logs (s.failAt offset reason).2 :=
  ⟨_, .other rfl .nil, s.failAt_wrote offset reason⟩

/-- Whatever the engine does between two brackets is bracketed. -/
theorem Logs.guarded :
    Guarded (fun _ ↦ false) (fun _ ↦ true) (Logs : State input U → State input U → Prop) where
  refl _ := .of_trace_eq rfl
  trans := Logs.trans
  entered _ _ h := nomatch h
  left _ _ h := nomatch h
  failAt s offset reason _ := s.failAt_logs offset reason
  advance _ _ _ := .of_trace_eq rfl
  push s b := .of_trace_eq (s.push_trace (.char b))
  span {_ s'} h := h.trans (.of_trace_eq (s'.push_trace _))
  back h := h.trans (.of_trace_eq rfl)
  silently h := h
  unheard h := h
  rejoin h := h.trans (.of_trace_eq (rejoin_trace _ _))
  commit h _ := h.trans
    (.of_trace_eq ((commitUnlessSilenced_trace _ _).trans (rejoin_trace _ _)))

end State

/-! ## Programs -/

/-- What a program writes down, beginning with a state and with every reply it gets, is
bracketed. -/
inductive Program.Logs : State input U → Program N input U → Prop
  | done {s : State input U} {reply : Reply input U} (h : s.Logs reply.2) : Logs s (.done reply)
  | call {s s' : State input U} {symbol : N} {next : Reply input U → Program N input U}
      (h : s.Logs s') (hnext : ∀ reply, Logs reply.2 (next reply)) :
      Logs s (.call symbol s' next)

theorem Program.Logs.run {match? : N → Step input U} {s : State input U} {p : Program N input U}
    (h : p.Logs s) (hsymbols : ∀ n, p.Asks n → Leads State.Logs (match? n))
    {reply : Reply input U} (hreply : p.run match? = some reply) : s.Logs reply.2 := by
  induction h with
  | done h =>
    cases hreply
    exact h
  | @call s s' symbol next h _ ih =>
    rw [Program.run] at hreply
    split at hreply
    · cases hreply
    · next reply₁ hcall =>
      have hsymbol : s'.Logs reply₁.2 := hsymbols symbol .now s' reply₁ hcall
      have hrest : reply₁.2.Logs reply.2 :=
        ih reply₁ (fun n hasks ↦ hsymbols n (.later reply₁ hasks)) hreply
      exact (h.trans hsymbol).trans hrest

/-- An action that writes down nothing that is not bracketed. -/
def LoggingAction (input : Array UInt8) (action : Action N U) : Prop :=
  ∀ (s : State input U) (start : Position), (action s start).Logs s

/-! ## Rules -/

namespace Rule

variable {g : Grammar N U} {r : Rule N U}

/-- What has been written down is a pair of brackets for the rule, with what is bracketed inside;
and unless the rule has matched, the cursor is where it was. -/
def Brackets (g : Grammar N U) (r : Rule N U) (s : State input U) (reply : Reply input U) : Prop :=
  (∃ inside, Bracketed inside ∧
    s.Wrote (.enter (r.label g) s.cursor ::
      (inside ++ [.leave (r.label g) reply.2.cursor reply.1])) reply.2) ∧
  (reply.1 ≠ .ok → reply.2.cursor = s.cursor)

theorem Brackets.logs {s : State input U} {reply : Reply input U} (h : Brackets g r s reply) :
    s.Logs reply.2 := by
  obtain ⟨⟨inside, hinside, hwrote⟩, hback⟩ := h
  exact ⟨_, .pair g r hback hinside .nil, hwrote⟩

/-- **One level of evaluation writes down a pair of brackets**, if what the rules inside write down
is bracketed, and what the rule's own action does. -/
theorem step_brackets {eval : Rule N U → Step input U}
    (hinner : ∀ rule ∈ r.kind.inner g, Leads State.Logs (eval rule))
    (hruns : ∀ action : Action N U, r.kind.Runs @action → ∀ s s₁ reply, State.Logs s s₁ →
      (action s₁ s.position).run (fun n ↦ eval (g n)) = some reply → State.Logs s reply.2)
    {s : State input U} {reply : Reply input U} (h : r.step g eval s = some reply) :
    Brackets g r s reply := by
  have hguarded : Guarded _ _ (State.Logs : State input U → State input U → Prop) :=
    State.Logs.guarded
  have hentered := s.noted_wrote fun _ ↦ .enter (r.label g) s.position.offset
  have hposition :
      (s.noted fun _ ↦ .enter (r.label g) s.position.offset).position = s.position := by
    simp only [State.position, State.noted_cursor, State.noted_results]
  rw [step] at h
  generalize s.noted _ = entered at h hentered hposition
  split at h
  · cases h
  · next reply₁ hbody =>
    rw [← hposition] at hbody h
    have hkind := Evaluate.kind_lasts hguarded r.kind.fits_all hinner hruns r.name
    have hreply := Evaluate.modified_lasts hguarded r.modifiers hkind entered reply₁ hbody
    have hsettled := settle_lasts hguarded hreply
    have hreturned := settle_returns entered reply₁
    generalize settle entered.position reply₁ = settled at h hsettled hreturned
    obtain ⟨outcome, left⟩ := settled
    obtain ⟨inside, hinside, hwrote⟩ := hsettled
    cases h
    have hleft := left.noted_wrote fun _ ↦ .leave (r.label g) left.cursor outcome
    have hcursor : entered.cursor = s.cursor := congrArg Position.offset hposition
    refine ⟨⟨inside, hinside, ?_⟩, fun houtcome ↦ ?_⟩
    · rw [State.noted_cursor]
      exact (hentered.trans hwrote).trans hleft
    · rw [State.noted_cursor, hreturned.cursor_eq houtcome, hcursor]

/-- By induction on the budget. -/
theorem evaluate_logs (budget : Nat)
    (hr : ∀ action : Action N U, r.Involves g @action → LoggingAction input @action)
    {s : State input U} {reply : Reply input U} (h : r.evaluate g budget s = some reply) :
    Brackets g r s reply := by
  induction budget generalizing r s reply with
  | zero => cases h
  | succ budget ih =>
    refine step_brackets (fun rule hrule s reply hrule' ↦ ?_)
      (fun action hruns s s₁ reply hs₁ hreply ↦ hs₁.trans ?_) h
    · exact (ih (fun action hinvolves ↦ hr @action (.within hrule hinvolves)) hrule').logs
    · -- what the action asks for is matched with less of a budget
      refine (hr @action (.here hruns) s₁ s.position).run (fun n hasks s reply hn ↦ ?_) hreply
      exact (ih (fun action' hinvolves ↦ hr @action' (.asked hruns hasks hinvolves)) hn).logs

end Rule

/-! ## Drivers -/

namespace State

variable {g : Grammar N U} {budget : Nat} {r : Rule N U} {s : State input U}

theorem answer_logs (start : Nat) (reply : Reply input U) :
    reply.2.Logs (answer start reply).2 := by
  obtain ⟨outcome, s'⟩ := reply
  cases outcome with
  | fail => exact s'.noted_logs rfl
  | ok => exact .of_trace_eq rfl
  | noMatch => exact .of_trace_eq rfl

theorem drive_logs {body : Step input U} (hbody : Leads Logs body) {a : Answer input U}
    (h : drive body s = some a) : s.Logs a.2 := by
  obtain ⟨reply, hreply, rfl⟩ := Option.map_eq_some_iff.1 h
  have hran : s.clearResults.clearErrors.Logs reply.2 := hbody _ reply hreply
  exact hran.trans (answer_logs s.cursor reply)

theorem quietly_logs {body : Step input U} (hbody : Leads Logs body) {a : Answer input U}
    (h : quietly (drive body) s = some a) : s.Logs a.2 := by
  obtain ⟨a', hdrive, rfl⟩ := Option.map_eq_some_iff.1 h
  have hdriven : s.silenceResults.Logs a'.2 := drive_logs hbody hdrive
  exact hdriven

theorem whole_logs (hr : Leads Logs (r.evaluate g budget : Step input U)) :
    Leads Logs fun s : State input U ↦ (whole g budget r s).map (Rule.settle s.position) := by
  intro s reply h
  obtain ⟨left, hwhole, rfl⟩ := Option.map_eq_some_iff.1 h
  refine Rule.settle_lasts Logs.guarded ?_
  rcases whole_inv hwhole with ⟨-, rfl⟩ | ⟨-, outcome, s₁, hmatched, ⟨rfl, rfl⟩ | ⟨-, rfl⟩⟩
  · exact s.failAt_logs _ _
  · exact hr s _ hmatched
  · have hrule := hr s _ hmatched
    split
    · exact hrule
    · exact hrule.trans (s₁.failAt_logs _ _)

theorem drivers_log
    (hr : ∀ action : Action N U, r.Involves g @action → LoggingAction input @action)
    {driver : State input U → Option (Answer input U)} (hdriver : driver ∈ drivers g budget r)
    {a : Answer input U} (h : driver s = some a) : s.Logs a.2 := by
  have heval : Leads Logs (r.evaluate g budget : Step input U) :=
    fun _ _ hreply ↦ (Rule.evaluate_logs budget hr hreply).logs
  simp only [drivers, List.mem_cons, List.not_mem_nil, or_false] at hdriver
  rcases hdriver with rfl | rfl | rfl
  · exact drive_logs heval h
  · exact quietly_logs heval h
  · exact quietly_logs (whole_logs heval) h

end State

/-! ## Whatever can be done -/

variable {notes : U → Option Nat → Prop}

theorem State.Operation.logs {s t : State input U} (h : State.Operation notes s t) : s.Logs t := by
  cases h with
  | push value => exact .of_trace_eq (s.push_trace value)
  | failAt offset reason => exact s.failAt_logs offset reason
  | _ => exact .of_trace_eq rfl

mutual

/-- **Whatever can be done to a state writes down nothing that is not bracketed.** -/
theorem State.Reaches.logs {s t : State input U} : State.Reaches notes s t → s.Logs t
  | .refl _ => .of_trace_eq rfl
  | .operation h hoperation => h.logs.trans hoperation.logs
  | .matched h hr hmatched => h.logs.trans (Rule.evaluate_logs _ hr.logs hmatched).logs
  | .failed h hr hdriver hfailed => h.logs.trans (State.drivers_log hr.logs hdriver hfailed)
  | .passed h hr hdriver hpassed _ => h.logs.trans (State.drivers_log hr.logs hdriver hpassed)

theorem Program.Open.logs {N : Type} {s : State input U} {p : Program N input U} :
    Program.Open notes N s p → p.Logs s
  | .done h => .done h.logs
  | .call h hnext => .call h.logs fun reply ↦ (hnext reply).logs

theorem Rule.Open.logs {N : Type} {g : Grammar N U} {r : Rule N U} :
    @Rule.Open U input notes N g r → ∀ action : Action N U, r.Involves g @action →
      LoggingAction input @action
  | .intro h, action, hinvolves => fun s start ↦ (h @action hinvolves s start).logs

end

namespace Rule

/-- **A trace is bracketed.**  Let the actions that a rule involves do to a state whatever can be
done to it: move the cursor anywhere, call drivers, and evaluate rules of this grammar or any other.
If the rule is evaluated to the end, in whatever state, what is written down meanwhile begins with
the entry into this rule, at the cursor, and ends with the way out of it, at the cursor behind; what
is between the two is bracketed; and if the rule did not match, the two cursors are the same. -/
theorem evaluate_brackets {g : Grammar N U} {r : Rule N U}
    (hr : @Rule.Open U input notes N g r) {budget : Nat} {s s' : State input U} {outcome : Outcome}
    (h : r.evaluate g budget s = some (outcome, s')) :
    ∃ inside, Bracketed inside ∧
      s.Wrote (.enter (r.label g) s.cursor ::
        (inside ++ [.leave (r.label g) s'.cursor outcome])) s' ∧
      (outcome ≠ .ok → s'.cursor = s.cursor) := by
  obtain ⟨⟨inside, hinside, hwrote⟩, hback⟩ := evaluate_logs budget hr.logs h
  exact ⟨inside, hinside, hwrote, hback⟩

/-! ### An action that evaluates rules -/

/-- A grammar of one rule, for a digit. -/
def digits : Grammar Unit Unit := fun _ ↦ (range 0x30 0x39).named "digit"

/-- An action that evaluates a rule of no grammar, asks for a digit, and fails somewhere else. -/
def plusDigit : Action Unit Unit := fun {input} s _ ↦
  match ((byte 0x2B).optional : Rule Empty Unit).evaluate Empty.elim 1 s with
  | some (_, t) => .call () t fun reply ↦ .done (.fail, reply.2.restore ⟨input.size, 0⟩)
  | none => .done (.fail, s)

/-- A seven, a plus sign if there is one, and a digit, which is never good enough. -/
def sevenPlus : Rule Unit Unit := .allOf [.byte 0x37, .leaf plusDigit]

/-- Nothing is asked of data, since there is none. -/
def anything : Unit → Option Nat → Prop := fun _ _ ↦ True

theorem plusDigit_open {input : Array UInt8} (s : State input Unit) (start : Position) :
    Program.Open anything Unit s (plusDigit s start) := by
  have hplus : @Rule.Open Unit input anything Empty Empty.elim (byte 0x2B).optional :=
    .of_every (fun n ↦ n.elim) (by simp)
  unfold plusDigit
  rcases hmatched : (byte 0x2B).optional.evaluate Empty.elim 1 s with _ | ⟨outcome, t⟩
  · exact .done (.refl s)
  · exact .call (.matched (.refl s) hplus hmatched) fun reply ↦
      .done (.operation (.refl reply.2) (.restore reply.2 _))

theorem sevenPlus_open {input : Array UInt8} :
    @Rule.Open Unit input anything Unit digits sevenPlus :=
  .of_every (by simp [digits]) ⟨trivial, plusDigit_open, trivial⟩

/-- The rule fails at the end of the input, and is left where it was entered. -/
theorem evaluate_brackets_sevenPlus : ∃ (s' : State #[0x37, 0x2B, 0x38] Unit) (inside : List Event),
    sevenPlus.evaluate digits 3 { user := (), trace := some #[] } = some (.fail, s') ∧
      Bracketed inside ∧
      s'.trace = some (.enter (sevenPlus.label digits) 0 ::
        (inside ++ [.leave (sevenPlus.label digits) 0 .fail])).toArray ∧
      s'.cursor = 0 := by
  have houtcome : (sevenPlus.evaluate digits 3
      ({ user := (), trace := some #[] } : State #[0x37, 0x2B, 0x38] Unit)).map Prod.fst =
        some .fail := by
    decide +kernel
  obtain ⟨⟨outcome, s'⟩, h, rfl⟩ := Option.map_eq_some_iff.1 houtcome
  obtain ⟨inside, hinside, hwrote, hback⟩ := evaluate_brackets sevenPlus_open h
  have hcursor : s'.cursor = 0 := hback Outcome.noConfusion
  refine ⟨s', inside, h, hinside, ?_, hcursor⟩
  rw [State.Wrote, hcursor] at hwrote
  simpa using hwrote

end Rule
end DocGrammar
