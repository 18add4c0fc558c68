import DocGrammar.Grammar.Evaluate
import DocGrammar.Grammar.Leaf
import DocGrammar.Proofs.Lasting

/-!
# Backtracking leaves nothing behind

A rule that does not succeed goes back to the position it started from, and that is all the undoing
there is: the results of a failed branch are cut off by their number, and the two silencing
counters are put back by whoever changed them.  This file proves that it is enough.

* `Extends` is what any piece of evaluation does to the state, whatever comes of it: the results
  that were there stay, the counters are as before, and the cursor does not go back.
* `Settled` is what a whole rule does: it extends the state if it succeeds, and leaves cursor,
  results and counters exactly as they were if it does not.
* `Framed` is what is asked of an action.  An action is judged by all it does, the matching of
  symbols included, when it is given a position that was taken earlier in the same parse.

`Extends` lasts through whatever the engine does (`State.Extends.lasting`), so it lasts through each
combinator of the evaluator; and going back turns `Extends` into `Settled`.
-/

set_option autoImplicit false

namespace DocGrammar

variable {N U : Type} {input : Array UInt8}

/-! ## What a piece of evaluation does to the state -/

/-- The second state has at least the results of the first, the same silencing, and a cursor that
is not before it. -/
structure State.Extends (s s' : State input U) : Prop where
  /-- The cursor has not gone back. -/
  cursor_le : s.cursor ≤ s'.cursor
  /-- The results that were there are still there. -/
  isPrefix : s.results <+: s'.results
  /-- Failures are silenced as before. -/
  errorsSilenced_eq : s'.errorsSilenced = s.errorsSilenced
  /-- Results are silenced as before. -/
  resultsSilenced_eq : s'.resultsSilenced = s.resultsSilenced

/-- The two states have the same cursor, results and silencing. -/
structure State.Undone (s s' : State input U) : Prop where
  /-- The cursor is where it was. -/
  cursor_eq : s'.cursor = s.cursor
  /-- The results are those that were there. -/
  results_eq : s'.results = s.results
  /-- Failures are silenced as before. -/
  errorsSilenced_eq : s'.errorsSilenced = s.errorsSilenced
  /-- Results are silenced as before. -/
  resultsSilenced_eq : s'.resultsSilenced = s.resultsSilenced

namespace State

variable {s s' s'' : State input U}

theorem Undone.refl (s : State input U) : s.Undone s := ⟨rfl, rfl, rfl, rfl⟩

theorem Undone.trans (h : s.Undone s') (h' : s'.Undone s'') : s.Undone s'' :=
  ⟨h'.cursor_eq.trans h.cursor_eq, h'.results_eq.trans h.results_eq,
    h'.errorsSilenced_eq.trans h.errorsSilenced_eq,
    h'.resultsSilenced_eq.trans h.resultsSilenced_eq⟩

theorem Undone.position_eq (h : s.Undone s') : s'.position = s.position := by
  simp only [position, h.cursor_eq, h.results_eq]

theorem Undone.extends (h : s.Undone s') : s.Extends s' :=
  ⟨Nat.le_of_eq h.cursor_eq.symm, h.results_eq ▸ List.prefix_refl _, h.errorsSilenced_eq,
    h.resultsSilenced_eq⟩

theorem Extends.refl (s : State input U) : s.Extends s := (Undone.refl s).extends

theorem Extends.trans (h : s.Extends s') (h' : s'.Extends s'') : s.Extends s'' :=
  ⟨Nat.le_trans h.cursor_le h'.cursor_le, h.isPrefix.trans h'.isPrefix,
    h'.errorsSilenced_eq.trans h.errorsSilenced_eq,
    h'.resultsSilenced_eq.trans h.resultsSilenced_eq⟩

/-- Writing down an event is a matter of diagnostics. -/
theorem noted_undone (s : State input U) (event : Unit → Event) : s.Undone (s.noted event) := by
  constructor <;> simp

/-- A failure is recorded beside what `Undone` speaks of. -/
theorem failAt_undone (s : State input U) (offset : Nat) (reason : Reason) :
    s.Undone (s.failAt offset reason).2 := by
  constructor <;> simp

theorem advance_extends (s : State input U) (n : Nat) : s.Extends (s.advance n) := by
  refine ⟨?_, List.prefix_refl _, rfl, rfl⟩
  show s.cursor ≤ min (s.cursor + n) input.size
  have := s.cursor_le
  omega

theorem push_extends (s : State input U) (value : Value) : s.Extends (s.push value) := by
  unfold push
  split
  · exact ⟨Nat.le_refl _, List.prefix_append _ _, rfl, rfl⟩
  · exact Extends.refl s

theorem Extends.unsilenceErrors (h : s.silenceErrors.Extends s') : s.Extends s'.unsilenceErrors :=
  ⟨h.cursor_le, h.isPrefix, by
    show s'.errorsSilenced - 1 = s.errorsSilenced
    rw [h.errorsSilenced_eq]
    rfl, h.resultsSilenced_eq⟩

theorem Extends.unsilenceResults (h : s.silenceResults.Extends s') :
    s.Extends s'.unsilenceResults :=
  ⟨h.cursor_le, h.isPrefix, h.errorsSilenced_eq, by
    show s'.resultsSilenced - 1 = s.resultsSilenced
    rw [h.resultsSilenced_eq]
    rfl⟩

/-- **Going back undoes whatever extends the state.**  The height of the result stack is enough to
know the results by, because those that were there have stayed. -/
theorem Extends.undone_restore (h : s.Extends s') {start : Position} (hs : s.position = start) :
    s.Undone (s'.restore start) := by
  subst hs
  refine ⟨?_, ?_, h.errorsSilenced_eq, h.resultsSilenced_eq⟩
  · exact Nat.min_eq_left s.cursor_le
  · exact List.prefix_iff_eq_take.1 h.isPrefix |>.symm

end State

/-! ## What an action may do -/

/-- The second state has the results that the first has below a position, the same silencing, and a
cursor that is not before the position. -/
structure State.Keeps (start : Position) (s s' : State input U) : Prop where
  /-- The cursor is not before the position. -/
  offset_le : start.offset ≤ s'.cursor
  /-- The results below the position are still there. -/
  isPrefix : s.results.take start.results <+: s'.results
  /-- Failures are silenced as before. -/
  errorsSilenced_eq : s'.errorsSilenced = s.errorsSilenced
  /-- Results are silenced as before. -/
  resultsSilenced_eq : s'.resultsSilenced = s.resultsSilenced

/-- An action is framed if, given a position that was taken before, it keeps the results below that
position, leaves silencing alone, and does not take the cursor back behind the position.  That the
cursor stays within the input is in the type of states. -/
def Framed (g : Grammar N U) (action : Action N U) : Prop :=
  ∀ {input : Array UInt8} (budget : Nat) (s : State input U) (start : Position)
    (reply : Reply input U), start.offset ≤ s.cursor → start.results ≤ s.results.length →
    (action s start).run (fun n ↦ (g n).evaluate g budget) = some reply → s.Keeps start reply.2

namespace State

variable {s s' s₁ : State input U} {start : Position}

theorem Extends.keeps (h : s.Extends s') (hs : start.offset ≤ s.cursor) : s.Keeps start s' :=
  ⟨Nat.le_trans hs h.cursor_le, (List.take_prefix _ _).trans h.isPrefix, h.errorsSilenced_eq,
    h.resultsSilenced_eq⟩

/-- What is kept of a state that was reached from `s` is kept of `s`. -/
theorem Keeps.extends (h : s₁.Keeps s.position s') (hs : s.Extends s₁) : s.Extends s' := by
  have hbelow : s₁.results.take s.position.results = s.results :=
    (List.prefix_iff_eq_take.1 hs.isPrefix).symm
  exact ⟨h.offset_le, hbelow ▸ h.isPrefix, h.errorsSilenced_eq.trans hs.errorsSilenced_eq,
    h.resultsSilenced_eq.trans hs.resultsSilenced_eq⟩

theorem okReplace_keeps (s : State input U) (hs : start.offset ≤ s.cursor) (value : Value) :
    s.Keeps start (s.okReplace start value).2 := by
  have hpushed := (s.truncate start).push_extends value
  exact ⟨Nat.le_trans hs hpushed.cursor_le, hpushed.isPrefix, hpushed.errorsSilenced_eq,
    hpushed.resultsSilenced_eq⟩

end State

/-- An action that has no symbol matched is judged by its reply. -/
theorem framed_toAction {g : Grammar N U} {act : DirectAction U}
    (h : ∀ {input : Array UInt8} (s : State input U) (start : Position), start.offset ≤ s.cursor →
      s.Keeps start (act s start).2) : Framed g (DirectAction.toAction @act) := by
  intro input budget s start reply hoffset _ hrun
  cases hrun
  exact h s start hoffset

/-- An action that is framed extends the state in which its rule started, not only the one it is
given: what came in between lies above the position. -/
theorem Framed.extends {g : Grammar N U} {budget : Nat} {action : Action N U}
    (hframed : Framed g @action) {s s₁ : State input U} {reply : Reply input U} (hs : s.Extends s₁)
    (h : (action s₁ s.position).run (fun n ↦ (g n).evaluate g budget) = some reply) :
    s.Extends reply.2 :=
  (hframed budget s₁ s.position reply hs.cursor_le hs.isPrefix.length_le h).extends hs

/-! ## Pieces of evaluation -/

/-- Putting back the furthest failure is a matter of diagnostics. -/
theorem Evaluate.rejoin_undone (outer : Option Failure) (s : State input U) :
    s.Undone (rejoin outer s) := by
  unfold rejoin
  split <;> exact ⟨rfl, rfl, rfl, rfl⟩

/-- **Whatever the engine does extends the state.** -/
theorem State.Extends.lasting :
    Lasting (State.Extends : State input U → State input U → Prop) where
  refl := State.Extends.refl
  trans := State.Extends.trans
  noted s event := (s.noted_undone event).extends
  failAt s offset reason := (s.failAt_undone offset reason).extends
  commit s f := State.Undone.extends (by constructor <;> simp)
  advance := State.advance_extends
  push := State.push_extends
  back h := (h.undone_restore rfl).extends
  silently := State.Extends.unsilenceErrors
  unheard := State.Extends.unsilenceResults
  rejoin {s ended} h := by
    have hquiet : s.silenceErrors.Extends ended :=
      ⟨h.cursor_le, h.isPrefix, h.errorsSilenced_eq, h.resultsSilenced_eq⟩
    exact hquiet.unsilenceErrors.trans (Evaluate.rejoin_undone _ _).extends

/-- A reply that extends the state on success, and undoes everything otherwise. -/
structure Settled (s : State input U) (reply : Reply input U) : Prop where
  extends_of_ok : reply.1 = .ok → s.Extends reply.2
  undone_of_ne_ok : reply.1 ≠ .ok → s.Undone reply.2

theorem Settled.extends {s : State input U} {reply : Reply input U} (h : Settled s reply) :
    s.Extends reply.2 := by
  by_cases ho : reply.1 = .ok
  · exact h.extends_of_ok ho
  · exact (h.undone_of_ne_ok ho).extends

theorem Settled.noted {s : State input U} {reply : Reply input U} (h : Settled s reply)
    (event : Unit → Event) : Settled s (reply.1, reply.2.noted event) := by
  have hnoted := State.noted_undone reply.2 event
  refine ⟨fun ho ↦ (h.extends_of_ok ho).trans hnoted.extends, fun ho ↦ ?_⟩
  exact (h.undone_of_ne_ok ho).trans hnoted

/-! ## Whole rules -/

namespace Rule

/-- Going back unless the rule succeeded is what settles it. -/
theorem settle_settled {s : State input U} {reply : Reply input U} (h : s.Extends reply.2) :
    Settled s (settle s.position reply) := by
  obtain ⟨outcome, s'⟩ := reply
  cases outcome with
  | ok => exact ⟨fun _ ↦ h, fun ho ↦ absurd rfl ho⟩
  | fail => exact ⟨(nomatch ·), fun _ ↦ h.undone_restore rfl⟩
  | noMatch => exact ⟨(nomatch ·), fun _ ↦ h.undone_restore rfl⟩

/-- **One level of evaluation settles**, if the rules inside extend the state and the rule's own
action is framed. -/
theorem step_settled {g : Grammar N U} {budget : Nat} {r : Rule N U}
    (hinner : ∀ rule ∈ r.kind.inner g,
      Leads State.Extends (rule.evaluate g budget : Step input U))
    (hruns : ∀ action : Action N U, r.kind.Runs @action → Framed g @action)
    {s : State input U} {reply : Reply input U}
    (h : r.step g (Rule.evaluate g budget) s = some reply) : Settled s reply := by
  have hentered := State.noted_undone s fun _ ↦ .enter (r.label g) s.position.offset
  rw [step] at h
  generalize s.noted _ = entered at h hentered
  split at h
  · cases h
  · next left hleft =>
    cases h
    rw [← hentered.position_eq] at hleft
    have hextends : Guarded (fun _ ↦ true) (fun _ ↦ true)
        (State.Extends : State input U → State input U → Prop) := State.Extends.lasting.guarded
    have hkind := Evaluate.kind_lasts hextends r.kind.fits_all hinner
      (fun action haction _ _ _ hs h ↦ Framed.extends (hruns action haction) hs h) r.name
    have hbody := Evaluate.modified_lasts hextends r.modifiers hkind entered left hleft
    exact (settle_settled (hentered.extends.trans hbody)).noted _

/-- **Evaluation settles.**  By induction on the budget: the actions of the rules inside a rule are
also actions of the rule. -/
theorem evaluate_settled {g : Grammar N U} :
    ∀ (budget : Nat) (r : Rule N U), (∀ action : Action N U, r.Uses g @action → Framed g @action) →
      ∀ (s : State input U) (reply : Reply input U), r.evaluate g budget s = some reply →
        Settled s reply
  | 0, _, _, _, _, h => nomatch h
  | budget + 1, _, hframed, _, _, h =>
    step_settled
      (fun rule hrule s reply h ↦ (evaluate_settled budget rule
        (fun action hused ↦ hframed @action (.within hrule hused)) s reply h).extends)
      (fun action hruns ↦ hframed @action (.here hruns)) h

/-- **Backtracking purity.**  A rule whose actions are framed leaves both silencing counters as they
were.  If it does not succeed, the cursor and the whole result stack are those on entry; if it does,
the results on entry are still there below the new ones and the cursor has not gone back. -/
theorem evaluate_pure (g : Grammar N U) (budget : Nat) (r : Rule N U)
    (hframed : ∀ action : Action N U, r.Uses g @action → Framed g @action)
    (s s' : State input U) (outcome : Outcome)
    (h : r.evaluate g budget s = some (outcome, s')) :
    s'.errorsSilenced = s.errorsSilenced ∧ s'.resultsSilenced = s.resultsSilenced ∧
      (outcome ≠ .ok → s'.cursor = s.cursor ∧ s'.results = s.results) ∧
      (outcome = .ok → s.results <+: s'.results ∧ s.cursor ≤ s'.cursor ∧
        s'.cursor ≤ input.size) := by
  have hsettled := evaluate_settled budget r hframed s _ h
  have hext := hsettled.extends
  refine ⟨hext.errorsSilenced_eq, hext.resultsSilenced_eq, fun ho ↦ ?_, fun _ ↦ ?_⟩
  · have hundone := hsettled.undone_of_ne_ok ho
    exact ⟨hundone.cursor_eq, hundone.results_eq⟩
  · exact ⟨hext.isPrefix, hext.cursor_le, s'.cursor_le⟩

/-! ### Whatever the actions do

Little of this is left if an action is not framed: it may have dropped results that were there
before.  But the cursor goes back where it was. -/

/-- Unless there was a match, the cursor is where it was, and no result has been added. -/
structure Returned (s : State input U) (reply : Reply input U) : Prop where
  cursor_eq : reply.1 ≠ .ok → reply.2.cursor = s.cursor
  length_results_le : reply.1 ≠ .ok → reply.2.results.length ≤ s.results.length

theorem Returned.noted {s : State input U} {reply : Reply input U} (h : Returned s reply)
    (event : Unit → Event) : Returned s (reply.1, reply.2.noted event) :=
  ⟨fun ho ↦ (State.noted_cursor _ _).trans (h.cursor_eq ho), fun ho ↦ by
    rw [State.noted_results]
    exact h.length_results_le ho⟩

/-- Going back does not depend on what one goes back from. -/
theorem settle_returns (s : State input U) (reply : Reply input U) :
    Returned s (settle s.position reply) := by
  obtain ⟨outcome, s'⟩ := reply
  have hback : (s'.restore s.position).cursor = s.cursor := Nat.min_eq_left s.cursor_le
  have htaken : (s'.restore s.position).results.length ≤ s.results.length :=
    List.length_take_le _ _
  cases outcome with
  | ok => exact ⟨fun ho ↦ absurd rfl ho, fun ho ↦ absurd rfl ho⟩
  | fail => exact ⟨fun _ ↦ hback, fun _ ↦ htaken⟩
  | noMatch => exact ⟨fun _ ↦ hback, fun _ ↦ htaken⟩

/-- There is nothing to go back from where a state is already. -/
theorem restore_eq_self {s : State input U} {start : Position} (hcursor : s.cursor = start.offset)
    (hresults : s.results.length ≤ start.results) : s.restore start = s := by
  obtain ⟨offset, height⟩ := start
  obtain rfl : s.cursor = offset := hcursor
  simp only [State.restore, State.moveTo, Nat.min_eq_left s.cursor_le,
    List.take_of_length_le hresults]

/-- What has gone back need not go back again. -/
theorem Returned.settle_eq {s : State input U} {reply : Reply input U} (h : Returned s reply) :
    settle s.position reply = reply := by
  obtain ⟨outcome, s'⟩ := reply
  have hback (ho : outcome ≠ .ok) : s'.restore s.position = s' :=
    restore_eq_self (h.cursor_eq ho) (h.length_results_le ho)
  cases outcome with
  | ok => rfl
  | fail => exact congrArg (Prod.mk Outcome.fail) (hback Outcome.noConfusion)
  | noMatch => exact congrArg (Prod.mk Outcome.noMatch) (hback Outcome.noConfusion)

theorem evaluate_returns {g : Grammar N U} {budget : Nat} {r : Rule N U} {s : State input U}
    {reply : Reply input U} (h : r.evaluate g budget s = some reply) : Returned s reply := by
  cases budget with
  | zero => cases h
  | succ budget =>
    rw [evaluate, step] at h
    split at h
    · cases h
    · next left _ =>
      cases h
      exact (settle_returns s left).noted _

/-! ### An integer that runs out of range

The actions of integers replace results, which is where going back could go wrong. -/

theorem closeUnsigned_framed (g : Grammar N U) (radix : Nat) :
    Framed g (DirectAction.toAction (Leaf.closeUnsigned (U := U) radix)) := by
  refine framed_toAction fun s start hs ↦ ?_
  rw [Leaf.closeUnsigned]
  split
  · exact s.okReplace_keeps hs _
  · exact (s.failAt_undone _ _).extends.keeps hs

theorem closeSigned_framed (g : Grammar N U) :
    Framed g (DirectAction.toAction (Leaf.closeSigned (U := U))) := by
  refine framed_toAction fun s start hs ↦ ?_
  rw [Leaf.closeSigned]
  split
  · exact (s.failAt_undone _ _).extends.keeps hs
  · split
    · exact s.okReplace_keeps hs _
    · exact (s.failAt_undone _ _).extends.keeps hs

theorem signedDecimal_framed (g : Grammar N U) (hg : ∀ n, (g n).Every (Framed g))
    (action : Action N U) (h : (Leaf.signedDecimal : Rule N U).Uses g @action) :
    Framed g @action := by
  refine Every.of_uses hg ?_ h
  simp [Leaf.signedDecimal, Leaf.signMaybe, Leaf.sign, Leaf.unsignedDecimal, Leaf.decimalDigits,
    Leaf.decimalDigit, closeUnsigned_framed, closeSigned_framed]

/-- The bytes of `7-9223372036854775809`, with the cursor on the sign. -/
def beforeTooLarge :
    State #[0x37, 0x2D, 0x39, 0x32, 0x32, 0x33, 0x33, 0x37, 0x32, 0x30, 0x33, 0x36, 0x38, 0x35,
      0x34, 0x37, 0x37, 0x35, 0x38, 0x30, 0x39] Unit where
  cursor := 1
  cursor_le := by decide
  results := [.null]
  errorsSilenced := 2
  user := ()

/-- Behind a sign and nineteen digits the rule finds the number too large, and it goes back to the
sign: the result that was there before is the only one left. -/
theorem signedDecimal_pure_too_large :
    (∀ action : Action Empty Unit, (Leaf.signedDecimal : Rule Empty Unit).Uses nofun @action →
        Framed nofun @action) ∧
      ∃ s', (Leaf.signedDecimal : Rule Empty Unit).evaluate nofun 8 beforeTooLarge =
          some (.fail, s') ∧
        s'.cursor = 1 ∧ s'.results = [.null] ∧ s'.errorsSilenced = 2 ∧ s'.resultsSilenced = 0 := by
  have hfail : ((Leaf.signedDecimal : Rule Empty Unit).evaluate nofun 8 beforeTooLarge).map
      Prod.fst = some .fail := by decide +kernel
  obtain ⟨⟨_, s'⟩, h, rfl⟩ := Option.map_eq_some_iff.1 hfail
  have hframed := signedDecimal_framed (nofun : Grammar Empty Unit) nofun
  obtain ⟨herrors, hresults, hback, -⟩ := evaluate_pure _ 8 _ hframed _ s' .fail h
  obtain ⟨hcursor, hstack⟩ := hback Outcome.noConfusion
  exact ⟨hframed, s', h, hcursor, hstack, herrors, hresults⟩

end Rule
end DocGrammar
