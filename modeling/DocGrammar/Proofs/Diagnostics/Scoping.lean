import DocGrammar.Proofs.Diagnostics.Committed
import DocGrammar.Proofs.Diagnostics.Tidy

/-!
# The record of a choice is its own

A choice sets the record of the furthest failure aside, has its attempts start another one, and
merges the two when they have ended.  It decides by the new record what it reports, so nothing that
was recorded before has a say in that.  And it makes no difference whether a failure is recorded
before the two are merged or afterwards (`State.further_later`), so whatever is done to a record can
be done to an empty one first and merged into the record then.

For two runs this means that one of them may remember an older failure (`State.Remembers`).  What is
remembered is set aside with the record when a choice begins, and the attempts of the two runs start
from the same state.  So the relation is another one in there than it is outside.
-/

set_option autoImplicit false

namespace DocGrammar

variable {N U : Type} {input : Array UInt8}

namespace State

/-! ## Remembering an older failure -/

/-- The later record prevails if it is as far. -/
theorem further_eq (outer inner : Option Failure) :
    further outer inner = (inner.filter fun f ↦ outer.all (·.offset ≤ f.offset)).or outer := by
  rcases inner with _ | f
  · rfl
  · rcases outer with _ | e
    · rfl
    · by_cases h : e.offset ≤ f.offset
      · simp [further, later, Option.filter, h]
      · simp [further, later, Option.filter, h]

/-- In the second state an older failure is remembered, if there is one, under what has been
recorded in the first. -/
def Remembers (older : Option Failure) (s s' : State input U) : Prop :=
  s' = { s with furthest := further older s.furthest }

namespace Remembers

variable {older : Option Failure} {s s' : State input U}

theorem of_eq (h : s' = s) : s.Remembers none s' := by
  rw [Remembers, further_none]
  exact h

theorem eq (h : s.Remembers none s') : s' = s := by
  rw [Remembers, further_none] at h
  exact h

theorem noted (h : s.Remembers older s') (event : Unit → Event) :
    (s.noted event).Remembers older (s'.noted event) := by
  subst h
  unfold State.noted
  dsimp only
  split
  · rfl
  · rfl

theorem push (h : s.Remembers older s') (value : Value) :
    (s.push value).Remembers older (s'.push value) := by
  subst h
  unfold State.push
  dsimp only
  split
  · rfl
  · rfl

theorem commitUnlessSilenced (h : s.Remembers older s') (f : Failure) :
    (s.commitUnlessSilenced f).Remembers older (s'.commitUnlessSilenced f) := by
  subst h
  unfold State.commitUnlessSilenced
  dsimp only
  split
  · rfl
  · rfl

theorem record (h : s.Remembers older s') (f : Failure) :
    (s.record f).Remembers older (s'.record f) := by
  subst h
  simp only [Remembers, State.record, further_later]

theorem failAt (h : s.Remembers older s') (offset : Nat) (reason : Reason) :
    (s.failAt offset reason).2.Remembers older (s'.failAt offset reason).2 :=
  ((h.noted _).record _).commitUnlessSilenced _

/-- Merging the record of the attempts into one that remembers more. -/
theorem rejoin (h : s.Remembers older s') (ended : State input U) :
    (Evaluate.rejoin s.furthest ended).Remembers older (Evaluate.rejoin s'.furthest ended) := by
  subst h
  unfold Evaluate.rejoin
  dsimp only
  split
  · simp only [Remembers, State.record, further_later]
  · rfl

/-- The conclusion of a choice reads the record of its attempts only. -/
theorem conclude (h : s.Remembers older s') (ended : State input U) (name : Option String)
    (offset : Nat) (outcome : Outcome) :
    (Evaluate.conclude name offset s outcome ended).Remembers older
      (Evaluate.conclude name offset s' outcome ended) := by
  have hrejoin := h.rejoin ended.unsilenceErrors
  unfold Evaluate.conclude
  dsimp only
  split
  · exact hrejoin
  · split
    · split
      · exact hrejoin.commitUnlessSilenced _
      · exact hrejoin.failAt _ _
    · exact hrejoin.failAt _ _

/-- The engine does not see what is remembered, and forgets nothing of it.  While a choice makes its
attempts, nothing is remembered. -/
theorem concordant :
    Concordant (Remembers : Option Failure → State input U → State input U → Prop) where
  cursor_eq := by
    rintro _ s _ rfl
    rfl
  offset_eq := congrArg Position.offset
  position := by
    rintro _ s _ rfl
    rfl
  restore := by
    rintro _ s _ rfl _ start rfl
    rfl
  advance := by
    rintro _ s _ rfl n
    rfl
  push := push
  failAt := failAt
  silenceErrors := by
    rintro _ s _ rfl
    rfl
  unsilenceErrors := by
    rintro _ s _ rfl
    rfl
  muted older := ⟨older, by rintro s _ rfl; rfl, by rintro s _ rfl; rfl⟩
  tried older := by
    refine ⟨none, ?_, ?_⟩
    · rintro s _ rfl
      exact of_eq rfl
    · rintro s s' ended ended' h hended
      rw [hended.eq]
      exact h.conclude ended
  resultsSilenced_eq := by
    rintro _ s _ rfl
    rfl
  noted := noted

end Remembers
end State

/-! ## Actions that are not concerned -/

/-- An action that neither reads the record of the furthest failure nor clears it.  Whatever older
failure is remembered, it does the same, and the failure is still remembered afterwards. -/
def UnmindfulAction (action : Action N U) : Prop :=
  ∀ (input : Array UInt8) (older : Option Failure),
    RespectfulAction (State.Remembers older : State input U → State input U → Prop) @action

/-- A direct action that neither reads the record of the furthest failure nor clears it. -/
def UnmindfulReply (act : DirectAction U) : Prop :=
  ∀ (input : Array UInt8) (older : Option Failure) (start : Position) ⦃s s' : State input U⦄,
    s.Remembers older s' → SameReply (State.Remembers older) (act s start) (act s' start)

theorem UnmindfulReply.toAction {act : DirectAction U} (h : UnmindfulReply @act) :
    UnmindfulAction (N := N) (DirectAction.toAction @act) :=
  fun _ older start _ _ hs ↦ .done (h _ older start hs)

/-! ## What a choice reports -/

namespace State

/-- In the second state a failure is reported that was recorded since the first one, where nothing
had been. -/
structure Reports (s : State input U) (own : Failure) (t : State input U) : Prop where
  /-- It is the furthest that was recorded. -/
  furthest_eq : t.furthest = some own
  /-- Unless failures are silenced it is committed. -/
  error_eq : t.error = if s.errorsSilenced = 0 then later s.error own else s.error

/-- Nothing is recorded before and after. -/
theorem Reports.within {s s₁ t₁ t : State input U} {own : Failure} (h : s₁.Reports own t₁)
    (hs : s.Recorded [] s₁) (ht : t₁.Recorded [] t) : s.Reports own t :=
  ⟨ht.furthest_eq.trans h.furthest_eq, by
    rw [ht.error_eq, h.error_eq, hs.errorsSilenced_eq, hs.error_eq]⟩

theorem commitUnlessSilenced_error (s : State input U) (f : Failure) :
    (s.commitUnlessSilenced f).error =
      if s.errorsSilenced = 0 then later s.error f else s.error := by
  unfold commitUnlessSilenced
  split
  · rfl
  · rfl

theorem failAt_error (s : State input U) (offset : Nat) (reason : Reason) :
    (s.failAt offset reason).2.error =
      if s.errorsSilenced = 0 then later s.error ⟨offset, input[offset]?, reason⟩
        else s.error := by
  have hnoted : (s.noted fun _ ↦ .failure ⟨offset, input[offset]?, reason⟩).error = s.error := by
    unfold noted
    split
    · rfl
    · rfl
  rw [failAt, commitUnlessSilenced_error, record_errorsSilenced, noted_errorsSilenced, record,
    hnoted]

end State

namespace Evaluate

/-- A choice that fails reports the furthest failure of its attempts, or one of its own. -/
theorem choice_reports {eval : Rule N U → Step input U} {rules : List (Rule N U)}
    (heval : ∀ r ∈ rules, Accountable (eval r)) {name : Option String} {start : Position}
    {s t : State input U} (hs : s.furthest = none)
    (h : choice eval name rules start s = some (.fail, t)) : ∃ own, s.Reports own t := by
  rw [choice_eq_conclude] at h
  obtain ⟨⟨outcome, ended⟩, hattempts, heq⟩ := Option.map_eq_some_iff.1 h
  cases heq
  obtain ⟨fs, hrecorded⟩ := firstOf_recorded heval hattempts
  obtain ⟨hrejoin, herror⟩ := rejoin_recorded hrecorded
  have hfurthest : (rejoin s.furthest ended.unsilenceErrors).furthest = ended.furthest := by
    rw [rejoin_furthest, hs, State.further_none]
    rfl
  -- a failure of its own lies no less far on than those of the attempts
  have hown (hfar : ∀ inner, ended.furthest = some inner → inner.offset ≤ start.offset) :
      s.Reports ⟨start.offset, input[start.offset]?, .noAlternative name⟩
        ((rejoin s.furthest ended.unsilenceErrors).failAt start.offset
          (.noAlternative name)).2 := by
    constructor
    · rw [State.failAt_furthest, hfurthest]
      cases hinner : ended.furthest with
      | none => rfl
      | some inner => exact if_pos (hfar inner hinner)
    · rw [State.failAt_error, hrejoin.errorsSilenced_eq, herror]
  simp only [conclude, reduceCtorEq, if_false]
  split
  · next inner hinner =>
    split
    · refine ⟨inner, ?_, ?_⟩
      · rw [State.commitUnlessSilenced_furthest, hfurthest, hinner]
      · rw [State.commitUnlessSilenced_error, hrejoin.errorsSilenced_eq, herror]
    · next hnear =>
      refine ⟨_, hown fun inner' hinner' ↦ ?_⟩
      obtain rfl : inner' = inner := Option.some.inj (hinner'.symm.trans hinner)
      exact Nat.le_of_not_lt fun hlt ↦ hnear (.inl hlt)
  · next hnone => exact ⟨_, hown fun inner hinner ↦ by rw [hnone] at hinner; cases hinner⟩

/-! ### Failing within modifiers -/

/-- Where the second body fails, the first one has failed, and nothing was recorded around it. -/
def FailsWithin (body body' : Position → Step input U) : Prop :=
  ∀ ⦃start : Position⦄ ⦃s t : State input U⦄, body' start s = some (.fail, t) →
    ∃ s₁ t₁, s.Quiet s₁ ∧ body start s₁ = some (.fail, t₁) ∧ t₁.Quiet t

variable {body body' body'' : Position → Step input U}

theorem FailsWithin.trans (h : FailsWithin body body') (h' : FailsWithin body' body'') :
    FailsWithin body body'' := by
  intro start s t hfail
  obtain ⟨s₁, t₁, hs₁, hfail₁, ht₁⟩ := h' hfail
  obtain ⟨s₂, t₂, hs₂, hfail₂, ht₂⟩ := h hfail₁
  exact ⟨s₂, t₂, hs₁.trans hs₂, hfail₂, ht₂.trans ht₁⟩

theorem repeated_failsWithin (body : Position → Step input U) :
    FailsWithin body (repeated body) := by
  intro start s t h
  simp only [repeated] at h
  rcases hfirst : body start s with _ | ⟨_ | _ | _, s₁⟩
  all_goals simp only [hfirst] at h
  · cases h
  · split at h
    · cases h
    · cases h
  · cases h
    exact ⟨s, t, .refl s, hfirst, .refl t⟩
  · cases h

theorem optional_failsWithin (body : Position → Step input U) :
    FailsWithin body (optional body) := by
  intro start s t h
  simp only [optional] at h
  rcases hfirst : body start s.silenceErrors with _ | ⟨_ | _ | _, s₁⟩
  all_goals simp only [hfirst] at h
  all_goals cases h

theorem lookahead_failsWithin (body : Position → Step input U) :
    FailsWithin body (lookahead body) := by
  intro start s t h
  simp only [lookahead] at h
  rcases hfirst : body start s.silenceResults with _ | ⟨outcome, s₁⟩
  · rw [hfirst] at h
    cases h
  · rw [hfirst] at h
    cases h
    exact ⟨_, s₁, s.silenceResults_quiet, hfirst, s₁.unsilenceResults_quiet⟩

theorem flat_failsWithin (body : Position → Step input U) : FailsWithin body (flat body) := by
  intro start s t h
  refine lookahead_failsWithin body ?_
  simp only [flat] at h
  rcases hfirst : lookahead body start s with _ | ⟨_ | _ | _, s₁⟩
  all_goals simp only [hfirst] at h
  · cases h
  · cases h
  · exact h
  · cases h

theorem wrapIf_failsWithin {wrapper : (Position → Step input U) → Position → Step input U}
    (hwrapper : ∀ body, FailsWithin body (wrapper body)) (wanted : Bool)
    (hbody : FailsWithin body body') : FailsWithin body (wrapIf wanted wrapper body') := by
  cases wanted with
  | false => exact hbody
  | true => exact hbody.trans (hwrapper body')

theorem modified_failsWithin (m : Modifiers) (body : Position → Step input U) :
    FailsWithin body (modified m body) :=
  wrapIf_failsWithin optional_failsWithin _ <|
  wrapIf_failsWithin lookahead_failsWithin _ <|
  wrapIf_failsWithin flat_failsWithin _ <|
  wrapIf_failsWithin optional_failsWithin _ <|
  wrapIf_failsWithin repeated_failsWithin _ fun _ s t h ↦ ⟨s, t, .refl s, h, .refl t⟩

end Evaluate

/-! ## Whole rules -/

namespace Rule

/-- Whatever the record holds when a rule is matched, it could be merged in afterwards. -/
theorem evaluate_remembers {g : Grammar N U} (budget : Nat) {r : Rule N U}
    (hr : ∀ action : Action N U, r.Involves g @action → UnmindfulAction @action)
    (s : State input U) (f : Option Failure) :
    r.evaluate g budget { s with furthest := f } =
      (r.evaluate g budget { s with furthest := none }).map fun (outcome, t) ↦
        (outcome, { t with furthest := State.further f t.furthest }) := by
  have hs : State.Remembers f { s with furthest := none } { s with furthest := f } := rfl
  obtain ⟨h₁, h₁'⟩ | ⟨outcome, t, t', h₁, h₁', ht⟩ := (evaluate_concordant
    State.Remembers.concordant budget (fun action h older ↦ hr @action h input older) f).cases hs
  · rw [h₁, h₁']
    rfl
  · rw [h₁, h₁', ht]
    rfl

/-- A choice that fails, with any modifiers, reports what has been recorded since it began. -/
theorem evaluate_choice_reports {g : Grammar N U} {budget : Nat} {r : Rule N U}
    {rules : List (Rule N U)} (hkind : r.kind = .anyOf rules)
    (hhonest : ∀ action : Action N U, r.Involves g @action → HonestAction @action)
    {s t : State input U} (hs : s.furthest = none)
    (h : r.evaluate g budget s = some (.fail, t)) : ∃ own, s.Reports own t := by
  cases budget with
  | zero => cases h
  | succ budget =>
    obtain ⟨entered, left, hbody, -, hentered, hleft, -⟩ := step_inv h
    obtain ⟨s₁, t₁, hs₁, hfail, ht₁⟩ := Evaluate.modified_failsWithin _ _ hbody
    rw [hkind] at hfail
    have hinner : ∀ rule ∈ rules, Accountable (rule.evaluate g budget : Step input U) :=
      fun rule hrule ↦ evaluate_accountable budget fun action hinvolves ↦
        hhonest @action (.within (by rw [hkind]; exact hrule) hinvolves)
    have hbefore := hentered.trans_quiet hs₁
    obtain ⟨own, hreports⟩ := Evaluate.choice_reports hinner (hbefore.furthest_eq.trans hs) hfail
    exact ⟨own, hreports.within hbefore (ht₁.recorded.trans hleft)⟩

/-- **The record from before has no say.**  Let no action involved in a rule read the record of the
furthest failure or clear it.  Two runs of the rule from states in which the record differs come to
the same in everything else.  The record that a run leaves is that of a run from an empty record,
unless there is none or it does not reach as far as the old one, and then it is the old one.  And a
choice that fails reports the failure that has been recorded since it began, wherever the record had
got before. -/
theorem evaluate_scopes_furthest (g : Grammar N U) (budget : Nat) (r : Rule N U)
    (hr : ∀ action : Action N U, r.Involves g @action → UnmindfulAction @action)
    (s : State input U) (f f' : Option Failure) :
    (r.evaluate g budget { s with furthest := f' }).map
        (fun (outcome, t) ↦ (outcome, t.cursor, t.results, t.user, t.error)) =
      (r.evaluate g budget { s with furthest := f }).map
        (fun (outcome, t) ↦ (outcome, t.cursor, t.results, t.user, t.error)) ∧
    r.evaluate g budget { s with furthest := f } =
      (r.evaluate g budget { s with furthest := none }).map (fun (outcome, t) ↦
        (outcome, { t with
          furthest := (t.furthest.filter fun h ↦ f.all (·.offset ≤ h.offset)).or f })) ∧
    ∀ rules t, r.kind = .anyOf rules →
      (∀ action : Action N U, r.Involves g @action → HonestAction @action) →
      r.evaluate g budget { s with furthest := f } = some (.fail, t) →
      ∃ own t₀, r.evaluate g budget { s with furthest := none } = some (.fail, t₀) ∧
        t₀.furthest = some own ∧
        t.error = if s.errorsSilenced = 0 then State.later s.error own else s.error := by
  have hremembers := evaluate_remembers budget hr s
  refine ⟨?_, ?_, fun rules t hkind hhonest h ↦ ?_⟩
  · rw [hremembers f, hremembers f', Option.map_map, Option.map_map]
    rfl
  · simp only [hremembers f, State.further_eq]
  · rw [hremembers f] at h
    obtain ⟨⟨outcome, t₀⟩, h₀, heq⟩ := Option.map_eq_some_iff.1 h
    cases heq
    obtain ⟨own, hreports⟩ := evaluate_choice_reports hkind hhonest rfl h₀
    exact ⟨own, t₀, h₀, hreports.furthest_eq, hreports.error_eq⟩

/-! ### An integer or a letter, with a failure remembered -/

theorem closeUnsigned_unmindful (radix : Nat) :
    UnmindfulReply (Leaf.closeUnsigned (U := U) radix) := by
  rintro input older start s _ rfl
  dsimp only [Leaf.closeUnsigned, State.sliceSince, State.resultsSince]
  split
  · exact State.Remembers.concordant.okWith rfl _
  · exact State.Remembers.concordant.fail rfl _

theorem closeSigned_unmindful : UnmindfulReply (Leaf.closeSigned (U := U)) := by
  rintro input older start s _ rfl
  dsimp only [Leaf.closeSigned, State.resultsSince]
  split
  · exact State.Remembers.concordant.fail rfl _
  · split
    · exact State.Remembers.concordant.okWith rfl _
    · exact State.Remembers.concordant.fail rfl _

theorem askInteger_unmindful (action : Action Unit Unit)
    (h : askInteger.Involves integers @action) : UnmindfulAction @action := by
  have hask : askInteger.Every UnmindfulAction := fun _ _ _ _ _ hs ↦
    .call hs fun hreply ↦ .done hreply
  exact Every.of_involves (fun _ ↦ every_signedDecimal (closeUnsigned_unmindful 10).toAction
    closeSigned_unmindful.toAction) hask h

/-- An integer that an action asks for, or the letter `x`. -/
def integerOrLetter : Rule Unit Unit := .anyOf [askInteger, .byte 0x78]

theorem integerOrLetter_involves {action : Action Unit Unit}
    (h : integerOrLetter.Involves integers @action) : askInteger.Involves integers @action := by
  cases h with
  | here hruns => exact hruns.elim
  | @within _ rule hrule h =>
    rcases List.mem_cons.1 hrule with rfl | hrule
    · exact h
    · obtain rfl := List.mem_singleton.1 hrule
      cases h with
      | here hruns => exact hruns.elim
      | within hrule => cases hrule
      | asked hruns => exact hruns.elim
  | asked hruns => exact hruns.elim

/-- The furthest failure of a choice that cannot read `-x` is that of a digit.  A failure at the end
of the input is remembered, but it is not what the choice reports. -/
theorem evaluate_scopes_furthest_noInteger :
    (∀ action : Action Unit Unit, integerOrLetter.Involves integers @action →
        UnmindfulAction @action ∧ HonestAction @action) ∧
      ∃ t, integerOrLetter.evaluate integers 9
          { noInteger with furthest := some ⟨2, none, .expectedEnd⟩ } = some (.fail, t) ∧
        t.furthest = some ⟨2, none, .expectedEnd⟩ ∧
        t.error = some ⟨1, some 0x78, .expectedRange 0x30 0x39⟩ := by
  have hunmindful (action : Action Unit Unit) (h : integerOrLetter.Involves integers @action) :
      UnmindfulAction @action := askInteger_unmindful @action (integerOrLetter_involves h)
  have hhonest (action : Action Unit Unit) (h : integerOrLetter.Involves integers @action) :
      HonestAction @action := askInteger_honest @action (integerOrLetter_involves h)
  have hempty : (integerOrLetter.evaluate integers 9 { noInteger with furthest := none }).map
      (fun (outcome, t) ↦ (outcome, t.furthest)) =
        some (.fail, some ⟨1, some 0x78, .expectedRange 0x30 0x39⟩) := by decide
  obtain ⟨⟨outcome, t₀⟩, h₀, heq⟩ := Option.map_eq_some_iff.1 hempty
  obtain ⟨rfl, hfurthest⟩ := Prod.mk.inj heq
  obtain ⟨-, hmerged, hreported⟩ := evaluate_scopes_furthest integers 9 integerOrLetter
    hunmindful noInteger (some ⟨2, none, .expectedEnd⟩) none
  rw [h₀] at hmerged
  refine ⟨fun action h ↦ ⟨hunmindful action h, hhonest action h⟩, _, hmerged, ?_, ?_⟩
  · dsimp only
    rw [hfurthest]
    rfl
  · obtain ⟨own, t₁, h₁, hown, herror⟩ := hreported _ _ rfl hhonest hmerged
    cases h₀.symm.trans h₁
    cases hfurthest.symm.trans hown
    exact herror

end Rule
end DocGrammar
