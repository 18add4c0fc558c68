import DocGrammar.Proofs.SideBySide

/-!
# What a run records

Every failure of a parse goes through `State.failAt`, which writes it down if the parse is traced,
takes it into account for the furthest failure, and commits it unless failures are silenced.  Then
the engine moves those two records about: a choice sets the furthest failure aside and merges it
back, it commits a failure that was recorded before, and everything that recovers from a failure has
silenced it first.

This file keeps the books.  `State.Recorded s fs s'` says what has become of the diagnostics after
the failures `fs`, in their order: the furthest failure is what folding them into the record gives,
and the committed one is the old one or one of them.  `Accounts` adds what the outcome has to do
with it: a rule that does not fail leaves the committed failure alone, and one that fails has
recorded something, and committed it if it could.

Actions have to play by the rules.  An `HonestAction` touches diagnostics by failing only, and
fails when it says so and not otherwise.
-/

set_option autoImplicit false

namespace DocGrammar

variable {N U : Type} {input : Array UInt8}

/-- The failure that an event is about, if it is about one. -/
def Event.failure? : Event → Option Failure
  | .failure f => some f
  | _ => none

namespace State

/-! ## The furthest of several failures -/

/-- What becomes of the record of the furthest failure when a later record is merged into it. -/
def further (outer inner : Option Failure) : Option Failure :=
  match inner with
  | none => outer
  | some f => later outer f

theorem later_cases (earlier : Option Failure) (f : Failure) :
    later earlier f = some f ∨ later earlier f = earlier := by
  cases earlier with
  | none => exact .inl rfl
  | some e =>
    unfold later
    dsimp only
    split
    · exact .inl rfl
    · exact .inr rfl

theorem isSome_later (earlier : Option Failure) (f : Failure) : (later earlier f).isSome := by
  cases earlier with
  | none => rfl
  | some e =>
    unfold later
    dsimp only
    split <;> rfl

theorem further_none (inner : Option Failure) : further none inner = inner := by
  cases inner <;> rfl

theorem further_later (outer inner : Option Failure) (f : Failure) :
    further outer (later inner f) = later (further outer inner) f := by
  rcases inner with _ | e
  · rfl
  rcases outer with _ | o
  · rw [further_none, further_none]
  · grind [further, later]

/-- Merging a record of its own into an older one comes to the same as recording everything in the
older one. -/
theorem further_foldl (fs : List Failure) (outer inner : Option Failure) :
    further outer (fs.foldl later inner) = fs.foldl later (further outer inner) := by
  induction fs generalizing inner with
  | nil => rfl
  | cons f fs ih => rw [List.foldl_cons, List.foldl_cons, ih, further_later]

theorem foldl_later_cases (fs : List Failure) (outer : Option Failure) :
    fs.foldl later outer = outer ∨ ∃ f ∈ fs, fs.foldl later outer = some f := by
  induction fs generalizing outer with
  | nil => exact .inl rfl
  | cons f fs ih =>
    rw [List.foldl_cons]
    rcases ih (later outer f) with h | ⟨e, he, h⟩
    · rcases later_cases outer f with hf | hf
      · exact .inr ⟨f, List.mem_cons_self, h.trans hf⟩
      · exact .inl (h.trans hf)
    · exact .inr ⟨e, List.mem_cons_of_mem _ he, h⟩

/-! ## Leaving diagnostics alone -/

/-- The two states have the same diagnostics. -/
structure Quiet (s s' : State input U) : Prop where
  /-- Failures are silenced to the same depth. -/
  errorsSilenced_eq : s'.errorsSilenced = s.errorsSilenced
  /-- The committed failure is the same. -/
  error_eq : s'.error = s.error
  /-- The furthest failure is the same. -/
  furthest_eq : s'.furthest = s.furthest
  /-- Lines are counted from the same place. -/
  location_eq : s'.location = s.location
  /-- The offset of that place is the same. -/
  synced_eq : s'.synced = s.synced
  /-- The same has been traced. -/
  trace_eq : s'.trace = s.trace

section

variable {s s' s'' : State input U}

theorem Quiet.refl (s : State input U) : s.Quiet s := ⟨rfl, rfl, rfl, rfl, rfl, rfl⟩

theorem Quiet.trans (h : s.Quiet s') (h' : s'.Quiet s'') : s.Quiet s'' :=
  ⟨h'.errorsSilenced_eq.trans h.errorsSilenced_eq, h'.error_eq.trans h.error_eq,
    h'.furthest_eq.trans h.furthest_eq, h'.location_eq.trans h.location_eq,
    h'.synced_eq.trans h.synced_eq, h'.trace_eq.trans h.trace_eq⟩

theorem moveTo_quiet (s : State input U) (offset : Nat) : s.Quiet (s.moveTo offset) :=
  ⟨rfl, rfl, rfl, rfl, rfl, rfl⟩

theorem advance_quiet (s : State input U) (n : Nat) : s.Quiet (s.advance n) :=
  s.moveTo_quiet _

theorem restore_quiet (s : State input U) (start : Position) : s.Quiet (s.restore start) :=
  ⟨rfl, rfl, rfl, rfl, rfl, rfl⟩

theorem truncate_quiet (s : State input U) (start : Position) : s.Quiet (s.truncate start) :=
  ⟨rfl, rfl, rfl, rfl, rfl, rfl⟩

theorem silenceResults_quiet (s : State input U) : s.Quiet s.silenceResults :=
  ⟨rfl, rfl, rfl, rfl, rfl, rfl⟩

theorem unsilenceResults_quiet (s : State input U) : s.Quiet s.unsilenceResults :=
  ⟨rfl, rfl, rfl, rfl, rfl, rfl⟩

theorem push_quiet (s : State input U) (value : Value) : s.Quiet (s.push value) := by
  unfold push
  split
  · exact ⟨rfl, rfl, rfl, rfl, rfl, rfl⟩
  · exact .refl s

end

/-! ## Recording failures -/

/-- The failures that have been written down, if the parse is traced. -/
def logged (s : State input U) : Option (List Failure) :=
  s.trace.map fun events ↦ events.toList.filterMap Event.failure?

theorem noted_logged (s : State input U) (event : Unit → Event) :
    (s.noted event).logged = s.logged.map (· ++ (event ()).failure?.toList) := by
  rcases htrace : s.trace with _ | events
  · simp only [noted, logged, htrace, Option.map_none]
  · rcases hevent : (event ()).failure? with _ | f
    · simp [noted, logged, htrace, hevent]
    · simp [noted, logged, htrace, hevent]

/-- The diagnostics of the second state are those of the first one, with the given failures
recorded since. -/
structure Recorded (s : State input U) (fs : List Failure) (s' : State input U) : Prop where
  /-- Failures are silenced to the same depth. -/
  errorsSilenced_eq : s'.errorsSilenced = s.errorsSilenced
  /-- Lines are counted from the same place. -/
  location_eq : s'.location = s.location
  /-- The offset of that place is the same. -/
  synced_eq : s'.synced = s.synced
  /-- The failures have been written down, if the parse is traced. -/
  logged_eq : s'.logged = s.logged.map (· ++ fs)
  /-- The furthest failure takes all of them into account. -/
  furthest_eq : s'.furthest = fs.foldl later s.furthest
  /-- The committed failure is the old one, or one of the new ones. -/
  error_mem : s'.error = s.error ∨ ∃ f ∈ fs, s'.error = some f
  /-- Nothing is committed where failures are silenced. -/
  error_silenced : s.errorsSilenced ≠ 0 → s'.error = s.error
  /-- A committed failure can be replaced but not taken back. -/
  isSome_error : s.error.isSome → s'.error.isSome

section

variable {s s' s'' : State input U} {fs fs' : List Failure}

theorem Quiet.recorded (h : s.Quiet s') : s.Recorded [] s' where
  errorsSilenced_eq := h.errorsSilenced_eq
  location_eq := h.location_eq
  synced_eq := h.synced_eq
  logged_eq := by
    simp only [logged, h.trace_eq, List.append_nil]
    exact (congrFun Option.map_id _).symm
  furthest_eq := h.furthest_eq
  error_mem := .inl h.error_eq
  error_silenced _ := h.error_eq
  isSome_error hs := h.error_eq ▸ hs

theorem Recorded.trans (h : s.Recorded fs s') (h' : s'.Recorded fs' s'') :
    s.Recorded (fs ++ fs') s'' where
  errorsSilenced_eq := h'.errorsSilenced_eq.trans h.errorsSilenced_eq
  location_eq := h'.location_eq.trans h.location_eq
  synced_eq := h'.synced_eq.trans h.synced_eq
  logged_eq := by
    rw [h'.logged_eq, h.logged_eq]
    cases s.logged with
    | none => rfl
    | some old => simp
  furthest_eq := by rw [h'.furthest_eq, h.furthest_eq, List.foldl_append]
  error_mem := by
    rcases h'.error_mem with h₁ | ⟨f, hf, h₁⟩
    · rcases h.error_mem with h₂ | ⟨f, hf, h₂⟩
      · exact .inl (h₁.trans h₂)
      · exact .inr ⟨f, List.mem_append_left _ hf, h₁.trans h₂⟩
    · exact .inr ⟨f, List.mem_append_right _ hf, h₁⟩
  error_silenced hs :=
    (h'.error_silenced (h.errorsSilenced_eq ▸ hs)).trans (h.error_silenced hs)
  isSome_error hs := h'.isSome_error (h.isSome_error hs)

theorem Recorded.trans_quiet (h : s.Recorded fs s') (h' : s'.Quiet s'') : s.Recorded fs s'' := by
  have hboth := h.trans h'.recorded
  rwa [List.append_nil] at hboth

/-- Where nothing has been recorded, nothing has been committed. -/
theorem Recorded.error_eq (h : s.Recorded [] s') : s'.error = s.error := by
  rcases h.error_mem with herror | ⟨f, hf, -⟩
  · exact herror
  · cases hf

/-- Writing down what is no failure does not count. -/
theorem noted_recorded (s : State input U) (event : Unit → Event)
    (hevent : (event ()).failure? = none) : s.Recorded [] (s.noted event) where
  errorsSilenced_eq := noted_errorsSilenced s event
  location_eq := by
    unfold noted
    split <;> rfl
  synced_eq := by
    unfold noted
    split <;> rfl
  logged_eq := by
    rw [noted_logged, hevent]
    rfl
  furthest_eq := by
    unfold noted
    split <;> rfl
  error_mem := by
    unfold noted
    split <;> exact .inl rfl
  error_silenced _ := by
    unfold noted
    split <;> rfl
  isSome_error hs := by
    unfold noted
    split <;> exact hs

/-- Committing a failure that has been recorded, where failures are not silenced. -/
theorem Recorded.commitUnlessSilenced (h : s.Recorded fs s') {f : Failure} (hf : f ∈ fs) :
    s.Recorded fs (s'.commitUnlessSilenced f) := by
  unfold State.commitUnlessSilenced
  split
  · next hs =>
    refine ⟨h.errorsSilenced_eq, h.location_eq, h.synced_eq, h.logged_eq, h.furthest_eq, ?_,
      fun hsilenced ↦ absurd (h.errorsSilenced_eq ▸ hs) hsilenced, fun _ ↦ isSome_later _ _⟩
    rcases later_cases s'.error f with hlater | hlater
    · exact .inr ⟨f, hf, hlater⟩
    · rcases h.error_mem with herror | ⟨e, he, herror⟩
      · exact .inl (hlater.trans herror)
      · exact .inr ⟨e, he, hlater.trans herror⟩
  · exact h

/-- Where failures are not silenced, a failure is committed. -/
theorem isSome_commitUnlessSilenced (s : State input U) (f : Failure) (hs : s.errorsSilenced = 0) :
    (s.commitUnlessSilenced f).error.isSome := by
  rw [State.commitUnlessSilenced, if_pos hs]
  exact isSome_later _ _

theorem failAt_recorded (s : State input U) (offset : Nat) (reason : Reason) :
    s.Recorded [⟨offset, input[offset]?, reason⟩] (s.failAt offset reason).2 := by
  have hnoted {α : Type} (field : State input U → α)
      (hfield : ∀ (s : State input U) trace, field { s with trace } = field s) :
      field (s.noted fun _ ↦ .failure ⟨offset, input[offset]?, reason⟩) = field s := by
    unfold noted
    split
    · rfl
    · exact hfield s _
  refine Recorded.commitUnlessSilenced ?_ List.mem_cons_self
  exact {
    errorsSilenced_eq := hnoted State.errorsSilenced fun _ _ ↦ rfl
    location_eq := hnoted State.location fun _ _ ↦ rfl
    synced_eq := hnoted State.synced fun _ _ ↦ rfl
    logged_eq := noted_logged s _
    furthest_eq := congrArg (later · _) (hnoted State.furthest fun _ _ ↦ rfl)
    error_mem := .inl (hnoted State.error fun _ _ ↦ rfl)
    error_silenced := fun _ ↦ hnoted State.error fun _ _ ↦ rfl
    isSome_error := fun hs ↦ (hnoted State.error fun _ _ ↦ rfl) ▸ hs }

theorem isSome_failAt (s : State input U) (offset : Nat) (reason : Reason)
    (hs : s.errorsSilenced = 0) : (s.failAt offset reason).2.error.isSome :=
  isSome_commitUnlessSilenced _ _ (by rw [record_errorsSilenced, noted_errorsSilenced, hs])

/-- Whatever is recorded in silence is not committed. -/
theorem Recorded.silently (h : s.silenceErrors.Recorded fs s') :
    s.Recorded fs s'.unsilenceErrors ∧ s'.unsilenceErrors.error = s.error := by
  have herror : s'.error = s.error := h.error_silenced (Nat.succ_ne_zero _)
  refine ⟨⟨?_, h.location_eq, h.synced_eq, h.logged_eq, h.furthest_eq, .inl herror,
    fun _ ↦ herror, fun hs ↦ herror ▸ hs⟩, herror⟩
  show s'.errorsSilenced - 1 = s.errorsSilenced
  rw [h.errorsSilenced_eq]
  exact Nat.add_sub_cancel s.errorsSilenced 1

end
end State

/-! ## Accounting for an outcome -/

/-- The given failures were recorded on the way to a reply.  A rule that does not fail has not
committed anything; one that fails has recorded something, and committed it unless failures were
silenced. -/
structure Accounts (s : State input U) (fs : List Failure) (reply : Reply input U) : Prop
    extends s.Recorded fs reply.2 where
  error_eq : reply.1 ≠ .fail → reply.2.error = s.error
  failed : reply.1 = .fail → fs ≠ [] ∧ (s.errorsSilenced = 0 → reply.2.error.isSome)

/-- A piece of evaluation whose replies can be accounted for. -/
def Accountable (step : Step input U) : Prop :=
  ∀ ⦃s : State input U⦄ ⦃reply⦄, step s = some reply → ∃ fs, Accounts s fs reply

/-- The body of a rule, from wherever it starts, has replies that can be accounted for. -/
def AccountableFrom (body : Position → Step input U) : Prop := ∀ start, Accountable (body start)

namespace Accounts

variable {s s₁ s₂ : State input U} {fs fs' : List Failure} {outcome : Outcome}
  {reply : Reply input U}

/-- Nothing has failed, and nothing was recorded. -/
theorem of_quiet (h : s.Quiet s₁) (houtcome : outcome ≠ .fail) :
    Accounts s [] (outcome, s₁) :=
  ⟨h.recorded, fun _ ↦ h.error_eq, fun hfail ↦ absurd hfail houtcome⟩

/-- Nothing has failed, whatever was recorded and not committed. -/
theorem of_recorded (h : s.Recorded fs s₁) (herror : s₁.error = s.error)
    (houtcome : outcome ≠ .fail) : Accounts s fs (outcome, s₁) :=
  ⟨h, fun _ ↦ herror, fun hfail ↦ absurd hfail houtcome⟩

theorem failAt (s : State input U) (offset : Nat) (reason : Reason) :
    Accounts s [⟨offset, input[offset]?, reason⟩] (s.failAt offset reason) :=
  ⟨s.failAt_recorded offset reason, fun h ↦ absurd rfl h,
    fun _ ↦ ⟨List.cons_ne_nil _ _, s.isSome_failAt offset reason⟩⟩

theorem fail (s : State input U) (reason : Reason) :
    Accounts s [⟨s.cursor, input[s.cursor]?, reason⟩] (s.fail reason) :=
  failAt s s.cursor reason

/-- One thing after another, of which the first has not failed. -/
theorem trans (h : Accounts s fs (outcome, s₁)) (houtcome : outcome ≠ .fail)
    (h' : Accounts s₁ fs' reply) : Accounts s (fs ++ fs') reply where
  toRecorded := h.toRecorded.trans h'.toRecorded
  error_eq hreply := (h'.error_eq hreply).trans (h.error_eq houtcome)
  failed hreply := by
    obtain ⟨hne, hcommitted⟩ := h'.failed hreply
    exact ⟨fun hnil ↦ hne (List.append_eq_nil_iff.1 hnil).2, fun hs ↦
      hcommitted (h.errorsSilenced_eq.trans hs)⟩

/-- Nothing is recorded before. -/
theorem after (h' : Accounts s₁ fs reply) (h : s.Recorded [] s₁) : Accounts s fs reply :=
  (of_recorded h h.error_eq (by decide : Outcome.ok ≠ .fail)).trans (by decide) h'

/-- Nothing is recorded afterwards. -/
theorem before (h : Accounts s fs (outcome, s₁)) (h' : s₁.Recorded [] s₂) :
    Accounts s fs (outcome, s₂) where
  toRecorded := by
    have hboth := h.toRecorded.trans h'
    rwa [List.append_nil] at hboth
  error_eq hne := h'.error_eq.trans (h.error_eq hne)
  failed hfail := ⟨(h.failed hfail).1, fun hs ↦ h'.error_eq ▸ (h.failed hfail).2 hs⟩

/-- What was undone in silence has been recorded all the same. -/
theorem silently (h : Accounts s.silenceErrors fs (outcome, s₁)) :
    s.Recorded fs s₁.unsilenceErrors ∧ s₁.unsilenceErrors.error = s.error :=
  h.toRecorded.silently

end Accounts

/-! ## Honest actions -/

/-- Between the two states an action has failed as often as the list says, and done nothing else
to diagnostics. -/
inductive State.Fails (s : State input U) : List Failure → State input U → Prop
  | quiet {s' : State input U} (h : s.Quiet s') : Fails s [] s'
  | failAt {fs : List Failure} {s' s'' : State input U} (h : Fails s fs s') (offset : Nat)
      (reason : Reason) (hquiet : (s'.failAt offset reason).2.Quiet s'') :
      Fails s (fs ++ [⟨offset, input[offset]?, reason⟩]) s''

/-- What is left of a program that began in the given state is honest: it touches diagnostics by
failing only, and it comes to the outcome that it fails exactly when it or a symbol that it had
matched has failed, or one of them had before. -/
inductive Program.Honest : State input U → Prop → Program N input U → Prop
  | done {s : State input U} {failed : Prop} {fs : List Failure} {reply : Reply input U}
      (h : s.Fails fs reply.2) (houtcome : reply.1 = .fail ↔ failed ∨ fs ≠ []) :
      Honest s failed (.done reply)
  | call {s s' : State input U} {failed : Prop} {fs : List Failure} {symbol : N}
      {next : Reply input U → Program N input U} (h : s.Fails fs s')
      (hnext : ∀ reply : Reply input U,
        Honest reply.2 (failed ∨ fs ≠ [] ∨ reply.1 = .fail) (next reply)) :
      Honest s failed (.call symbol s' next)

/-- An action that touches diagnostics by failing only, and fails exactly when it says so. -/
def HonestAction (action : Action N U) : Prop :=
  ∀ ⦃input : Array UInt8⦄ (s : State input U) (start : Position),
    (action s start).Honest s False

/-- A reply to a state that says that it fails exactly when it has failed since. -/
def HonestTo (s : State input U) (reply : Reply input U) : Prop :=
  ∃ fs, s.Fails fs reply.2 ∧ (reply.1 = .fail ↔ fs ≠ [])

namespace HonestTo

variable {s s' : State input U} {outcome : Outcome}

/-- An action that only replies. -/
theorem done {reply : Reply input U} (h : HonestTo s reply) :
    Program.Honest (N := N) s False (.done reply) := by
  obtain ⟨fs, hfails, houtcome⟩ := h
  exact .done hfails (by rw [houtcome, false_or])

theorem of_quiet (h : s.Quiet s') (houtcome : outcome ≠ .fail) : HonestTo s (outcome, s') :=
  ⟨[], .quiet h, fun hfail ↦ absurd hfail houtcome, fun hne ↦ absurd rfl hne⟩

theorem fail_of_quiet (h : s.Quiet s') (reason : Reason) : HonestTo s (s'.fail reason) :=
  ⟨_, .failAt (.quiet h) s'.cursor reason (.refl _), fun _ ↦ by simp, fun _ ↦ rfl⟩

end HonestTo

namespace State

variable {s s' : State input U} {fs : List Failure}

theorem Fails.recorded (h : s.Fails fs s') : s.Recorded fs s' := by
  induction h with
  | quiet h => exact h.recorded
  | @failAt fs s₁ s₂ _ offset reason hquiet ih =>
    exact (ih.trans (s₁.failAt_recorded offset reason)).trans_quiet hquiet

/-- An action that has not failed has not committed anything. -/
theorem Fails.error_eq (h : s.Fails fs s') (hfs : fs = []) : s'.error = s.error := by
  cases h with
  | quiet h => exact h.error_eq
  | failAt => exact absurd hfs (by simp)

/-- An action that has failed has committed something, unless failures were silenced. -/
theorem Fails.isSome_error (h : s.Fails fs s') (hfs : fs ≠ []) (hs : s.errorsSilenced = 0) :
    s'.error.isSome := by
  cases h with
  | quiet h => exact absurd rfl hfs
  | @failAt _ s₁ _ h offset reason hquiet =>
    rw [hquiet.error_eq]
    exact s₁.isSome_failAt offset reason (h.recorded.errorsSilenced_eq.trans hs)

end State

/-- Running what is left of an honest program.  If nothing had failed before, the reply is accounted
for by what was recorded since. -/
theorem Program.Honest.run {match? : N → Step input U} {s : State input U} {failed : Prop}
    {p : Program N input U} (h : p.Honest s failed)
    (hsymbols : ∀ n, p.Asks n → Accountable (match? n)) {reply : Reply input U}
    (hreply : p.run match? = some reply) :
    ∃ fs, s.Recorded fs reply.2 ∧
      (reply.1 ≠ .fail → ¬ failed ∧ reply.2.error = s.error) ∧
      (reply.1 = .fail → failed ∨ fs ≠ [] ∧ (s.errorsSilenced = 0 → reply.2.error.isSome)) := by
  induction h with
  | @done s failed fs _ hfails houtcome =>
    cases hreply
    refine ⟨fs, hfails.recorded, fun hne ↦ ?_, fun hfail ↦ ?_⟩
    · obtain ⟨hfailed, hfs⟩ := not_or.1 fun hor ↦ hne (houtcome.2 hor)
      exact ⟨hfailed, hfails.error_eq (Classical.not_not.1 hfs)⟩
    · exact (houtcome.1 hfail).imp_right fun hfs ↦ ⟨hfs, hfails.isSome_error hfs⟩
  | @call s s' failed fs symbol next hfails hnext ih =>
    rw [Program.run] at hreply
    rcases hmatch : match? symbol s' with _ | reply₁
    · rw [hmatch] at hreply
      cases hreply
    rw [hmatch] at hreply
    obtain ⟨fs₁, h₁⟩ := hsymbols symbol .now hmatch
    obtain ⟨fs₂, hrecorded, hother, hfail⟩ :=
      ih reply₁ (fun n hn ↦ hsymbols n (.later reply₁ hn)) hreply
    have hsilenced₁ := hfails.recorded.errorsSilenced_eq
    have hsilenced₂ := h₁.errorsSilenced_eq.trans hsilenced₁
    refine ⟨fs ++ fs₁ ++ fs₂, (hfails.recorded.trans h₁.toRecorded).trans hrecorded,
      fun hne ↦ ?_, fun heq ↦ ?_⟩
    · obtain ⟨hnone, herror⟩ := hother hne
      obtain ⟨hfailed, hrest⟩ := not_or.1 hnone
      obtain ⟨hfs, hmatched⟩ := not_or.1 hrest
      exact ⟨hfailed, herror.trans ((h₁.error_eq hmatched).trans
        (hfails.error_eq (Classical.not_not.1 hfs)))⟩
    · rcases hfail heq with (hfailed | hfs | hmatched) | ⟨hfs₂, hcommitted⟩
      · exact .inl hfailed
      · refine .inr ⟨by simp [hfs], fun hs ↦ ?_⟩
        exact hrecorded.isSome_error (h₁.isSome_error (hfails.isSome_error hfs hs))
      · refine .inr ⟨by simp [(h₁.failed hmatched).1], fun hs ↦ ?_⟩
        exact hrecorded.isSome_error ((h₁.failed hmatched).2 (hsilenced₁.trans hs))
      · exact .inr ⟨by simp [hfs₂], fun hs ↦ hcommitted (hsilenced₂.trans hs)⟩

/-! ## Sequences and choices -/

namespace Evaluate

variable {s : State input U} {fs : List Failure}

theorem inOrder_accountable {eval : Rule N U → Step input U} {rules : List (Rule N U)}
    (heval : ∀ r ∈ rules, Accountable (eval r)) {outcome : Outcome} (houtcome : outcome ≠ .fail) :
    Accountable (inOrder eval rules outcome) := by
  induction rules generalizing outcome with
  | nil =>
    intro s reply h
    cases h
    exact ⟨[], .of_quiet (.refl s) houtcome⟩
  | cons rule rest ih =>
    intro s reply h
    have hrest := fun r hr ↦ heval r (List.mem_cons_of_mem rule hr)
    rw [inOrder] at h
    rcases hrule : eval rule s with _ | ⟨_ | _ | _, s₁⟩
    all_goals simp only [hrule] at h
    · cases h
    · obtain ⟨fs, h₁⟩ := heval rule List.mem_cons_self hrule
      obtain ⟨fs', h'⟩ := ih hrest (by decide) h
      exact ⟨_, h₁.trans (by decide) h'⟩
    · cases h
      exact heval rule List.mem_cons_self hrule
    · obtain ⟨fs, h₁⟩ := heval rule List.mem_cons_self hrule
      obtain ⟨fs', h'⟩ := ih hrest houtcome h
      exact ⟨_, h₁.trans (by decide) h'⟩

theorem firstOf_recorded {eval : Rule N U → Step input U} {start : Position}
    {rules : List (Rule N U)} (heval : ∀ r ∈ rules, Accountable (eval r)) {s : State input U}
    {reply : Reply input U} (h : firstOf eval start rules s = some reply) :
    ∃ fs, s.Recorded fs reply.2 := by
  induction rules generalizing s with
  | nil =>
    cases h
    exact ⟨[], (State.Quiet.refl s).recorded⟩
  | cons rule rest ih =>
    rw [firstOf] at h
    rcases hrule : eval rule s with _ | ⟨outcome, s₁⟩
    · rw [hrule] at h
      cases h
    obtain ⟨fs, h₁⟩ := heval rule List.mem_cons_self hrule
    have hrestored := h₁.toRecorded.trans_quiet (s₁.restore_quiet start)
    have hrest := fun r hr ↦ heval r (List.mem_cons_of_mem rule hr)
    cases outcome with
    | ok =>
      rw [hrule] at h
      cases h
      exact ⟨fs, h₁.toRecorded⟩
    | fail =>
      rw [hrule] at h
      obtain ⟨fs', h'⟩ := ih hrest h
      exact ⟨_, hrestored.trans h'⟩
    | noMatch =>
      rw [hrule] at h
      obtain ⟨fs', h'⟩ := ih hrest h
      exact ⟨_, hrestored.trans h'⟩

theorem rejoin_furthest (outer : Option Failure) (s : State input U) :
    (rejoin outer s).furthest = State.further outer s.furthest := by
  unfold rejoin
  dsimp only
  split
  · next h =>
    rw [h]
    rfl
  · next h => rw [h]; rfl

/-- After the attempts of a choice, and after their record has been merged with the one from
before, everything is as if the attempts had been made without a record of their own. -/
theorem rejoin_recorded {ended : State input U}
    (h : State.Recorded { s.silenceErrors with furthest := none } fs ended) :
    s.Recorded fs (rejoin s.furthest ended.unsilenceErrors) ∧
      (rejoin s.furthest ended.unsilenceErrors).error = s.error := by
  have hfurthest := rejoin_furthest s.furthest ended.unsilenceErrors
  have hrejoin {α : Type} (field : State input U → α)
      (hfield : ∀ (s : State input U) furthest, field { s with furthest } = field s) :
      field (rejoin s.furthest ended.unsilenceErrors) = field ended.unsilenceErrors := by
    unfold rejoin
    dsimp only
    split
    · exact (hfield { ended.unsilenceErrors with furthest := s.furthest } _).trans (hfield _ _)
    · exact hfield _ _
  have herror : (rejoin s.furthest ended.unsilenceErrors).error = s.error :=
    (hrejoin State.error fun _ _ ↦ rfl).trans (h.error_silenced (Nat.succ_ne_zero _))
  refine ⟨{
    errorsSilenced_eq := ?_
    location_eq := (hrejoin State.location fun _ _ ↦ rfl).trans h.location_eq
    synced_eq := (hrejoin State.synced fun _ _ ↦ rfl).trans h.synced_eq
    logged_eq := (hrejoin State.logged fun _ _ ↦ rfl).trans h.logged_eq
    furthest_eq := ?_
    error_mem := .inl herror
    error_silenced := fun _ ↦ herror
    isSome_error := fun hs ↦ herror ▸ hs }, herror⟩
  · rw [hrejoin State.errorsSilenced fun _ _ ↦ rfl]
    show ended.errorsSilenced - 1 = _
    rw [h.errorsSilenced_eq]
    exact Nat.add_sub_cancel s.errorsSilenced 1
  · rw [hfurthest]
    show State.further s.furthest ended.furthest = _
    rw [h.furthest_eq, State.further_foldl]
    rfl

/-- However a choice ends, it is accounted for: a failure that it commits is one that its attempts
have recorded, and where there is none it records one of its own. -/
theorem choice_accountable {eval : Rule N U → Step input U} {rules : List (Rule N U)}
    (heval : ∀ r ∈ rules, Accountable (eval r)) (name : Option String) :
    AccountableFrom (choice eval name rules) := by
  intro start s reply h
  rw [choice_eq_conclude] at h
  obtain ⟨⟨outcome, ended⟩, hattempts, rfl⟩ := Option.map_eq_some_iff.1 h
  obtain ⟨fs, hrecorded⟩ := firstOf_recorded heval hattempts
  obtain ⟨hrejoin, herror⟩ := rejoin_recorded hrecorded
  rcases firstOf_outcome hattempts with rfl | rfl
  · exact ⟨fs, .of_recorded hrejoin herror (by decide)⟩
  · have hown : Accounts s (fs ++ [⟨start.offset, input[start.offset]?, .noAlternative name⟩])
        ((rejoin s.furthest ended.unsilenceErrors).failAt start.offset (.noAlternative name)) :=
      Accounts.trans (.of_recorded hrejoin herror (by decide : Outcome.noMatch ≠ .fail))
        (by decide) (.failAt _ _ _)
    simp only [conclude, reduceCtorEq, if_false]
    split
    · next inner hinner =>
      split
      · rw [hrecorded.furthest_eq] at hinner
        rcases State.foldl_later_cases fs none with hnone | ⟨f, hf, hsome⟩
        · rw [hnone] at hinner
          cases hinner
        · obtain rfl : f = inner := Option.some.inj (hsome.symm.trans hinner)
          refine ⟨fs, hrejoin.commitUnlessSilenced hf, fun hne ↦ absurd rfl hne, fun _ ↦
            ⟨List.ne_nil_of_mem hf, fun hs ↦ ?_⟩⟩
          exact State.isSome_commitUnlessSilenced _ _ (hrejoin.errorsSilenced_eq.trans hs)
      · exact ⟨_, hown⟩
    · exact ⟨_, hown⟩

/-! ## Kinds -/

theorem given_accounts (s : State input U) (condition : Bool) (reason : Reason) :
    ∃ fs, Accounts s fs (given condition reason s) := by
  unfold given
  split
  · exact ⟨[], .of_quiet (.refl s) (by decide)⟩
  · exact ⟨_, .fail s reason⟩

theorem oneByte_accounts (s : State input U) (accepts : UInt8 → Bool) (reason : Reason) :
    ∃ fs, Accounts s fs (oneByte accepts reason s) := by
  unfold oneByte
  split
  · split
    · exact ⟨[], .of_quiet ((s.advance_quiet 1).trans (State.push_quiet _ _)) (by decide)⟩
    · exact ⟨_, .fail s reason⟩
  · exact ⟨_, .fail s reason⟩

theorem literal_accounts (s : State input U) (bytes : List UInt8) (start : Position) :
    ∃ fs, Accounts s fs (literal bytes start s) := by
  unfold literal
  split
  · exact ⟨[], .of_quiet ((s.advance_quiet _).trans (State.push_quiet _ _)) (by decide)⟩
  · exact ⟨_, .fail s _⟩

theorem bounded_accountable {inside : Step input U} (hinside : Accountable inside)
    (opener closer : UInt8) : Accountable (bounded opener closer inside) := by
  intro s reply h
  -- what is done behind the inside, unless it failed
  have hclosing (s₁ : State input U) : ∃ fs, Accounts s₁ fs
      (if s₁.peek = some closer then (.ok, s₁.advance 1)
        else s₁.fail (.expectedCloser closer)) := by
    split
    · exact ⟨[], .of_quiet (s₁.advance_quiet 1) (by decide)⟩
    · exact ⟨_, .fail s₁ _⟩
  simp only [bounded, ← apply_ite some] at h
  split at h
  · rcases hin : inside (s.advance 1) with _ | ⟨outcome, s₁⟩
    · simp only [hin] at h
      cases h
    obtain ⟨fs, h₁⟩ := hinside hin
    have hopened := h₁.after (s.advance_quiet 1).recorded
    obtain ⟨fs', h'⟩ := hclosing s₁
    cases outcome with
    | ok =>
      simp only [hin] at h
      cases h
      exact ⟨_, hopened.trans (by decide) h'⟩
    | fail =>
      simp only [hin] at h
      cases h
      exact ⟨_, hopened⟩
    | noMatch =>
      simp only [hin] at h
      cases h
      exact ⟨_, hopened.trans (by decide) h'⟩
  · cases h
    exact ⟨_, .fail s _⟩

/-- Accountable inner rules and an honest action make an accountable rule, if the symbols that the
action asks for are accountable. -/
theorem kind_accountable {g : Grammar N U} {eval : Rule N U → Step input U}
    {k : Kind N U (Rule N U)} (hinner : ∀ r ∈ k.inner g, Accountable (eval r))
    (hruns : ∀ action : Action N U, k.Runs @action →
      AccountableFrom fun start s ↦ (action s start).run fun n ↦ eval (g n))
    (name : Option String) : AccountableFrom (kind g eval name k) := by
  intro start s reply h
  cases k with
  | nothing =>
    cases h
    exact ⟨[], .of_quiet (.refl s) (by decide)⟩
  | atStart =>
    cases h
    exact given_accounts s _ _
  | atEnd =>
    cases h
    exact given_accounts s _ _
  | emptyInput =>
    cases h
    exact given_accounts s _ _
  | byte b =>
    cases h
    exact oneByte_accounts s _ _
  | range low high =>
    cases h
    exact oneByte_accounts s _ _
  | literal bytes =>
    cases h
    exact literal_accounts s bytes start
  | bounded opener closer inner =>
    exact bounded_accountable (hinner inner List.mem_cons_self) opener closer h
  | anyOf rules => exact choice_accountable hinner name start h
  | allOf rules => exact inOrder_accountable hinner (by decide) h
  | reference rule => exact hinner rule List.mem_cons_self h
  | symbol n => exact hinner (g n) List.mem_cons_self h
  | leaf action => exact hruns action rfl start h
  | closing inner action =>
    rcases hin : eval inner s with _ | ⟨outcome, s₁⟩
    · simp only [kind, hin] at h
      cases h
    obtain ⟨fs, h₁⟩ := hinner inner List.mem_cons_self hin
    cases outcome with
    | ok =>
      simp only [kind, hin] at h
      split at h
      · obtain ⟨fs', h'⟩ := hruns action rfl start h
        exact ⟨_, h₁.trans (by decide) h'⟩
      · cases h
        exact ⟨fs, h₁⟩
    | fail =>
      simp only [kind, hin] at h
      cases h
      exact ⟨fs, h₁⟩
    | noMatch =>
      simp only [kind, hin] at h
      cases h
      exact ⟨fs, h₁⟩

/-! ## Repetition and modifiers -/

theorem again_recorded {body : Position → Step input U} (hbody : AccountableFrom body)
    {rounds : Nat} {s s' : State input U} (h : again body rounds s = some s') :
    ∃ fs, s.Recorded fs s' := by
  induction rounds generalizing s with
  | zero =>
    cases h
    exact ⟨[], (State.Quiet.refl _).recorded⟩
  | succ rounds ih =>
    rw [again] at h
    rcases hround : body s.position s with _ | ⟨outcome, s₁⟩
    · rw [hround] at h
      cases h
    obtain ⟨fs, h₁⟩ := hbody s.position hround
    have hrestored := h₁.toRecorded.trans_quiet (s₁.restore_quiet s.position)
    rw [hround] at h
    cases outcome with
    | ok =>
      dsimp only at h
      split at h
      · obtain ⟨fs', h'⟩ := ih h
        exact ⟨_, h₁.toRecorded.trans h'⟩
      · cases h
        exact ⟨fs, h₁.toRecorded⟩
    | fail =>
      cases h
      exact ⟨fs, hrestored⟩
    | noMatch =>
      cases h
      exact ⟨fs, hrestored⟩

theorem repeated_accountable {body : Position → Step input U} (hbody : AccountableFrom body) :
    AccountableFrom (repeated body) := by
  intro start s reply h
  simp only [repeated] at h
  rcases hfirst : body start s with _ | ⟨outcome, s₁⟩
  · rw [hfirst] at h
    cases h
  obtain ⟨fs, h₁⟩ := hbody start hfirst
  rw [hfirst] at h
  cases outcome with
  | ok =>
    dsimp only at h
    split at h
    · cases h
    · next s₂ hagain =>
      cases h
      obtain ⟨fs', h'⟩ := again_recorded hbody hagain
      obtain ⟨hrecorded, herror⟩ := h'.silently
      exact ⟨_, h₁.trans (by decide) (.of_recorded hrecorded herror (by decide))⟩
  | fail =>
    cases h
    exact ⟨fs, h₁⟩
  | noMatch =>
    cases h
    exact ⟨fs, h₁⟩

theorem optional_accountable {body : Position → Step input U} (hbody : AccountableFrom body) :
    AccountableFrom (optional body) := by
  intro start s reply h
  simp only [optional] at h
  rcases hquiet : body start s.silenceErrors with _ | ⟨outcome, s₁⟩
  · rw [hquiet] at h
    cases h
  obtain ⟨fs, h₁⟩ := hbody start hquiet
  obtain ⟨hrecorded, herror⟩ := h₁.silently
  rw [hquiet] at h
  cases outcome with
  | ok =>
    cases h
    exact ⟨fs, .of_recorded hrecorded herror (by decide)⟩
  | fail =>
    cases h
    exact ⟨fs, .of_recorded (hrecorded.trans_quiet (State.restore_quiet _ start)) herror
      (by decide)⟩
  | noMatch =>
    cases h
    exact ⟨fs, .of_recorded hrecorded herror (by decide)⟩

theorem lookahead_accountable {body : Position → Step input U} (hbody : AccountableFrom body) :
    AccountableFrom (lookahead body) := by
  intro start s reply h
  simp only [lookahead] at h
  rcases hquiet : body start s.silenceResults with _ | ⟨outcome, s₁⟩
  · rw [hquiet] at h
    cases h
  · rw [hquiet] at h
    cases h
    obtain ⟨fs, h₁⟩ := hbody start hquiet
    exact ⟨fs, (h₁.after s.silenceResults_quiet.recorded).before s₁.unsilenceResults_quiet.recorded⟩

theorem flat_accountable {body : Position → Step input U} (hbody : AccountableFrom body) :
    AccountableFrom (flat body) := by
  intro start s reply h
  simp only [flat] at h
  rcases hlookahead : lookahead body start s with _ | ⟨outcome, s₁⟩
  · rw [hlookahead] at h
    cases h
  obtain ⟨fs, h₁⟩ := lookahead_accountable hbody start hlookahead
  rw [hlookahead] at h
  cases outcome with
  | ok =>
    cases h
    exact ⟨fs, h₁.before (s₁.push_quiet _).recorded⟩
  | fail =>
    cases h
    exact ⟨fs, h₁⟩
  | noMatch =>
    cases h
    exact ⟨fs, h₁⟩

theorem wrapIf_accountable {wrapper : (Position → Step input U) → Position → Step input U}
    (hwrapper : ∀ {body}, AccountableFrom body → AccountableFrom (wrapper body)) (wanted : Bool)
    {body : Position → Step input U} (hbody : AccountableFrom body) :
    AccountableFrom (wrapIf wanted wrapper body) := by
  cases wanted with
  | false => exact hbody
  | true => exact hwrapper hbody

theorem modified_accountable (m : Modifiers) {body : Position → Step input U}
    (hbody : AccountableFrom body) : AccountableFrom (modified m body) :=
  wrapIf_accountable optional_accountable _ <|
  wrapIf_accountable lookahead_accountable _ <|
  wrapIf_accountable flat_accountable _ <|
  wrapIf_accountable optional_accountable _ <|
  wrapIf_accountable repeated_accountable _ hbody

end Evaluate

/-! ## Whole rules -/

namespace Rule

variable {s : State input U} {fs : List Failure}

theorem settle_accounts {reply : Reply input U} (h : Accounts s fs reply) (start : Position) :
    Accounts s fs (settle start reply) := by
  obtain ⟨outcome, s₁⟩ := reply
  cases outcome with
  | ok => exact h
  | fail => exact h.before (s₁.restore_quiet start).recorded
  | noMatch => exact h.before (s₁.restore_quiet start).recorded

/-- One level of evaluation. -/
theorem step_accountable {g : Grammar N U} {eval : Rule N U → Step input U} {r : Rule N U}
    (hinner : ∀ rule ∈ r.kind.inner g, Accountable (eval rule))
    (hruns : ∀ action : Action N U, r.kind.Runs @action →
      AccountableFrom fun start s ↦ (action s start).run fun n ↦ eval (g n)) :
    Accountable (r.step g eval) := by
  intro s reply h
  simp only [step] at h
  split at h
  · cases h
  · next reply₁ hbody =>
    cases h
    have hentered := s.noted_recorded (fun _ ↦ .enter (r.label g) s.position.offset) rfl
    obtain ⟨fs, h₁⟩ := Evaluate.modified_accountable r.modifiers
      (Evaluate.kind_accountable hinner hruns r.name) s.position hbody
    exact ⟨fs, ((settle_accounts h₁ s.position).after hentered).before
      (State.noted_recorded _ _ rfl)⟩

/-- **Evaluation is accountable** if all actions involved are honest, by induction on the
budget. -/
theorem evaluate_accountable {g : Grammar N U} (budget : Nat) {r : Rule N U}
    (hr : ∀ action : Action N U, r.Involves g @action → HonestAction @action) :
    Accountable (r.evaluate g budget : Step input U) := by
  induction budget generalizing r with
  | zero =>
    intro s reply h
    cases h
  | succ budget ih =>
    refine step_accountable
      (fun rule hrule ↦ ih fun action hinvolves ↦ hr @action (.within hrule hinvolves))
      fun action hruns start s reply h ↦ ?_
    obtain ⟨fs, hrecorded, hother, hfail⟩ := (hr @action (.here hruns) s start).run
      (fun n hasks ↦ ih fun action' hinvolves ↦ hr @action' (.asked hruns hasks hinvolves)) h
    exact ⟨fs, hrecorded, fun hne ↦ (hother hne).2, fun heq ↦ (hfail heq).resolve_left id⟩

end Rule
end DocGrammar
