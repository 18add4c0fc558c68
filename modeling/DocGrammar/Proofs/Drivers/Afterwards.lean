import DocGrammar.Proofs.Backtracking
import DocGrammar.Proofs.Drivers.Locations

/-!
# What a driver leaves behind

An action may do to a state whatever the calls allow: move the cursor anywhere, add results, and
drop results that are not its own.  A driver that answers with an error leaves nothing of this
behind.  For then the rule has failed, and a rule that did not succeed has gone back to where it
started, whatever has happened in between; nothing has to be known about the inside
(`Rule.evaluate_returns`).

A driver that succeeds answers with the difference of two cursors, and here the inside matters.  If
no action takes the cursor back before the position it is given, no rule takes it back at all, since
that lasts through whatever else the engine does (`Rule.evaluate_onward`).

Lines are counted up to the cursor at the end of a driver that succeeds and nowhere else.  So as
long as no action runs such a driver itself, the one that runs the actions counts from where it
began.
-/

set_option autoImplicit false

namespace DocGrammar

variable {N U : Type} {input : Array UInt8}

/-! ## Going on -/

/-- The cursor has not gone back. -/
def State.Onward (s s' : State input U) : Prop := s.cursor ≤ s'.cursor

theorem State.Onward.of_cursor_eq {s s' : State input U} (h : s'.cursor = s.cursor) :
    s.Onward s' :=
  Nat.le_of_eq h.symm

theorem State.Onward.lasting :
    Lasting (State.Onward : State input U → State input U → Prop) where
  refl s := Nat.le_refl s.cursor
  trans := Nat.le_trans
  noted s event := .of_cursor_eq (s.noted_cursor event)
  failAt s offset reason := .of_cursor_eq (s.failAt_cursor offset reason)
  commit s f := .of_cursor_eq (s.commitUnlessSilenced_cursor f)
  advance s n := Nat.le_min.2 ⟨Nat.le_add_right _ n, s.cursor_le⟩
  push s value := by
    rw [State.push]
    split
    · exact Nat.le_refl s.cursor
    · exact Nat.le_refl s.cursor
  back {s _} _ := Nat.le_min.2 ⟨Nat.le_refl _, s.cursor_le⟩
  silently h := h
  unheard h := h
  rejoin {s ended} h := by
    rw [Evaluate.rejoin]
    split
    · exact h
    · exact h

/-- The program has the cursor no further back than at an offset, whenever it asks for a symbol and
at the end.  It may rely on no symbol taking the cursor back. -/
inductive Program.Onward (offset : Nat) : Program N input U → Prop
  | done {reply : Reply input U} (h : offset ≤ reply.2.cursor) : Onward offset (.done reply)
  | call {symbol : N} {s : State input U} {next : Reply input U → Program N input U}
      (h : offset ≤ s.cursor)
      (hnext : ∀ reply : Reply input U, s.Onward reply.2 → Onward offset (next reply)) :
      Onward offset (.call symbol s next)

/-- An action that does not take the cursor back before the position it is given. -/
def OnwardAction (action : Action N U) : Prop :=
  ∀ ⦃input : Array UInt8⦄ (s : State input U) (start : Position), start.offset ≤ s.cursor →
    (action s start).Onward start.offset

theorem Program.Onward.run {match? : N → Step input U} {offset : Nat} {p : Program N input U}
    (h : p.Onward offset) (hsymbols : ∀ n, p.Asks n → Leads State.Onward (match? n))
    {reply : Reply input U} (hreply : p.run match? = some reply) : offset ≤ reply.2.cursor := by
  induction h with
  | done h =>
    cases hreply
    exact h
  | @call symbol s next _ _ ih =>
    rw [Program.run] at hreply
    rcases hmatch : match? symbol s with _ | reply₁
    · rw [hmatch] at hreply
      cases hreply
    · rw [hmatch] at hreply
      have hforth : s.Onward reply₁.2 := hsymbols symbol .now s reply₁ hmatch
      exact ih reply₁ hforth (fun n hasks ↦ hsymbols n (.later reply₁ hasks)) hreply

/-- **No rule takes the cursor back** if no action involved takes it back before the position it is
given, by induction on the budget. -/
theorem Rule.evaluate_onward {g : Grammar N U} (budget : Nat) {r : Rule N U}
    (hr : ∀ action : Action N U, r.Involves g @action → OnwardAction @action) :
    Leads State.Onward (r.evaluate g budget : Step input U) := by
  induction budget generalizing r with
  | zero => exact fun _ _ h ↦ nomatch h
  | succ budget ih =>
    refine step_lasts State.Onward.lasting
      (fun rule hrule ↦ ih fun action hinvolves ↦ hr @action (.within hrule hinvolves))
      fun action hruns s s₁ reply hs₁ hreply ↦ ?_
    -- what the action asks for is matched with less of a budget
    exact (hr @action (.here hruns) s₁ s.position hs₁).run
      (fun n hasks ↦ ih fun action' hinvolves ↦ hr @action' (.asked hruns hasks hinvolves)) hreply

/-! ## Drivers -/

namespace State

variable {g : Grammar N U} {budget : Nat} {r : Rule N U} {s t : State input U}
  {answer : Except ParseError Nat}

/-- What the drivers for a rule run: the rule, or that and the ends of the input. -/
def bodies (g : Grammar N U) (budget : Nat) (r : Rule N U) : List (Step input U) :=
  [r.evaluate g budget, fun s ↦ (whole g budget r s).map (Rule.settle s.position)]

/-- An answer to a piece of evaluation.  This has started where the driver has, without results, and
the driver has changed neither the cursor nor the results behind it. -/
inductive Ran (body : Step input U) (s : State input U) : Answer input U → Prop
  | failed {s₀ s₁ t : State input U} {e : ParseError} (hbody : body s₀ = some (.fail, s₁))
      (hcursor : s₀.cursor = s.cursor) (hresults : s₀.results = [])
      (ht : t.position = s₁.position) : Ran body s (.error e, t)
  | passed {s₀ s₁ t : State input U} {outcome : Outcome} {n : Nat}
      (hbody : body s₀ = some (outcome, s₁)) (hcursor : s₀.cursor = s.cursor)
      (ht : t.cursor = s₁.cursor) (hn : n = t.cursor - s.cursor) : Ran body s (.ok n, t)

theorem drive_ran {body : Step input U} {a : Answer input U} (h : drive body s = some a) :
    Ran body s a := by
  obtain ⟨⟨outcome, s₁⟩, hbody, rfl⟩ := Option.map_eq_some_iff.1 h
  cases outcome with
  | ok => exact .passed hbody rfl rfl rfl
  | noMatch => exact .passed hbody rfl rfl rfl
  | fail => exact .failed hbody rfl rfl (s₁.noted_same _).position_eq

theorem quietly_ran {body : Step input U} {a : Answer input U}
    (h : quietly (drive body) s = some a) : Ran body s a := by
  obtain ⟨a', hdrive, rfl⟩ := Option.map_eq_some_iff.1 h
  cases drive_ran hdrive with
  | failed hbody hcursor hresults ht => exact .failed hbody hcursor hresults ht
  | passed hbody hcursor ht hn => exact .passed hbody hcursor ht hn

theorem drivers_ran {driver : State input U → Option (Answer input U)}
    (hdriver : driver ∈ drivers g budget r) {a : Answer input U} (h : driver s = some a) :
    ∃ body ∈ bodies g budget r, Ran body s a := by
  simp only [drivers, List.mem_cons, List.not_mem_nil, or_false] at hdriver
  rcases hdriver with rfl | rfl | rfl
  · exact ⟨_, List.mem_cons_self, drive_ran h⟩
  · exact ⟨_, List.mem_cons_self, quietly_ran h⟩
  · exact ⟨_, List.mem_cons_of_mem _ List.mem_cons_self, quietly_ran h⟩

theorem bodies_return {body : Step input U} (hbody : body ∈ bodies g budget r)
    {reply : Reply input U} (h : body s = some reply) : Rule.Returned s reply := by
  simp only [bodies, List.mem_cons, List.not_mem_nil, or_false] at hbody
  rcases hbody with rfl | rfl
  · exact Rule.evaluate_returns h
  · obtain ⟨left, -, rfl⟩ := Option.map_eq_some_iff.1 h
    exact Rule.settle_returns s left

theorem whole_onward (hr : Leads Onward (r.evaluate g budget : Step input U)) :
    Leads Onward (whole g budget r : Step input U) := by
  intro s reply h
  rcases whole_inv h with ⟨-, rfl⟩ | ⟨-, outcome, s₁, hmatched, ⟨rfl, rfl⟩ | ⟨-, rfl⟩⟩
  · exact Onward.lasting.fail s _
  · exact hr s _ hmatched
  · have honward : s.Onward s₁ := hr s _ hmatched
    split
    · exact honward
    · exact Onward.lasting.trans honward (Onward.lasting.fail s₁ _)

theorem bodies_onward
    (hr : ∀ action : Action N U, r.Involves g @action → OnwardAction @action)
    {body : Step input U} (hbody : body ∈ bodies g budget r) : Leads Onward body := by
  have heval : Leads Onward (r.evaluate g budget : Step input U) := Rule.evaluate_onward budget hr
  simp only [bodies, List.mem_cons, List.not_mem_nil, or_false] at hbody
  rcases hbody with rfl | rfl
  · exact heval
  · intro s reply h
    obtain ⟨left, hwhole, rfl⟩ := Option.map_eq_some_iff.1 h
    exact Rule.settle_lasts Onward.lasting.guarded (whole_onward heval s left hwhole)

variable {driver : State input U → Option (Answer input U)}

/-- A driver that answers with an error has gone back to where it started, where there were no
results. -/
theorem drivers_go_back (hdriver : driver ∈ drivers g budget r) {e : ParseError}
    (h : driver s = some (.error e, t)) : t.cursor = s.cursor ∧ t.results = [] := by
  obtain ⟨body, hbodies, hran⟩ := drivers_ran hdriver h
  cases hran with
  | @failed s₀ s₁ _ _ hbody hcursor hresults ht =>
    have hreturned := bodies_return hbodies hbody
    have hback : s₁.cursor = s₀.cursor := hreturned.cursor_eq Outcome.noConfusion
    have hnone : s₁.results.length ≤ 0 := by
      simpa only [hresults, List.length_nil] using hreturned.length_results_le Outcome.noConfusion
    have hlength : t.results.length = s₁.results.length := congrArg Position.results ht
    refine ⟨(congrArg Position.offset ht).trans (hback.trans hcursor), ?_⟩
    exact List.length_eq_zero_iff.1 (hlength.trans (Nat.le_zero.1 hnone))

/-- A driver that succeeds has consumed as many bytes as it says, if no action takes the cursor
back. -/
theorem drivers_count (hr : ∀ action : Action N U, r.Involves g @action → OnwardAction @action)
    (hdriver : driver ∈ drivers g budget r) {n : Nat} (h : driver s = some (.ok n, t)) :
    t.cursor = s.cursor + n := by
  obtain ⟨body, hbodies, hran⟩ := drivers_ran hdriver h
  cases hran with
  | @passed s₀ s₁ _ outcome _ hbody hcursor ht hn =>
    have honward : s₀.cursor ≤ s₁.cursor := bodies_onward hr hbodies s₀ _ hbody
    rw [hcursor, ← ht] at honward
    rw [hn, Nat.add_sub_cancel' honward]

/-! ## Lines -/

/-- Notes that are never taken.  So nothing may be begun anew, and no driver run that succeeds. -/
def noNotes : U → Option Nat → Prop := fun _ _ ↦ False

/-- In both states lines are counted from the same place. -/
structure CountsAs (s t : State input U) : Prop where
  location_eq : t.location = s.location
  synced_eq : t.synced = s.synced

theorem CountsAs.locate_eq (h : s.CountsAs t) (offset : Nat) :
    t.locate offset = s.locate offset := by
  simp only [locate, h.location_eq, h.synced_eq]

/-- Without a driver that succeeds, lines are counted from where they were. -/
theorem countsAs_kept (s : State input U) : Kept noNotes s.CountsAs where
  ofPlace _ _ hs h := ⟨h.location_eq.trans hs.location_eq, h.synced_eq.trans hs.synced_eq⟩
  withUser _ hs _ := ⟨hs.location_eq, hs.synced_eq⟩
  start h := h.elim
  sync _ _ h := h.elim

/-- The location is brought up to the cursor by a driver that succeeds, and is left alone by one
that fails. -/
theorem drivers_locate (hr : @Rule.Open U input noNotes N g r)
    (hdriver : driver ∈ drivers g budget r) (h : driver s = some (answer, t)) :
    (∀ e, answer = .error e → t.location = s.location) ∧
      ∀ n, answer = .ok n → t.location = s.locate t.cursor := by
  have hends := drivers_end (countsAs_kept s).ofPlace (hr.respects (countsAs_kept s)) hdriver
    ⟨rfl, rfl⟩ h
  cases hends with
  | failed ht => exact ⟨fun _ _ ↦ ht.location_eq, nofun⟩
  | @passed _ s₁ _ hs₁ hsync hcursor =>
    refine ⟨nofun, fun _ _ ↦ ?_⟩
    rw [hsync.location_eq, hcursor]
    exact hs₁.locate_eq s₁.cursor

/-- **A driver that fails leaves nothing behind**, and one that succeeds the right place.  Let the
actions involved do anything to the state but run drivers that succeed.  If a driver answers with an
error, the cursor is where it was, there are no results, and the location is what it was.  Otherwise
the location is that of the cursor; and if no action takes the cursor back before the position it is
given, it is behind as many bytes as the driver says. -/
theorem drivers_leave_nothing (g : Grammar N U) (budget : Nat) (r : Rule N U)
    (hr : @Rule.Open U input noNotes N g r) (s : State input U)
    (driver : State input U → Option (Answer input U)) (hdriver : driver ∈ drivers g budget r)
    (answer : Except ParseError Nat) (t : State input U) (h : driver s = some (answer, t)) :
    (∀ e, answer = .error e → t.cursor = s.cursor ∧ t.results = [] ∧ t.location = s.location) ∧
      ∀ n, answer = .ok n →
        t.location = s.locate t.cursor ∧
        (s.Located → t.location = .behind (input.toList.take t.cursor)) ∧
        ((∀ action : Action N U, r.Involves g @action → OnwardAction @action) →
          t.cursor = s.cursor + n) := by
  obtain ⟨hstays, hfollows⟩ := drivers_locate hr hdriver h
  refine ⟨?_, ?_⟩
  · rintro e rfl
    obtain ⟨hcursor, hresults⟩ := drivers_go_back hdriver h
    exact ⟨hcursor, hresults, hstays e rfl⟩
  · rintro n rfl
    refine ⟨hfollows n rfl, fun hs ↦ ?_, fun honward ↦ drivers_count honward hdriver h⟩
    rw [hfollows n rfl, hs.locate_eq, between_eq, Location.skip_eq_behind,
      Nat.min_eq_left t.cursor_le]
    rfl

/-! ### An action that leaps -/

/-- An action that goes to one end of the input, and drops all results. -/
def leap (ahead : Bool) : Action Empty Unit := fun {input} s _ ↦
  .done (.ok, s.restore ⟨if ahead then input.size else 0, 0⟩)

/-- A seven, from which one leaps to the end of the input. -/
def sevenLeap (ahead : Bool) : Rule Empty Unit := .allOf [.byte 0x37, .leaf (leap ahead), .atEnd]

/-- The second line of a text, with a result that an earlier parse has left. -/
def secondSeven : State #[0x38, 0x0A, 0x37, 0x0A] Unit where
  cursor := 2
  cursor_le := by decide
  results := [.null]
  location := ⟨2, 1⟩
  synced := 2
  user := ()

theorem sevenLeap_open {input : Array UInt8} (ahead : Bool) :
    @Rule.Open Unit input noNotes Empty Empty.elim (sevenLeap ahead) :=
  .of_every (fun n ↦ n.elim)
    ⟨trivial, fun s _ ↦ .done (.operation (.refl s) (.restore s _)), trivial, trivial⟩

theorem sevenLeap_onward (action : Action Empty Unit)
    (h : (sevenLeap true).Involves Empty.elim @action) : OnwardAction @action := by
  have hleap : OnwardAction (leap true) := by
    intro input s start hs
    exact .done (Nat.le_min.2 ⟨Nat.le_trans hs s.cursor_le, Nat.le_trans hs s.cursor_le⟩)
  have hseven : (sevenLeap true).Every OnwardAction := ⟨trivial, hleap, trivial, trivial⟩
  exact Rule.Every.of_involves (fun n ↦ n.elim) hseven h

/-- Whoever leaps back to the start does not get to the end, and is back in the second line. -/
theorem drivers_leave_nothing_leap :
    (∃ e t, secondSeven.parse Empty.elim 2 (sevenLeap false) = some (.error e, t) ∧
        t.cursor = 2 ∧ t.results = [] ∧ t.location = ⟨2, 1⟩) ∧
      ∃ t, secondSeven.test Empty.elim 2 (sevenLeap true) = some (.ok 2, t) ∧
        t.cursor = 4 ∧ t.location = ⟨3, 1⟩ := by
  have hback : (secondSeven.parse Empty.elim 2 (sevenLeap false)).map (fun answer ↦
      match answer.1 with
      | .ok n => some n
      | .error _ => none) = some none := by decide
  have hahead : (secondSeven.test Empty.elim 2 (sevenLeap true)).map (fun answer ↦
      match answer.1 with
      | .ok n => some n
      | .error _ => none) = some (some 2) := by decide
  refine ⟨?_, ?_⟩
  · obtain ⟨⟨e | n, t⟩, hparse, hn⟩ := Option.map_eq_some_iff.1 hback
    · obtain ⟨hfailed, -⟩ := drivers_leave_nothing Empty.elim 2 _ (sevenLeap_open false)
        secondSeven _ List.mem_cons_self _ t hparse
      exact ⟨e, t, hparse, hfailed e rfl⟩
    · cases hn
  · obtain ⟨⟨e | n, t⟩, htest, hn⟩ := Option.map_eq_some_iff.1 hahead
    · cases hn
    · cases hn
      obtain ⟨-, hpassed⟩ := drivers_leave_nothing Empty.elim 2 _ (sevenLeap_open true)
        secondSeven _ (List.mem_cons_of_mem _ List.mem_cons_self) _ t htest
      obtain ⟨hlocation, -, hcursor⟩ := hpassed 2 rfl
      have hcursor : t.cursor = 4 := hcursor sevenLeap_onward
      refine ⟨t, htest, hcursor, ?_⟩
      rw [hlocation, hcursor]
      decide

end State
end DocGrammar
