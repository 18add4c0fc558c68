import DocGrammar.Proofs.Diagnostics.Committed
import DocGrammar.Proofs.Drivers.Together
import Mathlib.Data.List.Induction

/-!
# A failed parse is reported at the furthest failure

The record of the furthest failure is set aside, started afresh and merged back at every choice, and
failures are committed at other times than they are recorded.  What comes out in the end is simple:
of all failures of a parse the report is about one with the greatest offset, namely the committed
one if it is as far as that, and otherwise the last one recorded there.

All the failures of a parse are what a traced parse writes down.  A parse that is not traced comes
to the same, which is one more case of two runs side by side: `State.Retraced` relates states that
differ only in what has been traced.
-/

set_option autoImplicit false

namespace DocGrammar

variable {N U : Type} {input : Array UInt8}

namespace State

/-! ## The last of the furthest -/

theorem isSome_foldl_later (fs : List Failure) (earlier : Option Failure)
    (h : fs ≠ [] ∨ earlier.isSome) : (fs.foldl later earlier).isSome := by
  induction fs generalizing earlier with
  | nil => exact h.resolve_left fun hne ↦ hne rfl
  | cons f fs ih =>
    rw [List.foldl_cons]
    exact ih _ (.inr (isSome_later earlier f))

/-- What folding failures into an empty record leaves there: no failure lies further on, and no
later one is as far. -/
theorem foldl_later_eq_some {fs : List Failure} {f : Failure} (h : fs.foldl later none = some f) :
    f ∈ fs ∧ (∀ e ∈ fs, e.offset ≤ f.offset) ∧
      (fs.filter (·.offset = f.offset)).getLast? = some f := by
  induction fs using List.reverseRecOn generalizing f with
  | nil => cases h
  | append_singleton fs last ih =>
    rw [List.foldl_append, List.foldl_cons, List.foldl_nil] at h
    rcases hbefore : fs.foldl later none with _ | e
    · rw [hbefore] at h
      cases h
      obtain rfl : fs = [] := Classical.not_not.1 fun hne ↦ by
        have hsome := isSome_foldl_later fs none (.inl hne)
        rw [hbefore] at hsome
        cases hsome
      simp
    · obtain ⟨he, hle, hlast⟩ := ih hbefore
      rw [hbefore] at h
      simp only [later] at h
      split at h
      · next hfar =>
        cases h
        refine ⟨by simp, fun e' he' ↦ ?_, by simp⟩
        rcases List.mem_append.1 he' with he' | he'
        · exact Nat.le_trans (hle e' he') hfar
        · exact (List.mem_singleton.1 he') ▸ Nat.le_refl _
      · next hfar =>
        cases h
        refine ⟨by simp [he], fun e' he' ↦ ?_, ?_⟩
        · rcases List.mem_append.1 he' with he' | he'
          · exact hle e' he'
          · rw [List.mem_singleton.1 he']
            omega
        · have hdropped : [last].filter (·.offset = f.offset) = [] := by
            simp
            omega
          rw [List.filter_append, hdropped, List.append_nil, hlast]

/-! ## Lines and columns -/

/-- Lines are counted from a place in the input, and that place is where it should be. -/
structure Located (s : State input U) : Prop where
  /-- The place lies within the input. -/
  synced_le : s.synced ≤ input.size
  /-- The location is that of the bytes before the place. -/
  location_eq : s.location = ({} : Location).skip (between input 0 s.synced)

theorem between_append {low middle high : Nat} (hlow : low ≤ middle) (hhigh : middle ≤ high) :
    between input low middle ++ between input middle high = between input low high := by
  rw [between_eq, between_eq, between_eq]
  have hdrop : input.toList.drop middle = (input.toList.drop low).drop (middle - low) := by
    rw [List.drop_drop, Nat.add_sub_cancel' hlow]
  have hlength : high - low = (middle - low) + (high - middle) := by omega
  rw [hdrop, hlength, List.take_add]

theorem start_located (input : Array UInt8) (user : U) : (start input user).Located :=
  ⟨Nat.zero_le _, by rw [between_eq]; rfl⟩

/-- Wherever the counting starts from, the location of an offset is that of all bytes before it. -/
theorem Located.locate_eq {s : State input U} (hs : s.Located) (offset : Nat) :
    s.locate offset = ({} : Location).skip (between input 0 (min offset input.size)) := by
  unfold locate
  dsimp only
  split
  · next hle =>
    have hstop : s.synced ≤ min offset input.size := Nat.le_min.2 ⟨hle, hs.synced_le⟩
    rw [hs.location_eq, ← between_append (Nat.zero_le _) hstop, Location.skip, Location.skip,
      Location.skip, List.foldl_append]
  · rfl

/-- Drivers keep the place where lines are counted from where it should be. -/
theorem drivers_located {g : Grammar N U} {budget : Nat} {r : Rule N U}
    (hr : ∀ action : Action N U, r.Involves g @action → HonestAction @action)
    {driver : State input U → Option (Answer input U)} (hdriver : driver ∈ drivers g budget r)
    {s t : State input U} (hs : s.Located) {answer : Except ParseError Nat}
    (h : driver s = some (answer, t)) : t.Located := by
  obtain ⟨fs, outcome, s₁, haccounts, hleft⟩ := drivers_account hr hdriver h
  have hs₁ : s₁.Located :=
    ⟨haccounts.synced_eq ▸ hs.synced_le, by
      rw [haccounts.location_eq, haccounts.synced_eq]
      exact hs.location_eq⟩
  by_cases hfail : outcome = .fail
  · obtain ⟨-, hlocation, hsynced⟩ := hleft.failed hfail
    exact ⟨hsynced ▸ hs₁.synced_le, by rw [hlocation, hsynced, hs₁.location_eq]⟩
  · obtain ⟨-, hlocation, hsynced⟩ := hleft.passed hfail
    refine ⟨hsynced ▸ s₁.cursor_le, ?_⟩
    rw [hlocation, hsynced, hs₁.locate_eq, Nat.min_eq_left s₁.cursor_le]

/-! ## Tracing -/

/-- The two states differ in nothing but what has been traced. -/
def Retraced (s s' : State input U) : Prop := ∃ trace, s' = { s with trace }

theorem Retraced.refl (s : State input U) : s.Retraced s := ⟨s.trace, rfl⟩

theorem Retraced.symm {s s' : State input U} (h : s.Retraced s') : s'.Retraced s := by
  obtain ⟨trace, rfl⟩ := h
  exact ⟨s.trace, rfl⟩

theorem Retraced.trans {s s' s'' : State input U} (h : s.Retraced s') (h' : s'.Retraced s'') :
    s.Retraced s'' := by
  obtain ⟨_, rfl⟩ := h
  obtain ⟨trace, rfl⟩ := h'
  exact ⟨trace, rfl⟩

/-- Writing something down changes the trace only. -/
theorem Retraced.noted {s s' : State input U} (h : s.Retraced s') (event : Unit → Event) :
    s.Retraced (s'.noted event) := by
  obtain ⟨trace, rfl⟩ := h
  cases trace with
  | none => exact ⟨none, rfl⟩
  | some events => exact ⟨some (events.push (event ())), rfl⟩

theorem retraced_iff {s s' : State input U} :
    s.Retraced s' ↔ s.Relocated s' ∧ s'.location = s.location ∧ s'.synced = s.synced := by
  constructor
  · rintro ⟨trace, rfl⟩
    exact ⟨⟨_, _, trace, rfl⟩, rfl, rfl⟩
  · rintro ⟨⟨location, synced, trace, rfl⟩, rfl, rfl⟩
    exact ⟨trace, rfl⟩

/-- The engine does not look at what has been traced. -/
theorem Retraced.indifferent :
    Indifferent (Retraced : State input U → State input U → Prop) := by
  have hplaces : Untouched fun s s' : State input U ↦
      s'.location = s.location ∧ s'.synced = s.synced := by
    rintro s s' t t' ⟨hlocation, hsynced⟩ h h'
    exact ⟨h'.location_eq.trans (hlocation.trans h.location_eq.symm),
      h'.synced_eq.trans (hsynced.trans h.synced_eq.symm)⟩
  have heq : (Retraced : State input U → State input U → Prop) = _ :=
    funext fun s ↦ funext fun s' ↦ propext retraced_iff
  rw [heq]
  exact Relocated.indifferent.and hplaces

/-- So a run with another trace goes the same way. -/
theorem Retraced.lockstep :
    Lockstep (fun _ : Unit ↦ (Retraced : State input U → State input U → Prop))
      fun start start' ↦ start' = start :=
  Retraced.indifferent.concordant.toLockstep

/-- Neither do drivers. -/
theorem Retraced.driven : Driven (Retraced : State input U → State input U → Prop) where
  toIndifferent := Retraced.indifferent
  sync := by
    rintro s _ ⟨trace, rfl⟩
    exact ⟨trace, rfl⟩
  report_eq := by
    rintro s _ ⟨trace, rfl⟩
    rfl

end State

/-- An action that does not look at what has been traced. -/
def UntracingAction (action : Action N U) : Prop :=
  ∀ input : Array UInt8,
    RespectfulAction (State.Retraced : State input U → State input U → Prop) @action

namespace State

/-- The two answers are the same, and the states they come with differ in the trace only. -/
def SameAnswer (a a' : Answer input U) : Prop := a'.1 = a.1 ∧ a.2.Retraced a'.2

/-- Tracing a parse does not change its answer. -/
theorem drivers_retraced {g : Grammar N U} {budget : Nat} {r : Rule N U}
    (hr : ∀ action : Action N U, r.Involves g @action → UntracingAction @action)
    {driver : State input U → Option (Answer input U)} (hdriver : driver ∈ drivers g budget r)
    {s s' : State input U} (h : s.Retraced s') :
    Option.Rel SameAnswer (driver s) (driver s') := by
  have hcleared : Cleared Retraced s s' := by
    obtain ⟨trace, rfl⟩ := h
    exact ⟨rfl, trace, rfl⟩
  have hanswers := drivers_agree Retraced.driven
    (fun action hinvolves ↦ hr @action hinvolves input) hdriver hcleared
  exact rel_imp hanswers fun _ _ h ↦ ⟨h.result_eq, h.related⟩

/-! ## The report -/

/-- The failure to report, of those that were recorded, in this order, and of which one may have
been committed, at the greatest offset of any of them. -/
def furthestOf (fs : List Failure) (committed : Option Failure) (offset : Nat) : Option Failure :=
  (committed.filter (·.offset = offset)).or (fs.filter (·.offset = offset)).getLast?

theorem furthestOf_offset {fs : List Failure} {committed : Option Failure} {offset : Nat}
    {f : Failure} (h : furthestOf fs committed offset = some f) : f.offset = offset := by
  rcases Option.or_eq_some_iff.1 h with h | ⟨-, h⟩
  · simpa using (Option.filter_eq_some_iff.1 h).2
  · simpa using (List.mem_filter.1 (List.mem_of_getLast? h)).2

theorem reported_eq {t : State input U} {fs : List Failure} {f : Failure}
    (hfurthest : t.furthest = some f) (hf : fs.foldl later none = some f)
    (hcommitted : ∀ c, t.error = some c → c ∈ fs) :
    t.reported = furthestOf fs t.error f.offset := by
  obtain ⟨-, hle, hlast⟩ := foldl_later_eq_some hf
  rcases herror : t.error with _ | c
  · simp only [reported, furthestOf, herror, hfurthest, hlast, Option.filter_none, Option.none_or]
  · have hc := hle c (hcommitted c herror)
    simp only [reported, furthestOf, herror, hfurthest, hlast]
    split
    · next hlt =>
      rw [Option.filter_some, if_neg (by simp; omega), Option.none_or]
    · next hge =>
      rw [Option.filter_some, if_pos (by simp; omega), Option.some_or]

end State

namespace Rule

/-- **A failed parse is reported at the furthest failure.**  Let all actions involved in a rule be
honest and not look at the trace.  If one of the drivers answers with an error, it would answer with
the same error if it were traced, and then write down the failures that were recorded.  The error
tells the line and the column of the greatest offset of any of these, and it is about the committed
failure if that lies there, and about the last failure recorded there otherwise; the committed
failure never lies beyond. -/
theorem evaluate_reports_furthest (g : Grammar N U) (budget : Nat) (r : Rule N U)
    (hhonest : ∀ action : Action N U, r.Involves g @action → HonestAction @action)
    (huntracing : ∀ action : Action N U, r.Involves g @action → UntracingAction @action)
    (s : State input U) (hs : s.Located) :
    ∀ driver ∈ State.drivers g budget r, ∀ e t, driver s = some (.error e, t) →
      ∃ fs traced, driver { s with trace := some #[] } = some (.error e, traced) ∧
        traced.logged = some fs ∧
        ∃ furthest ∈ fs, t.furthest = some furthest ∧
          (∀ f ∈ fs, f.offset ≤ furthest.offset) ∧
          (∀ c, t.error = some c → c ∈ fs ∧ c.offset ≤ furthest.offset) ∧
          ∃ f, State.furthestOf fs t.error furthest.offset = some f ∧
            e = .clipped (({} : Location).skip
              (State.between input 0 (min furthest.offset input.size))) f.message := by
  intro driver hdriver e t h
  -- the same with tracing on, where the trace holds the failures that account for the outcome
  have hretraced : s.Retraced { s with trace := some #[] } := ⟨_, rfl⟩
  have hsame := State.drivers_retraced huntracing hdriver hretraced
  rw [h] at hsame
  rcases htraced : driver { s with trace := some #[] } with _ | ⟨answer, traced⟩
  · rw [htraced] at hsame
    cases hsame
  rw [htraced] at hsame
  cases hsame with
  | some hsame =>
    obtain ⟨hanswer, trace, hleft⟩ := hsame
    dsimp only at hanswer hleft
    subst hanswer
    obtain ⟨fs, outcome, s₁, haccounts, hs₁⟩ := State.drivers_account hhonest hdriver htraced
    have hbefore : State.Located { s with trace := some #[] } := ⟨hs.synced_le, hs.location_eq⟩
    have hlocated := State.drivers_located hhonest hdriver hbefore htraced
    have hfail : outcome = .fail := Classical.not_not.1 fun hne ↦ by
      obtain ⟨⟨n, hn⟩, -⟩ := hs₁.passed hne
      cases hn
    have hlogged : traced.logged = some fs := hs₁.logged_eq.trans haccounts.logged_eq
    obtain ⟨furthest, hfold⟩ := Option.isSome_iff_exists.1
      (State.isSome_foldl_later fs none (.inl (haccounts.failed hfail).1))
    have hfurthest : traced.furthest = some furthest :=
      hs₁.furthest_eq.trans (haccounts.furthest_eq.trans hfold)
    have hcommitted (c : Failure) (hc : traced.error = some c) : c ∈ fs := by
      rw [hs₁.error_eq] at hc
      rcases haccounts.error_mem with hnone | ⟨f, hf, hsome⟩
      · cases hnone.symm.trans hc
      · cases hsome.symm.trans hc
        exact hf
    obtain ⟨hmem, hle, hlast⟩ := State.foldl_later_eq_some hfold
    have hreported := State.reported_eq hfurthest hfold hcommitted
    obtain ⟨f, hf⟩ : ∃ f, State.furthestOf fs traced.error furthest.offset = some f := by
      rw [State.furthestOf, hlast]
      exact Option.isSome_iff_exists.1 (by simp)
    have hreport : e = .clipped (traced.locate f.offset) f.message := by
      have hanswer := (hs₁.failed hfail).1
      rw [State.report, hreported, hf] at hanswer
      exact Except.error.inj hanswer
    rw [hlocated.locate_eq, State.furthestOf_offset hf] at hreport
    subst hleft
    exact ⟨fs, _, rfl, hlogged, furthest, hmem, hfurthest, hle,
      fun c hc ↦ ⟨hcommitted c hc, hle c (hcommitted c hc)⟩, f, hf, hreport⟩

/-! ### An integer with something behind it -/

theorem askInteger_untracing (action : Action Unit Unit)
    (h : askInteger.Involves integers @action) :
    UntracingAction @action := by
  have hask : askInteger.Every UntracingAction := fun _ _ _ _ hs ↦
    .call hs fun hreply ↦ .done hreply
  exact Every.of_involves (fun _ ↦ every_signedDecimal
    (fun _ ↦ (closeUnsigned_blind 10).toAction State.Retraced.indifferent)
    (fun _ ↦ closeSigned_blind.toAction State.Retraced.indifferent)) hask h

/-- The bytes of `7x` with the cursor at the start. -/
def notWhole : State #[0x37, 0x78] Unit := State.start _ ()

/-- Behind the integer two failures are recorded: there is no further digit, and the input does not
end.  Only the second one is committed, and it is the one to be reported. -/
theorem evaluate_reports_furthest_notWhole :
    (∀ action : Action Unit Unit, askInteger.Involves integers @action →
        HonestAction @action ∧ UntracingAction @action) ∧
      notWhole.Located ∧
      ∃ t fs, ∃ furthest ∈ fs, ∃ f,
        notWhole.testWhole integers 8 askInteger =
          some (.error ⟨⟨1, 2⟩, "expected end of input, found 'x'"⟩, t) ∧
        (∀ f ∈ fs, f.offset ≤ furthest.offset) ∧
        State.furthestOf fs t.error furthest.offset = some f ∧
        ⟨⟨1, 2⟩, "expected end of input, found 'x'"⟩ =
          ParseError.clipped (({} : Location).skip
            (State.between #[0x37, 0x78] 0 (min furthest.offset 2))) f.message := by
  have hlocated : notWhole.Located := State.start_located _ ()
  have hanswer : (notWhole.testWhole integers 8 askInteger).map (fun answer ↦
      match answer.1 with
      | .ok _ => none
      | .error e => some e) = some (some ⟨⟨1, 2⟩, "expected end of input, found 'x'"⟩) := by
    decide +kernel
  obtain ⟨⟨e | n, t⟩, hparse, he⟩ := Option.map_eq_some_iff.1 hanswer
  · cases he
    obtain ⟨fs, -, -, -, furthest, hmem, -, hle, -, f, hf, heq⟩ :=
      evaluate_reports_furthest integers 8 askInteger askInteger_honest askInteger_untracing
        notWhole
        hlocated _ (List.mem_cons_of_mem _ (List.mem_cons_of_mem _ List.mem_cons_self)) _ t hparse
    exact ⟨fun action h ↦ ⟨askInteger_honest @action h, askInteger_untracing @action h⟩, hlocated,
      t, fs, furthest, hmem, f, hparse, hle, hf, heq⟩
  · cases he

end Rule
end DocGrammar
