import DocGrammar.Proofs.Drivers.Locations

/-!
# Drivers do not depend on history

A state that has been parsed before is full of leftovers: results, a committed and a furthest
failure, and a place from which lines are counted.  Drivers clear the first three, and the last does
not matter, because locations come out the same from wherever they are counted.  So two states with
one cursor, one silencing and the same data of the grammar's own are as good as each other, whatever
was done to get there (`Rule.drivers_historyless`).

This is one more case of two runs side by side, where the states differ in the place from which
lines are counted, but both have it right: `State.Recounted`.  Actions must not look at that place
itself, though they may ask for locations.
-/

set_option autoImplicit false

namespace DocGrammar

variable {N U : Type} {input : Array UInt8}

namespace State

/-- The two states differ in nothing but the place from which lines are counted and in what has been
traced, and both count lines from where they should. -/
def Recounted (s s' : State input U) : Prop := s.Relocated s' ∧ s.Located ∧ s'.Located

/-- Both states come to the same location of an offset. -/
theorem Recounted.locate_eq {s s' : State input U} (h : s.Recounted s') (offset : Nat) :
    s'.locate offset = s.locate offset := by
  rw [h.2.1.locate_eq, h.2.2.locate_eq]

/-- The engine does not look at places. -/
theorem Recounted.indifferent :
    Indifferent (Recounted : State input U → State input U → Prop) :=
  Relocated.indifferent.and fun _ _ _ _ hs h h' ↦ ⟨hs.1.of_samePlace h, hs.2.of_samePlace h'⟩

/-- Drivers do, but what they find there is right. -/
theorem Recounted.driven : Driven (Recounted : State input U → State input U → Prop) where
  toIndifferent := Recounted.indifferent
  sync := by
    rintro s _ ⟨⟨location, synced, trace, rfl⟩, hs, hs'⟩
    exact ⟨⟨_, _, trace, rfl⟩, hs.sync, hs'.sync⟩
  report_eq := by
    intro s s' h
    have hlocate := h.locate_eq
    obtain ⟨⟨location, synced, trace, rfl⟩, -, -⟩ := h
    have hreported : { s with location, synced, trace }.reported = s.reported := rfl
    unfold report
    rw [hreported]
    split
    · next f _ => rw [hlocate f.offset]
    · rw [hlocate s.cursor]

/-- When results and diagnostics are cleared, places are all that two states still differ in. -/
theorem cleared_recounted {s s' : State input U} (hs : s.Located) (hs' : s'.Located)
    (hcursor : s'.cursor = s.cursor) (herrors : s'.errorsSilenced = s.errorsSilenced)
    (hresults : s'.resultsSilenced = s.resultsSilenced) (huser : s'.user = s.user) :
    Cleared Recounted s s' := by
  refine ⟨hcursor, ?_, hs.of_samePlace ⟨rfl, rfl, rfl⟩, hs'.of_samePlace ⟨rfl, rfl, rfl⟩⟩
  obtain ⟨cursor, hle, results, errorsSilenced, resultsSilenced, location, synced, error, furthest,
    trace, user⟩ := s
  obtain ⟨cursor', hle', results', errorsSilenced', resultsSilenced', location', synced', error',
    furthest', trace', user'⟩ := s'
  dsimp only at hcursor herrors hresults huser
  subst hcursor herrors hresults huser
  exact ⟨location', synced', trace', rfl⟩

end State

/-- An action that looks neither at the place from which lines are counted nor at the trace. -/
def UncountingAction (action : Action N U) : Prop :=
  ∀ input : Array UInt8,
    RespectfulAction (State.Recounted : State input U → State input U → Prop) @action

namespace Rule

/-- **Drivers do not depend on history.**  Let no action involved in a rule look at where lines are
counted from, and take two states that can be reached, with the same cursor, silencing and data.
Each driver comes to the same result in both, and to the same cursor, results, failures and data. -/
theorem drivers_historyless (g : Grammar N U) (budget : Nat) (r : Rule N U)
    (hr : ∀ action : Action N U, r.Involves g @action → UncountingAction @action)
    (notes : U → Option Nat → Prop) (user user' : U) (trace trace' : Option (Array Event))
    (s s' : State input U) (hs : State.Reaches notes { State.start input user with trace } s)
    (hs' : State.Reaches notes { State.start input user' with trace := trace' } s')
    (hcursor : s'.cursor = s.cursor) (herrors : s'.errorsSilenced = s.errorsSilenced)
    (hresults : s'.resultsSilenced = s.resultsSilenced) (huser : s'.user = s.user) :
    ∀ driver ∈ State.drivers g budget r,
      Option.Rel (fun a a' ↦ a'.1 = a.1 ∧ a'.2.cursor = a.2.cursor ∧ a'.2.results = a.2.results ∧
        a'.2.error = a.2.error ∧ a'.2.furthest = a.2.furthest ∧ a'.2.user = a.2.user)
        (driver s) (driver s') := by
  intro driver hdriver
  have hcleared :=
    State.cleared_recounted hs.located hs'.located hcursor herrors hresults huser
  have hanswers := State.drivers_agree State.Recounted.driven
    (fun action hinvolves ↦ hr @action hinvolves input) hdriver hcleared
  generalize driver s = a? at hanswers ⊢
  generalize driver s' = a?' at hanswers ⊢
  rcases hanswers with ⟨hresult, ⟨location, synced, trace, hleft⟩, -⟩ | _
  · refine .some ⟨hresult, ?_, ?_, ?_, ?_, ?_⟩
    all_goals rw [hleft]
  · exact .none

/-! ### An integer that is looked for a second time -/

theorem askInteger_uncounting (action : Action Unit Unit)
    (h : askInteger.Involves integers @action) : UncountingAction @action := by
  have hask : askInteger.Every UncountingAction := fun _ _ _ _ hs ↦
    .call hs fun hreply ↦ .done hreply
  exact Every.of_involves (fun _ ↦ every_signedDecimal
    (fun _ ↦ (closeUnsigned_blind 10).toAction State.Recounted.indifferent)
    (fun _ ↦ closeSigned_blind.toAction State.Recounted.indifferent)) hask h

/-- What becomes of a state when something fails behind the first digit, and the cursor goes back to
the start. -/
def goneBack (s : State #[0x37, 0x78] Unit) : State #[0x37, 0x78] Unit :=
  (s.failAt 2 .expectedEnd).2.restore ⟨0, 1⟩

/-- The digit of `7x` was parsed before.  There is a result, there are two failures, and lines are
counted from the second column; but the integer that does not span the input is reported as if
nothing had happened. -/
theorem drivers_historyless_goneBack : ∃ s : State #[0x37, 0x78] Unit,
    s.results = [.char 0x37] ∧ s.error.isSome ∧ s.furthest.isSome ∧ s.synced = 1 ∧
      ∃ t, s.testWhole integers 8 askInteger =
        some (.error ⟨⟨1, 2⟩, "expected end of input, found 'x'"⟩, t) := by
  have hdigit : (notWhole.parse Empty.elim 1 (.byte 0x37)).map (fun answer ↦
      match answer with
      | (.ok _, s) => decide ((goneBack s).results = [.char 0x37] ∧ (goneBack s).error.isSome ∧
          (goneBack s).furthest.isSome ∧ (goneBack s).synced = 1 ∧ (goneBack s).cursor = 0 ∧
          (goneBack s).errorsSilenced = 0 ∧ (goneBack s).resultsSilenced = 0)
      | (.error _, _) => false) = some true := by
    decide
  have hfresh : (notWhole.testWhole integers 8 askInteger).map (fun answer ↦
      match answer.1 with
      | .ok _ => none
      | .error e => some e) = some (some ⟨⟨1, 2⟩, "expected end of input, found 'x'"⟩) := by
    decide +kernel
  have hbyte : @Rule.Open Unit #[0x37, 0x78] (fun _ _ ↦ True) Empty Empty.elim (.byte 0x37) :=
    .of_every (fun n ↦ n.elim) trivial
  obtain ⟨⟨e | n, t⟩, hparse, hleft⟩ := Option.map_eq_some_iff.1 hdigit
  · cases hleft
  obtain ⟨hresults, herror, hfurthest, hsynced, hcursor, herrors, hsilenced⟩ :=
    of_decide_eq_true hleft
  have hpassed : State.Reaches (fun _ _ ↦ True) notWhole t :=
    .passed (.refl _) hbyte List.mem_cons_self hparse trivial
  have hreaches : State.Reaches (fun _ _ ↦ True) notWhole (goneBack t) :=
    .operation (.operation hpassed (.failAt t 2 .expectedEnd)) (.restore _ _)
  obtain ⟨⟨e | n, t₁⟩, hanswer, he⟩ := Option.map_eq_some_iff.1 hfresh
  · cases he
    have hsame := drivers_historyless integers 8 askInteger askInteger_uncounting _ () () none none
      notWhole (goneBack t) (.refl _) hreaches hcursor herrors hsilenced rfl _
      (List.mem_cons_of_mem _ (List.mem_cons_of_mem _ List.mem_cons_self))
    rw [hanswer] at hsame
    generalize hagain : (goneBack t).testWhole integers 8 askInteger = a? at hsame
    rcases hsame with @⟨-, ⟨_, t₂⟩, rfl, -⟩ | _
    exact ⟨goneBack t, hresults, herror, hfurthest, hsynced, t₂, hagain⟩
  · cases he

end Rule
end DocGrammar
