import DocGrammar.Grammar.Leaf
import DocGrammar.Proofs.SideBySide

/-!
# Diagnostics never steer the matching

The engine does a lot of work for the sake of its messages: it silences failures around every
attempt, sets the furthest failure aside for a choice and merges it back, and decides by it which
failure a choice commits.  Nothing of this has a bearing on what is matched.

The statement is about two runs.  `State.Alike` relates states that may differ in everything that is
a matter of diagnostics: how often failures are silenced, which failures were recorded, from which
place lines are counted, and what was traced.  The engine is indifferent to all that.

Actions could look at diagnostics, so something has to be asked of them.  An action is a program
that may have symbols matched in the middle of its work; `Program.Alike` relates programs that ask
for the same symbols in alike states and go on alike, and an `ObliviousAction` is one whose programs
are related that way.
-/

set_option autoImplicit false

namespace DocGrammar

variable {N U : Type} {input : Array UInt8}

/-! ## States that differ in diagnostics -/

/-- The two states agree in everything that is not a matter of diagnostics. -/
structure State.Alike (s s' : State input U) : Prop where
  /-- The cursor is the same. -/
  cursor_eq : s'.cursor = s.cursor
  /-- The results are the same. -/
  results_eq : s'.results = s.results
  /-- Results are silenced to the same depth. -/
  resultsSilenced_eq : s'.resultsSilenced = s.resultsSilenced
  /-- The grammar's data is the same. -/
  user_eq : s'.user = s.user

/-- The same outcome, with alike states. -/
structure AlikeReply (reply reply' : Reply input U) : Prop where
  outcome_eq : reply'.1 = reply.1
  alike : reply.2.Alike reply'.2

namespace State

variable {s s' s'' : State input U}

theorem Alike.symm (h : s.Alike s') : s'.Alike s :=
  ⟨h.cursor_eq.symm, h.results_eq.symm, h.resultsSilenced_eq.symm, h.user_eq.symm⟩

theorem Alike.trans (h : s.Alike s') (h' : s'.Alike s'') : s.Alike s'' :=
  ⟨h'.cursor_eq.trans h.cursor_eq, h'.results_eq.trans h.results_eq,
    h'.resultsSilenced_eq.trans h.resultsSilenced_eq, h'.user_eq.trans h.user_eq⟩

theorem Same.alike (h : s.Same s') : s.Alike s' :=
  ⟨h.cursor_eq, h.results_eq, h.resultsSilenced_eq, h.user_eq⟩

/-- What is done for the sake of diagnostics on either side is of no account. -/
theorem Alike.of_same {s₁ s₁' : State input U} (h : s.Alike s') (hs : s.Same s₁)
    (hs' : s'.Same s₁') : s₁.Alike s₁' :=
  hs.alike.symm.trans (h.trans hs'.alike)

theorem Alike.unsilenceErrors (h : s.Alike s') : s.unsilenceErrors.Alike s'.unsilenceErrors :=
  ⟨h.cursor_eq, h.results_eq, h.resultsSilenced_eq, h.user_eq⟩

end State

/-! ## Actions that do not look at diagnostics -/

/-- The two programs ask for the same symbols in alike states, go on alike with alike replies, and
finish with alike replies. -/
inductive Program.Alike : Program N input U → Program N input U → Prop
  | done {reply reply' : Reply input U} (h : AlikeReply reply reply') :
      Alike (.done reply) (.done reply')
  | call {symbol : N} {s s' : State input U} {next next' : Reply input U → Program N input U}
      (h : s.Alike s')
      (hnext : ∀ {reply reply'}, AlikeReply reply reply' → Alike (next reply) (next' reply')) :
      Alike (.call symbol s next) (.call symbol s' next')

/-- An action that neither reads diagnostics nor branches on them. -/
def ObliviousAction (action : Action N U) : Prop :=
  ∀ (input : Array UInt8) (start : Position) ⦃s s' : State input U⦄, s.Alike s' →
    (action s start).Alike (action s' start)

/-- A direct action that neither reads diagnostics nor branches on them. -/
def ObliviousReply (act : DirectAction U) : Prop :=
  ∀ (input : Array UInt8) (start : Position) ⦃s s' : State input U⦄, s.Alike s' →
    AlikeReply (act s start) (act s' start)

theorem ObliviousReply.toAction {act : DirectAction U} (h : ObliviousReply @act) :
    ObliviousAction (N := N) (DirectAction.toAction @act) :=
  fun _ start _ _ hs ↦ .done (h _ start hs)

/-- What programs that are alike have in common, in the words of two runs side by side. -/
theorem Program.Alike.matches {p p' : Program N input U} (h : p.Alike p') :
    p.Matches State.Alike p' := by
  induction h with
  | done h => exact .done ⟨h.outcome_eq, h.alike⟩
  | call h _ ih => exact .call h fun hreply ↦ ih ⟨hreply.outcome_eq, hreply.related⟩

/-! ## The engine -/

/-- The engine is indifferent to diagnostics.  Which failure a choice commits depends on them, but
that it fails does not. -/
theorem State.Alike.indifferent :
    Indifferent (State.Alike : State input U → State input U → Prop) where
  cursor_eq h := h.cursor_eq
  results_eq h := h.results_eq
  resultsSilenced_eq h := h.resultsSilenced_eq
  moveTo h _ := ⟨rfl, h.results_eq, h.resultsSilenced_eq, h.user_eq⟩
  replace h _ := ⟨h.cursor_eq, rfl, h.resultsSilenced_eq, h.user_eq⟩
  silenceErrors h := ⟨h.cursor_eq, h.results_eq, h.resultsSilenced_eq, h.user_eq⟩
  unsilenceErrors h := h.unsilenceErrors
  silenceResults h :=
    ⟨h.cursor_eq, h.results_eq, congrArg (· + 1) h.resultsSilenced_eq, h.user_eq⟩
  unsilenceResults h :=
    ⟨h.cursor_eq, h.results_eq, congrArg (· - 1) h.resultsSilenced_eq, h.user_eq⟩
  noted h _ := h.of_same (noted_same _ _) (noted_same _ _)
  failAt h _ _ := h.of_same (failAt_same _ _ _) (failAt_same _ _ _)
  setAside h := ⟨h.cursor_eq, h.results_eq, h.resultsSilenced_eq, h.user_eq⟩
  conclude _ h _ _ _ := h.unsilenceErrors.of_same (Evaluate.conclude_same _ _ _ _ _)
    (Evaluate.conclude_same _ _ _ _ _)

theorem BlindReply.oblivious {act : DirectAction U} (h : BlindReply @act) :
    ObliviousReply @act := by
  intro input start s s' hs
  obtain ⟨houtcome, halike⟩ := h State.Alike.indifferent start hs
  exact ⟨houtcome, halike⟩

namespace Rule

/-- Evaluation is oblivious if all actions involved are. -/
theorem evaluate_oblivious {g : Grammar N U} (budget : Nat) {r : Rule N U}
    (hr : ∀ action : Action N U, r.Involves g @action → ObliviousAction @action) :
    Respects State.Alike (r.evaluate g budget : Step input U) :=
  evaluate_respects State.Alike.indifferent budget fun action hinvolves _ _ _ h ↦
    (hr @action hinvolves _ _ h).matches

/-- **Diagnostics never steer the matching.**  Two evaluations of a rule, none of whose actions
looks at diagnostics, may start from states with any differences in diagnostics.  If one of them
terminates, so does the other within the same budget, and outcome, cursor, results and the
grammar's data are the same. -/
theorem evaluate_unsteered (g : Grammar N U) (budget : Nat) (r : Rule N U)
    (hr : ∀ action : Action N U, r.Involves g @action → ObliviousAction @action)
    (s s' : State input U) (hcursor : s'.cursor = s.cursor) (hresults : s'.results = s.results)
    (hsilenced : s'.resultsSilenced = s.resultsSilenced) (huser : s'.user = s.user) :
    (r.evaluate g budget s').map (fun (outcome, t) ↦ (outcome, t.cursor, t.results, t.user)) =
      (r.evaluate g budget s).map (fun (outcome, t) ↦ (outcome, t.cursor, t.results, t.user)) := by
  have hs : s.Alike s' := ⟨hcursor, hresults, hsilenced, huser⟩
  obtain ⟨h₁, h₁'⟩ | ⟨outcome, t, t', h₁, h₁', ht⟩ := (evaluate_oblivious budget hr).cases hs
  · rw [h₁, h₁']
  · rw [h₁, h₁']
    simp only [Option.map_some, ht.cursor_eq, ht.results_eq, ht.user_eq]

/-! ### An integer that an action asks for -/

theorem closeUnsigned_blind (radix : Nat) : BlindReply (Leaf.closeUnsigned (U := U) radix) := by
  intro input R hR start s s' h
  dsimp only [Leaf.closeUnsigned]
  rw [hR.sliceSince_eq h]
  split
  · exact hR.okReplace h start _
  · exact hR.fail h _

theorem closeSigned_blind : BlindReply (Leaf.closeSigned (U := U)) := by
  intro input R hR start s s' h
  dsimp only [Leaf.closeSigned]
  rw [hR.resultsSince_eq h]
  split
  · exact hR.fail h _
  · split
    · exact hR.okReplace h start _
    · exact hR.fail h _

/-- A decimal integer has two actions. -/
theorem every_signedDecimal {P : Action N U → Prop}
    (hunsigned : P (DirectAction.toAction (Leaf.closeUnsigned 10)))
    (hsigned : P (DirectAction.toAction Leaf.closeSigned)) :
    (Leaf.signedDecimal : Rule N U).Every P := by
  simp [Leaf.signedDecimal, Leaf.signMaybe, Leaf.sign, Leaf.unsignedDecimal, Leaf.decimalDigits,
    Leaf.decimalDigit, hunsigned, hsigned]

/-- A grammar with one symbol, which stands for integers. -/
def integers : Grammar Unit Unit := fun _ ↦ Leaf.signedDecimal

/-- A leaf that asks for an integer. -/
def askInteger : Rule Unit Unit := leaf fun s _ ↦ .call () s .done

/-- The bytes of `-5;` with the cursor at the start, and no history. -/
def freshInteger : State #[0x2D, 0x35, 0x3B] Unit := State.start _ ()

/-- The same, with failures silenced and recorded, and lines counted from somewhere else. -/
def staleInteger : State #[0x2D, 0x35, 0x3B] Unit :=
  { freshInteger with
    errorsSilenced := 3
    error := some ⟨2, some 0x3B, .expectedEnd⟩
    furthest := some ⟨3, none, .expectedStart⟩
    location := ⟨7, 7⟩
    synced := 3
    trace := some #[] }

/-- The integer is read either way. -/
theorem evaluate_unsteered_integer :
    (∀ action : Action Unit Unit, askInteger.Involves integers @action →
        ObliviousAction @action) ∧
      (askInteger.evaluate integers 8 staleInteger).map
          (fun (outcome, t) ↦ (outcome, t.cursor, t.results, t.user)) =
        some (.ok, 2, [.signed (-5)], ()) := by
  have hask : askInteger.Every ObliviousAction := fun _ _ _ _ h ↦ .call h fun hreply ↦ .done hreply
  have hinvolved (action : Action Unit Unit) (h : askInteger.Involves integers @action) :
      ObliviousAction @action :=
    Every.of_involves (fun _ ↦ every_signedDecimal (closeUnsigned_blind 10).oblivious.toAction
      closeSigned_blind.oblivious.toAction) hask h
  refine ⟨hinvolved, ?_⟩
  rw [evaluate_unsteered integers 8 askInteger hinvolved freshInteger staleInteger rfl rfl rfl rfl]
  decide +kernel

end Rule
end DocGrammar
