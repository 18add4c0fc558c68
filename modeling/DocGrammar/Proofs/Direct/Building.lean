import DocGrammar.Proofs.Direct.Fluff
import DocGrammar.Proofs.Direct.Integers
import DocGrammar.Proofs.Direct.Progress
import DocGrammar.Proofs.Direct.Strings

/-!
# Rules that change the builder

Most rules of the grammar of documents end in an action that changes the builder.  `Rule.Builds`
says what such a rule does in terms of a direct reader: where the reader finds something, the rule
takes the same bytes and changes the builder accordingly, and leaves no results; where the reader
gives up, the rule goes back.

Going back does not restore the builder.  So a rule that fails may leave a builder that is not the
one it was given: a string that was read, a name that is pending.  It is *clean* where it does not,
and which rules are clean where is part of `Rule.Builds`.

Sequences and choices are put together rule by rule.  A sequence reads one thing behind another and
changes the builder accordingly (`SequenceBuilds.cons`); a choice reads the first thing it can, and
may try a rule behind one that is not clean only where it reads nothing
(`ChoiceBuilds.cons_of_unclean`).
-/

set_option autoImplicit false

namespace DocGrammar

open TextGrammar (TextRule grammar built)

variable {α : Type} {input : Array UInt8}

/-! ## Failing with a builder that may have changed -/

/-- The second state extends the first, and where it is clean it has the same builder. -/
structure State.Lost (clean : Prop) (s s' : State input Builder) : Prop extends Extends s s' where
  user_eq_of : clean → s'.user = s.user

/-- The second state is the first again, but for the builder unless it is clean. -/
structure State.Dropped (clean : Prop) (s s' : State input Builder) : Prop extends Undone s s' where
  user_eq_of : clean → s'.user = s.user

/-- A reply is what a direct reader finds, when the evaluation started in the state `s`; what is
found changes the builder by `change`, and what is left by a failure is described by `left`. -/
inductive Built (s : State input Builder) (change : α → Builder → Builder)
    (left : State input Builder → Prop) : Option (α × List UInt8) → Reply input Builder → Prop
  | ok {x : α} {token rest : List UInt8} {s' : State input Builder}
      (h : s.Took token rest [] (change x s.user) s') :
      Built s change left (some (x, rest)) (.ok, s')
  | fail {s' : State input Builder} (h : left s') : Built s change left none (.fail, s')

/-- A rule builds what a direct reader reads, if the budget is at least `depth`, in every state in
which results are heard and the builder and the rest of the input are `ready`. -/
def Rule.Builds (depth : Nat) (r : TextRule) (read : List UInt8 → Option (α × List UInt8))
    (change : α → Builder → Builder) (ready : Builder → List UInt8 → Prop)
    (clean : List UInt8 → Prop) : Prop :=
  ∀ (input : Array UInt8) (budget : Nat), depth ≤ budget → ∀ s : State input Builder,
    s.resultsSilenced = 0 → ready s.user s.rest →
      ∃ reply, r.evaluate grammar budget s = some reply ∧
        Built s change (s.Dropped (clean s.rest)) (read s.rest) reply

/-- The body of a rule builds what a direct reader reads. -/
def BuildsFrom (body : Position → Step input Builder)
    (read : List UInt8 → Option (α × List UInt8)) (change : α → Builder → Builder)
    (ready : Builder → List UInt8 → Prop) (clean : List UInt8 → Prop) : Prop :=
  ∀ s : State input Builder, s.resultsSilenced = 0 → ready s.user s.rest →
    ∃ reply, body s.position s = some reply ∧
      Built s change (s.Lost (clean s.rest)) (read s.rest) reply

namespace State

variable {clean : Prop} {s s₁ s' : State input Builder}

theorem Same.dropped (h : s.Same s') : s.Dropped clean s' := ⟨h.toUndone, fun _ ↦ h.user_eq⟩

theorem Beyond.lost (h : s.Beyond s') : s.Lost clean s' := ⟨h.toExtends, fun _ ↦ h.user_eq⟩

theorem Dropped.lost (h : s.Dropped clean s') : s.Lost clean s' :=
  ⟨h.toUndone.extends, h.user_eq_of⟩

theorem Dropped.same (h : s.Dropped clean s') (hclean : clean) : s.Same s' :=
  ⟨h.toUndone, h.user_eq_of hclean⟩

theorem Dropped.imp {clean' : Prop} (h : s.Dropped clean s') (hclean : clean' → clean) :
    s.Dropped clean' s' :=
  ⟨h.toUndone, fun h' ↦ h.user_eq_of (hclean h')⟩

theorem Same.trans_dropped (h : s.Same s₁) (h' : s₁.Dropped clean s') : s.Dropped clean s' :=
  ⟨h.toUndone.trans h'.toUndone, fun hclean ↦ (h'.user_eq_of hclean).trans h.user_eq⟩

theorem Dropped.trans_same (h : s.Dropped clean s₁) (h' : s₁.Same s') : s.Dropped clean s' :=
  ⟨h.toUndone.trans h'.toUndone, fun hclean ↦ h'.user_eq.trans (h.user_eq_of hclean)⟩

theorem Lost.dropped_restore (h : s.Lost clean s') : s.Dropped clean (s'.restore s.position) :=
  ⟨h.toExtends.undone_restore rfl, h.user_eq_of⟩

/-- What is lost behind a token is lost; it is not clean. -/
theorem Took.trans_lost {token rest : List UInt8} {values : List Value} {user : Builder}
    (h : s.Took token rest values user s₁) (h' : s₁.Extends s') (hclean : ¬ clean) :
    s.Lost clean s' :=
  ⟨h.extends.trans h', fun hc ↦ absurd hc hclean⟩

end State

/-- A scanner takes what a reader skips, and makes no values of it. -/
def Scanner.Skips (p : Scanner) (skip : List UInt8 → Option (List UInt8)) : Prop :=
  ∀ bytes, match p bytes with
    | .ok _ rest values => values = [] ∧ skip bytes = some rest
    | .fail => skip bytes = none
    | .noMatch => False

theorem Scanner.Skips.built {p : Scanner} {skip : List UInt8 → Option (List UInt8)}
    (h : p.Skips skip) {s : State input Builder} {left left' : State input Builder → Prop}
    {reply : Reply input Builder} (hfits : Fits s left (p s.rest) reply)
    (hleft : ∀ s', left s' → left' s') :
    Built s (fun _ b ↦ b) left' ((skip s.rest).map ((), ·)) reply := by
  have hskip := h s.rest
  generalize p s.rest = scan at hfits hskip
  cases hfits with
  | ok ht =>
    obtain ⟨rfl, hskip⟩ := hskip
    rw [hskip]
    exact .ok ht
  | fail h =>
    simp only at hskip
    rw [hskip]
    exact .fail (hleft _ h)
  | noMatch => exact hskip.elim

namespace Rule.Builds

variable {depth depth' : Nat} {r : TextRule} {read : List UInt8 → Option (α × List UInt8)}
  {change : α → Builder → Builder} {ready : Builder → List UInt8 → Prop}
  {clean : List UInt8 → Prop}

theorem mono (h : r.Builds depth read change ready clean) (hdepth : depth ≤ depth') :
    r.Builds depth' read change ready clean :=
  fun input budget hbudget ↦ h input budget (Nat.le_trans hdepth hbudget)

/-- Less may be said of fewer states. -/
theorem imp {change' : α → Builder → Builder} {ready' : Builder → List UInt8 → Prop}
    {clean' : List UInt8 → Prop} (h : r.Builds depth read change ready clean)
    (hready : ∀ b bytes, ready' b bytes → ready b bytes)
    (hchange : ∀ x b bytes, ready' b bytes → change x b = change' x b)
    (hclean : ∀ bytes, clean' bytes → clean bytes) :
    r.Builds depth read change' ready' clean' := by
  intro input budget hbudget s hs hs'
  obtain ⟨⟨outcome, s₁⟩, hreply, hbuilt⟩ := h input budget hbudget s hs (hready _ _ hs')
  refine ⟨_, hreply, ?_⟩
  generalize read s.rest = found at hbuilt ⊢
  cases hbuilt with
  | ok ht => exact .ok (hchange _ _ _ hs' ▸ ht)
  | fail hdropped => exact .fail (hdropped.imp (hclean _))

theorem ofReady {ready' : Builder → List UInt8 → Prop} (h : r.Builds depth read change ready clean)
    (hready : ∀ b bytes, ready' b bytes → ready b bytes) :
    r.Builds depth read change ready' clean :=
  h.imp hready (fun _ _ _ _ ↦ rfl) fun _ h ↦ h

/-- Anything is said of no states. -/
theorem of_unready (h : ∀ b bytes, ¬ ready b bytes) : r.Builds depth read change ready clean :=
  fun _ _ _ s _ hready ↦ absurd hready (h s.user s.rest)

/-- What is read may be read as something else. -/
theorem map {β : Type} (f : α → β) {change : β → Builder → Builder}
    (h : r.Builds depth read (fun x ↦ change (f x)) ready clean) :
    r.Builds depth (fun bytes ↦ (read bytes).map fun (x, rest) ↦ (f x, rest)) change ready
      clean := by
  intro input budget hbudget s hs hready
  obtain ⟨⟨outcome, s₁⟩, hreply, hbuilt⟩ := h input budget hbudget s hs hready
  refine ⟨_, hreply, ?_⟩
  dsimp only
  generalize read s.rest = found at hbuilt ⊢
  cases hbuilt with
  | ok ht => exact .ok ht
  | fail hdropped => exact .fail hdropped

/-- A rule that only skips leaves the builder alone. -/
theorem of_skips {p : Scanner} {skip : List UInt8 → Option (List UInt8)}
    (h : r.Reads grammar true depth p) (hskips : p.Skips skip) :
    r.Builds depth (fun bytes ↦ (skip bytes).map ((), ·)) (fun _ b ↦ b) (fun _ _ ↦ True)
      fun _ ↦ True := by
  intro input budget hbudget s hs _
  obtain ⟨reply, hreply, hfits⟩ := h input budget hbudget s fun _ ↦ hs
  exact ⟨reply, hreply, hskips.built hfits fun _ ↦ State.Same.dropped⟩

/-- A rule that never matches builds nothing. -/
theorem of_reads_fail (h : r.Reads grammar true depth fun _ ↦ .fail) :
    r.Builds depth (fun _ ↦ none) change ready clean := by
  intro input budget hbudget s hs _
  obtain ⟨⟨outcome, s₁⟩, hreply, hfits⟩ := h input budget hbudget s fun _ ↦ hs
  cases hfits with
  | fail hsame => exact ⟨_, hreply, .fail hsame.dropped⟩

/-- A rule builds what its kind does. -/
theorem of_kind {name : Option String} {k : Kind Symbol Builder TextRule}
    (h : ∀ (input : Array UInt8) (budget : Nat), depth ≤ budget →
      BuildsFrom (Evaluate.kind grammar (Rule.evaluate grammar budget) name k :
        Position → Step input Builder) read change ready clean) :
    Rule.Builds (depth + 1) ⟨name, {}, k⟩ read change ready clean
  | _, 0, hbudget => absurd hbudget (Nat.not_succ_le_zero _)
  | input, budget + 1, hbudget => by
    intro s hs hready
    obtain ⟨entered, hentered, hstep⟩ :=
      Rule.step_eq grammar (Rule.evaluate grammar budget) ⟨name, {}, k⟩ s
    obtain ⟨⟨outcome, left⟩, hreply, hbuilt⟩ := h input budget (Nat.le_of_succ_le_succ hbudget)
      entered (hentered.resultsSilenced_eq.trans hs)
      (by rwa [hentered.user_eq, hentered.rest_eq])
    obtain ⟨s', hreply', hsame⟩ := hstep _ hreply
    refine ⟨_, hreply', ?_⟩
    rw [hentered.rest_eq] at hbuilt
    generalize read s.rest = found at hbuilt ⊢
    cases hbuilt with
    | ok ht =>
      rw [hentered.user_eq] at ht
      exact .ok ((hentered.trans_took ht).trans_same hsame)
    | fail hlost => exact .fail ((hentered.trans_dropped hlost.dropped_restore).trans_same hsame)

/-- An action that drops what its rule left on the result stack and changes the builder instead. -/
theorem built_took {s s₁ : State input Builder} {token rest : List UInt8} {values : List Value}
    {user : Builder} (h : s.Took token rest values user s₁) (change : Builder → Builder) :
    s.Took token rest [] (change user) (built s₁ s.position change).2 :=
  ⟨h.input_eq, h.cursor_eq, by
    rw [State.heard_nil, List.append_nil]
    exact (List.prefix_iff_eq_take.1 h.extends.isPrefix).symm, h.errorsSilenced_eq,
    h.resultsSilenced_eq, congrArg change h.user_eq⟩

/-- A rule that only scans, and an action that makes something of the values or fails. -/
theorem after {name : Option String} {inner : TextRule} {act : DirectAction Builder} {p : Scanner}
    (f : List Value → Option α) (h : inner.Reads grammar true depth p)
    (hok : ∀ {input : Array UInt8} (s : State input Builder) (start : Position) (x : α),
      f (s.resultsSince start) = some x → act s start = built s start (change x))
    (hfail : ∀ {input : Array UInt8} (s : State input Builder) (start : Position),
      f (s.resultsSince start) = none → ∃ reason, act s start = s.fail reason)
    (hread : ∀ bytes, match p bytes with
      | .ok _ rest values => read bytes = (f values).map (·, rest)
      | .fail => read bytes = none
      | .noMatch => False) :
    Rule.Builds (depth + 1) ⟨name, {}, .closing inner (DirectAction.toAction act)⟩ read change
      (fun _ _ ↦ True) fun _ ↦ True := by
  refine of_kind fun input budget hbudget s hs _ ↦ ?_
  obtain ⟨⟨outcome, s₁⟩, hreply, hfits⟩ := h input budget hbudget s fun _ ↦ hs
  have hread := hread s.rest
  simp only [Evaluate.kind, hreply]
  generalize p s.rest = scan at hfits hread
  cases hfits with
  | @ok token rest values _ ht =>
    simp only at hread
    simp only [if_pos (ht.resultsSilenced_eq.trans hs), DirectAction.toAction, Program.run, hread]
    cases hf : f values with
    | some x =>
      rw [hok s₁ s.position x (by rw [ht.resultsSince_eq hs, hf])]
      exact ⟨_, rfl, .ok (built_took ht (change x))⟩
    | none =>
      obtain ⟨reason, hact⟩ := hfail s₁ s.position (by rw [ht.resultsSince_eq hs, hf])
      rw [hact]
      exact ⟨_, rfl, .fail (ht.beyond.trans (s₁.failAt_same _ _).beyond).lost⟩
  | fail hsame =>
    simp only at hread
    rw [hread]
    exact ⟨_, rfl, .fail hsame.beyond.lost⟩
  | noMatch => exact hread.elim

/-- A rule that builds something, and an action that changes the builder further. -/
theorem closing {name : Option String} {inner : TextRule} {act : DirectAction Builder}
    {update : Builder → Builder} (h : inner.Builds depth read change ready clean)
    (hact : ∀ {input : Array UInt8} (s : State input Builder) (start : Position),
      act s start = built s start update) :
    Rule.Builds (depth + 1) ⟨name, {}, .closing inner (DirectAction.toAction act)⟩ read
      (fun x b ↦ update (change x b)) ready clean := by
  refine of_kind fun input budget hbudget s hs hready ↦ ?_
  obtain ⟨⟨outcome, s₁⟩, hreply, hbuilt⟩ := h input budget hbudget s hs hready
  simp only [Evaluate.kind, hreply]
  generalize read s.rest = found at hbuilt ⊢
  cases hbuilt with
  | ok ht =>
    simp only [if_pos (ht.resultsSilenced_eq.trans hs), DirectAction.toAction, Program.run, hact]
    exact ⟨_, rfl, .ok (built_took ht update)⟩
  | fail hdropped => exact ⟨_, rfl, .fail hdropped.lost⟩

end Rule.Builds

/-! ## Sequences -/

/-- Some rules, one behind another, build what a direct reader reads; the outcome is that of what
has gone before. -/
def SequenceBuilds (outcome : Outcome) (depth : Nat) (rules : List TextRule)
    (read : List UInt8 → Option (α × List UInt8)) (change : α → Builder → Builder)
    (ready : Builder → List UInt8 → Prop) (clean : List UInt8 → Prop) : Prop :=
  ∀ (input : Array UInt8) (budget : Nat), depth ≤ budget → ∀ s : State input Builder,
    s.resultsSilenced = 0 → ready s.user s.rest →
      ∃ reply, Evaluate.inOrder (Rule.evaluate grammar budget) rules outcome s = some reply ∧
        Built s change (s.Lost (clean s.rest)) (read s.rest) reply

namespace SequenceBuilds

variable {outcome : Outcome} {depth : Nat} {r : TextRule} {rules : List TextRule}
  {read : List UInt8 → Option (α × List UInt8)} {change : α → Builder → Builder}
  {ready : Builder → List UInt8 → Prop} {clean : List UInt8 → Prop}

theorem mono {depth' : Nat} (h : SequenceBuilds outcome depth rules read change ready clean)
    (hdepth : depth ≤ depth') : SequenceBuilds outcome depth' rules read change ready clean :=
  fun input budget hbudget ↦ h input budget (Nat.le_trans hdepth hbudget)

theorem single (h : r.Builds depth read change ready clean) :
    SequenceBuilds outcome depth [r] read change ready clean := by
  intro input budget hbudget s hs hready
  obtain ⟨⟨outcome, s₁⟩, hreply, hbuilt⟩ := h input budget hbudget s hs hready
  rw [Evaluate.inOrder, hreply]
  generalize read s.rest = found at hbuilt ⊢
  cases hbuilt with
  | ok ht => exact ⟨_, rfl, .ok ht⟩
  | fail hdropped => exact ⟨_, rfl, .fail hdropped.lost⟩

/-- Behind a rule, the others find the builder as that rule has changed it.  If one of them fails,
that change is not undone; so the sequence is clean only where the first rule fails, and is
clean. -/
theorem cons {β γ : Type} {read' : List UInt8 → Option (β × List UInt8)}
    {change' : β → Builder → Builder} {change'' : γ → Builder → Builder}
    {ready' : Builder → List UInt8 → Prop} {clean' : List UInt8 → Prop} (f : α → β → γ)
    (hr : r.Builds depth read change ready clean)
    (hrules : SequenceBuilds .ok depth rules read' change' ready' clean')
    (hready : ∀ x b bytes rest, ready b bytes → read bytes = some (x, rest) →
      ready' (change x b) rest)
    (hchange : ∀ x y b bytes, ready b bytes → change' y (change x b) = change'' (f x y) b) :
    SequenceBuilds outcome depth (r :: rules)
      (fun bytes ↦ (read bytes).bind fun (x, rest) ↦
        (read' rest).map fun (y, left) ↦ (f x y, left))
      change'' ready fun bytes ↦ clean bytes ∧ read bytes = none := by
  intro input budget hbudget s hs hs'
  obtain ⟨⟨outcome, s₁⟩, hreply, hbuilt⟩ := hr input budget hbudget s hs hs'
  rw [Evaluate.inOrder, hreply]
  dsimp only
  cases hread : read s.rest with
  | none =>
    rw [hread] at hbuilt
    cases hbuilt with
    | fail hdropped => exact ⟨_, rfl, .fail (hdropped.imp And.left).lost⟩
  | some found =>
    obtain ⟨x, rest⟩ := found
    rw [hread] at hbuilt
    cases hbuilt with
    | ok ht =>
      obtain ⟨⟨outcome, s₂⟩, hreply, hbuilt⟩ := hrules input budget hbudget s₁
        (ht.resultsSilenced_eq.trans hs) (by
          rw [ht.user_eq, ht.rest_eq]
          exact hready _ _ _ _ hs' hread)
      rw [ht.rest_eq] at hbuilt
      refine ⟨_, hreply, ?_⟩
      rw [Option.bind_some]
      dsimp only
      generalize read' rest = found at hbuilt ⊢
      cases hbuilt with
      | ok ht' =>
        rw [ht.user_eq, hchange _ _ _ _ hs'] at ht'
        exact .ok (ht.trans ht')
      | fail hlost =>
        exact .fail (ht.trans_lost hlost.toExtends fun h ↦ Option.some_ne_none _ h.2)

/-- Rules that only skip leave the builder alone. -/
theorem of_skips {ps : List Scanner} {skip : List UInt8 → Option (List UInt8)}
    (h : List.Forall₂ (Rule.Reads grammar true depth) rules ps)
    (hskips : Scanner.Skips (Scanner.inOrder ps true) skip) :
    SequenceBuilds .ok depth rules (fun bytes ↦ (skip bytes).map ((), ·)) (fun _ b ↦ b)
      (fun _ _ ↦ True) fun _ ↦ True := by
  intro input budget hbudget s hs _
  obtain ⟨reply, hreply, hfits⟩ := Evaluate.inOrder_scans
    (h.imp fun _ _ hreads ↦ hreads input budget hbudget) true s fun _ ↦ hs
  exact ⟨reply, hreply, hskips.built hfits fun _ ↦ State.Beyond.lost⟩

/-- The same may be read another way, and less be called clean. -/
theorem imp {read' : List UInt8 → Option (α × List UInt8)} {clean' : List UInt8 → Prop}
    (h : SequenceBuilds outcome depth rules read change ready clean)
    (hread : ∀ b bytes, ready b bytes → read bytes = read' bytes)
    (hclean : ∀ bytes, clean' bytes → clean bytes) :
    SequenceBuilds outcome depth rules read' change ready clean' := by
  intro input budget hbudget s hs hready
  obtain ⟨⟨outcome, s₁⟩, hreply, hbuilt⟩ := h input budget hbudget s hs hready
  refine ⟨_, hreply, ?_⟩
  rw [hread _ _ hready] at hbuilt
  generalize read' s.rest = found at hbuilt ⊢
  cases hbuilt with
  | ok ht => exact .ok ht
  | fail hlost => exact .fail ⟨hlost.toExtends, fun h ↦ hlost.user_eq_of (hclean _ h)⟩

theorem buildsFrom (h : SequenceBuilds .noMatch depth rules read change ready clean) {budget : Nat}
    (hbudget : depth ≤ budget) (name : Option String) :
    BuildsFrom (Evaluate.kind grammar (Rule.evaluate grammar budget) name (.allOf rules) :
      Position → Step input Builder) read change ready clean :=
  fun s hs hready ↦ h input budget hbudget s hs hready

theorem builds (h : SequenceBuilds .noMatch depth rules read change ready clean)
    (name : Option String) :
    Rule.Builds (depth + 1) ⟨name, {}, .allOf rules⟩ read change ready clean :=
  .of_kind fun _ _ hbudget ↦ h.buildsFrom hbudget name

end SequenceBuilds

/-! ## Choices -/

/-- Some rules, tried in turn, build what a direct reader reads. -/
def ChoiceBuilds (depth : Nat) (rules : List TextRule)
    (read : List UInt8 → Option (α × List UInt8)) (change : α → Builder → Builder)
    (ready : Builder → List UInt8 → Prop) (clean : List UInt8 → Prop) : Prop :=
  ∀ (input : Array UInt8) (budget : Nat), depth ≤ budget → ∀ s : State input Builder,
    s.resultsSilenced = 0 → ready s.user s.rest →
      ∃ reply, Evaluate.firstOf (Rule.evaluate grammar budget) s.position rules s = some reply ∧
        Built s change (s.Lost (clean s.rest)) (read s.rest) reply

namespace ChoiceBuilds

variable {depth : Nat} {r : TextRule} {rules : List TextRule}
  {read read' : List UInt8 → Option (α × List UInt8)} {change : α → Builder → Builder}
  {ready : Builder → List UInt8 → Prop} {clean : List UInt8 → Prop}

theorem nil : ChoiceBuilds depth [] (fun _ ↦ none) change ready fun _ ↦ True :=
  fun _ _ _ s _ _ ↦ ⟨_, rfl, .fail (State.Same.refl s).beyond.lost⟩

/-- Where the first rule builds something, the others are not tried. -/
theorem head (hr : r.Builds depth read change ready clean)
    (hready : ∀ b bytes, ready b bytes → read bytes ≠ none) :
    ChoiceBuilds depth (r :: rules) read change ready clean := by
  intro input budget hbudget s hs hs'
  obtain ⟨⟨outcome, s₁⟩, hreply, hbuilt⟩ := hr input budget hbudget s hs hs'
  have hsome := hready _ _ hs'
  rw [Evaluate.firstOf, hreply]
  generalize read s.rest = found at hbuilt hsome ⊢
  cases hbuilt with
  | ok ht => exact ⟨_, rfl, .ok ht⟩
  | fail => exact absurd rfl hsome

/-- Where a rule is not clean, what is tried behind it finds a builder of which nothing is known;
there nothing else may be read. -/
theorem cons_of_unclean {clean' : List UInt8 → Prop} {ready' : Builder → List UInt8 → Prop}
    (hr : r.Builds depth read change ready clean')
    (hrules : ChoiceBuilds depth rules read' change ready' clean)
    (hready : ∀ b bytes, ready b bytes → ready' b bytes)
    (hunclean : ∀ b bytes, ¬ clean' bytes → ready' b bytes ∧ read' bytes = none) :
    ChoiceBuilds depth (r :: rules) (fun bytes ↦ (read bytes).or (read' bytes)) change ready
      fun bytes ↦ clean' bytes ∧ clean bytes := by
  intro input budget hbudget s hs hs'
  obtain ⟨⟨outcome, s₁⟩, hreply, hbuilt⟩ := hr input budget hbudget s hs hs'
  rw [Evaluate.firstOf, hreply]
  dsimp only
  generalize read s.rest = found at hbuilt ⊢
  cases hbuilt with
  | ok ht => exact ⟨_, rfl, .ok ht⟩
  | fail hdropped =>
    have hback : s.Dropped (clean' s.rest) (s₁.restore s.position) := hdropped.lost.dropped_restore
    have hposition := hback.toUndone.position_eq
    have hrest := State.rest_eq_of_cursor_eq hback.cursor_eq
    obtain ⟨⟨outcome, s₂⟩, hreply, hbuilt⟩ := hrules input budget hbudget
      (s₁.restore s.position) (hback.resultsSilenced_eq.trans hs) (by
        rw [hrest]
        by_cases hclean : clean' s.rest
        · exact hback.user_eq_of hclean ▸ hready _ _ hs'
        · exact (hunclean _ _ hclean).1)
    rw [hposition] at hreply
    rw [hrest] at hbuilt
    refine ⟨_, hreply, ?_⟩
    rw [Option.none_or]
    cases hread : read' s.rest with
    | none =>
      rw [hread] at hbuilt
      cases hbuilt with
      | fail hlost =>
        exact .fail ⟨hback.toUndone.extends.trans hlost.toExtends, fun hclean ↦
          (hlost.user_eq_of hclean.2).trans (hback.user_eq_of hclean.1)⟩
    | some found =>
      -- something is read, so the rule was clean
      have hclean : clean' s.rest := by
        by_contra hclean
        rw [(hunclean s.user _ hclean).2] at hread
        cases hread
      rw [hread] at hbuilt
      cases hbuilt with
      | ok ht =>
        rw [hback.user_eq_of hclean] at ht
        exact .ok ((hback.same hclean).trans_took ht)

/-- Behind a rule that is always clean, the others find the builder as it was. -/
theorem cons (hr : r.Builds depth read change ready fun _ ↦ True)
    (hrules : ChoiceBuilds depth rules read' change ready clean) :
    ChoiceBuilds depth (r :: rules) (fun bytes ↦ (read bytes).or (read' bytes)) change ready
      clean := by
  have h := cons_of_unclean hr hrules (fun _ _ h ↦ h) fun _ _ h ↦ absurd trivial h
  simp only [true_and] at h
  exact h

theorem builds (h : ChoiceBuilds depth rules read change ready clean) (name : Option String) :
    Rule.Builds (depth + 1) ⟨name, {}, .anyOf rules⟩ read change ready clean := by
  refine .of_kind fun input budget hbudget s hs hready ↦ ?_
  obtain ⟨⟨outcome, ended⟩, hreply, hbuilt⟩ := h input budget hbudget
    { s.silenceErrors with furthest := none } hs hready
  obtain ⟨s', hchoice, hsame⟩ := Evaluate.choice_eq name hreply
  refine ⟨_, hchoice, ?_⟩
  have hquiet : s.silenceErrors.Same { s.silenceErrors with furthest := none } :=
    ⟨⟨rfl, rfl, rfl, rfl⟩, rfl⟩
  change Built _ change _ (read s.rest) _ at hbuilt
  generalize read s.rest = found at hbuilt ⊢
  cases hbuilt with
  | ok ht => exact .ok ((hquiet.trans_took ht).unsilenceErrors.trans_same hsame)
  | fail hlost =>
    have hended : s.silenceErrors.Extends ended := hquiet.beyond.toExtends.trans hlost.toExtends
    exact .fail ⟨hended.unsilenceErrors.trans hsame.toUndone.extends, fun hclean ↦
      hsame.user_eq.trans (hlost.user_eq_of hclean)⟩

end ChoiceBuilds
end DocGrammar
