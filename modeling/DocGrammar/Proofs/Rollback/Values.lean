import DocGrammar.Proofs.Printing.Documents
import DocGrammar.Proofs.Rollback.Adding
import DocGrammar.Proofs.Termination.Documents

/-!
# A value adds one child, or none

A value that does not match leaves the open collections as they were, whatever has been read of it:
what is added at the end of an alternative is added when it has matched, and a collection that fails
takes what it has gathered with it.  What may be lost is the pending name: opening a collection uses
it up, and a member that fails behind its name leaves that name behind.

So the proof has to follow where a name may be pending.  Inside a collection none is between the
items, unless an item has failed somewhere else than at the closing bracket; but then the closing
bracket is not there, and the collection fails too (`body_fills`).

The main result is `value_and_member_roll_back`, for every builder: evaluation comes to an end, and
the outcome tells which of the two it was.
-/

set_option autoImplicit false

namespace DocGrammar
namespace TextGrammar

variable {input : Array UInt8} {budget : Nat}

/-! ## Collections -/

/-- What a reply has to have done to a builder in which a collection has just been opened. -/
structure Filled (b : Builder) (reply : Reply input Builder) : Prop where
  /-- Results are heard. -/
  heard : reply.2.resultsSilenced = 0
  /-- The same collections are open. -/
  level : b.Level reply.2.user
  /-- If the reply is a match, no name is pending. -/
  settled : reply.1 = .ok ∧ reply.2.user.pending = none ∨ reply.1 = .fail

theorem Filled.fail {b : Builder} {s : State input Builder} (hs : s.resultsSilenced = 0)
    (huser : s.user = b) : Filled b (.fail, s) :=
  ⟨hs, huser ▸ .refl _, .inr rfl⟩

/-- Evaluation fills a collection that has just been opened. -/
def Fills (step : Step input Builder) : Prop :=
  ∀ ⦃s reply⦄, step s = some reply → s.resultsSilenced = 0 → s.user.pending = none →
    Filled s.user reply

/-- A collection adds itself, or drops what it has gathered.  It is clean where it does not
begin. -/
theorem scope_adds (form : Form)
    (hbody : ∀ less < budget, Fills
      ((grammar (bodyOf form)).evaluate grammar less : Step input Builder)) :
    Adds Pending (·.head? ≠ some (opener form))
      ((Rule.leaf (scope form)).evaluate grammar budget : Step input Builder) := by
  refine Rule.evaluate_adds fun less hless s reply hreply hs ↦ ?_
  change (scope form s s.position).run (fun n ↦ (grammar n).evaluate grammar less) = some reply
    at hreply
  rw [scope, State.peek_eq] at hreply
  by_cases hhead : s.rest.head? = some (opener form)
  · rw [if_pos hhead] at hreply
    rcases hmatch : (grammar (bodyOf form)).evaluate grammar less
        { s with user := s.user.openBranch form } with _ | ⟨outcome, s₁⟩
    all_goals simp only [Program.run, hmatch] at hreply
    · cases hreply
    obtain ⟨hheard, hlevel, ⟨rfl, hpending⟩ | rfl⟩ := hbody less hless hmatch hs rfl
    all_goals have hsilenced : s₁.resultsSilenced = s.resultsSilenced := hheard.trans hs.symm
    · cases hreply
      exact .child rfl hsilenced (Builder.closeBranch_gained hlevel hpending)
    · cases hreply
      exact .nothing hsilenced ((Builder.discardBranch_kept hlevel).imp fun h ↦ h hhead)
  · rw [if_neg hhead] at hreply
    cases hreply
    exact .nothing (State.failAt_resultsSilenced s _ _) (.of_eq (State.failAt_user s _ _))

/-- A collection of one form is not tried in vain at the opening bracket of the other. -/
theorem scope_refused (form : Form) {s : State input Builder} {reply : Reply input Builder}
    (hreply : (Rule.leaf (scope form)).evaluate grammar budget s = some reply)
    (hs : s.resultsSilenced = 0) (hhead : s.rest.head? ≠ some (opener form)) :
    reply.1 = .fail := by
  have hnothing : (Rule.leaf (scope form)).Builds 1
      (fun _ ↦ (none : Option (Unit × List UInt8))) (fun _ b ↦ b)
      (fun _ bytes ↦ bytes.head? ≠ some (opener form)) fun _ ↦ True :=
    Direct.scope_refuses form
  have hbuilt := hnothing.built hreply hs hhead
  cases hbuilt with
  | fail => rfl

/-- Between the items of a collection: no name is pending, unless the closing bracket is not what
comes next. -/
structure Between (b : Builder) (form : Form) (s : State input Builder) : Prop where
  /-- Results are heard. -/
  heard : s.resultsSilenced = 0
  /-- The same collections are open as when the items began. -/
  level : b.Level s.user
  /-- No name is pending before the closing bracket. -/
  pending_eq_of : s.rest.head? = some (closer form) → s.user.pending = none

theorem between_standing (b : Builder) (form : Form) :
    Standing (Between b form : State input Builder → Prop) := by
  intro s s' h hcursor hsilenced huser
  refine ⟨hsilenced.trans h.heard, huser ▸ h.level, fun hhead ↦ ?_⟩
  rw [State.rest_eq_of_cursor_eq hcursor] at hhead
  exact huser ▸ h.pending_eq_of hhead

section

variable {item : Symbol} {named : Builder → List UInt8 → Name → Prop} {clean : List UInt8 → Prop}
  (form : Form) (hcloses : ∀ bytes, bytes.head? = some (closer form) → clean bytes)

include hcloses

/-- An item and the fluff behind it.  If the item has been added, no name is pending; and if it
fails at the closing bracket, it has left none. -/
theorem round_upholds (b : Builder)
    (hitem : Adds named clean
      ((Rule.symbol item).evaluate grammar budget : Step input Builder)) :
    UpholdsFrom (Between b form)
      (Evaluate.kind grammar (Rule.evaluate grammar budget) none
        (.allOf [.symbol item, act Fluff.skip]) : Position → Step input Builder) := by
  rintro s ⟨outcome, s'⟩ hbetween hreply
  obtain ⟨o, s₁, hfirst, hfail, hafter⟩ := Evaluate.inOrder_cons_inv hreply
  have hadded := hitem hfirst hbetween.heard
  cases hadded with
  | child hname hsilenced hgained =>
    have hheard := hsilenced.trans hbetween.heard
    obtain ⟨huser', hsilenced'⟩ : s'.user = s₁.user ∧ s'.resultsSilenced = s₁.resultsSilenced := by
      obtain ⟨-, huser', hsilenced'⟩ | ⟨-, s₂, huser₂, hsilenced₂, hend⟩ :=
        Direct.skip_builds.inOrder_inv hheard (hafter nofun)
      · exact ⟨huser', hsilenced'⟩
      · cases hend
        exact ⟨huser₂, hsilenced₂⟩
    refine ⟨?_, ?_, fun _ ↦ ?_⟩
    · rw [Rule.settle_resultsSilenced]
      exact hsilenced'.trans hheard
    · rw [Rule.settle_user, huser']
      exact hbetween.level.trans hgained.level
    · rw [Rule.settle_user, huser']
      exact hgained.pending_eq
  | nothing hsilenced hkept =>
    obtain ⟨rfl, rfl⟩ := hfail rfl
    refine ⟨hsilenced.trans hbetween.heard, hbetween.level.trans hkept.level, fun hhead ↦ ?_⟩
    have hcursor : (s'.restore s.position).cursor = s.cursor := State.restore_cursor rfl s'
    change (s'.restore s.position).rest.head? = _ at hhead
    rw [State.rest_eq_of_cursor_eq hcursor] at hhead
    exact (hkept.pending_eq_of (hcloses _ hhead)).trans (hbetween.pending_eq_of hhead)

/-- **The items of a collection** leave no name pending before the closing bracket, however many
there are. -/
theorem items_between (b : Builder)
    (hitem : ∀ less < budget, Adds named clean
      ((Rule.symbol item).evaluate grammar less : Step input Builder))
    {s s' : State input Builder} {outcome : Outcome} (hs : Between b form s)
    (hreply : (thenFluff (.symbol item)).repeatedOrNone.evaluate grammar budget s =
      some (outcome, s')) : Between b form s' := by
  rcases budget with _ | budget
  · cases hreply
  have hround : UpholdsFrom (Between b form)
      (Evaluate.kind grammar (Rule.evaluate grammar budget) none
        (.allOf [.symbol item, act Fluff.skip]) : Position → Step input Builder) :=
    round_upholds form hcloses b (hitem budget (Nat.lt_succ_self budget))
  have hstanding : Standing (Between b form : State input Builder → Prop) :=
    between_standing b form
  have hbody := Evaluate.optional_upholds hstanding (Evaluate.repeated_upholds hstanding hround)
  exact Rule.step_upholds (r := (thenFluff (.symbol item)).repeatedOrNone) hstanding hbody hs hreply

/-- The items of a collection and its closing bracket. -/
theorem gathering_filled (b : Builder)
    (hitem : ∀ less < budget, Adds named clean
      ((Rule.symbol item).evaluate grammar less : Step input Builder))
    {s : State input Builder} {reply : Reply input Builder} (hs : Between b form s)
    (hreply : Evaluate.inOrder (Rule.evaluate grammar budget)
      [(thenFluff (.symbol item)).repeatedOrNone, act (collectionEnd form)] .ok s = some reply) :
    Filled b reply := by
  obtain ⟨outcome, s'⟩ := reply
  obtain ⟨o, s₁, hitems, hfail, hafter⟩ := Evaluate.inOrder_cons_inv hreply
  obtain ⟨hheard, hlevel, hpending⟩ := items_between form hcloses b hitem hs hitems
  by_cases ho : o = .fail
  · obtain ⟨rfl, rfl⟩ := hfail ho
    exact ⟨hheard, hlevel, .inr rfl⟩
  have hclosing := hafter ho
  obtain ⟨rfl, huser, hsilenced⟩ | ⟨hread, s₂, huser, hsilenced, hend⟩ :=
    (Direct.Ends.builds (Direct.collectionEnd_ends form)).inOrder_inv hheard hclosing
  · exact ⟨hsilenced.trans hheard, huser ▸ hlevel, .inr rfl⟩
  · cases hend
    -- the closing bracket is there, so no name is pending
    have hhead : s₁.rest.head? = some (closer form) := by
      by_contra hhead
      exact hread (if_neg hhead)
    exact ⟨hsilenced.trans hheard, huser ▸ hlevel, .inl ⟨rfl, huser ▸ hpending hhead⟩⟩

/-- **The body of a collection** uses up all names if it reaches the closing bracket. -/
theorem body_fills
    (hitem : ∀ less < budget, Adds named clean
      ((Rule.symbol item).evaluate grammar less : Step input Builder)) :
    Fills ((body form item).evaluate grammar budget : Step input Builder) := by
  rintro s ⟨outcome, s'⟩ hreply hs hpending
  rcases budget with _ | budget
  · cases hreply
  obtain ⟨entered, ⟨o, left⟩, hsame, hparts, houtcome, hleft⟩ := Rule.step_eq_inv hreply
  have hentered : entered.resultsSilenced = 0 := hsame.resultsSilenced_eq.trans hs
  have hfilled : Filled s.user (o, left) := by
    obtain ⟨rfl, huser, hsilenced⟩ | ⟨-, s₁, huser₁, hsilenced₁, hparts⟩ :=
      (Direct.opener_builds form).inOrder_inv hentered hparts
    · exact .fail (hsilenced.trans hentered) (huser.trans hsame.user_eq)
    have hs₁ : s₁.resultsSilenced = 0 := hsilenced₁.trans hentered
    obtain ⟨rfl, huser, hsilenced⟩ | ⟨-, s₂, huser₂, hsilenced₂, hparts⟩ :=
      Direct.skip_builds.inOrder_inv hs₁ hparts
    · exact .fail (hsilenced.trans hs₁) (huser.trans (huser₁.trans hsame.user_eq))
    have huser : s₂.user = s.user := huser₂.trans (huser₁.trans hsame.user_eq)
    refine gathering_filled form hcloses s.user
      (fun less hless ↦ hitem less (Nat.lt_succ_of_lt hless)) ⟨hsilenced₂.trans hs₁, ?_, ?_⟩ hparts
    · exact huser ▸ .refl _
    · exact fun _ ↦ huser ▸ hpending
  obtain ⟨hheard, hlevel, hsettled⟩ := hfilled
  have huser : s'.user = left.user := hleft.user_eq.trans (Rule.settle_user _ _)
  refine ⟨?_, huser ▸ hlevel, ?_⟩
  · rw [hleft.resultsSilenced_eq, Rule.settle_resultsSilenced]
    exact hheard
  · rw [houtcome, huser]
    exact hsettled

end

/-! ## Members -/

theorem symbol_adds {named : Builder → List UInt8 → Name → Prop} {clean : List UInt8 → Prop}
    (item : Symbol)
    (h : ∀ less < budget, Adds named clean
      ((grammar item).evaluate grammar less : Step input Builder)) :
    Adds named clean ((Rule.symbol item).evaluate grammar budget : Step input Builder) :=
  Rule.evaluate_adds h

/-- A string, blanks and an equals sign keep the builder, but for the string. -/
theorem heading_kept {s s' : State input Builder} {outcome : Outcome} (hs : s.resultsSilenced = 0)
    (hreply : (Rule.allOf [string, Leaf.spaceMaybe, (Rule.byte 0x3D).lookahead]).evaluate grammar 7
      s = some (outcome, s')) : s.user.Kept True s'.user := by
  obtain ⟨entered, ⟨o, left⟩, hsame, hparts, -, hleft⟩ := Rule.step_eq_inv hreply
  have hentered : entered.resultsSilenced = 0 := hsame.resultsSilenced_eq.trans hs
  have hkept : entered.user.Kept True left.user := by
    obtain ⟨o₁, s₁, hstring, hfail, hafter⟩ := Evaluate.inOrder_cons_inv hparts
    have hbuilt := Direct.string_builds.built hstring hentered trivial
    generalize Direct.string entered.rest = found at hbuilt
    cases hbuilt with
    | fail hdropped =>
      obtain ⟨-, rfl⟩ := hfail rfl
      exact .of_eq (hdropped.user_eq_of trivial)
    | @ok text _ _ _ ht =>
      have hread : entered.user.Kept True s₁.user := by
        rw [ht.user_eq]
        exact ⟨rfl, rfl, fun _ ↦ rfl⟩
      obtain ⟨reply, hequals, hbuilt⟩ := Direct.equals_builds input 6 (by decide) s₁
        (ht.resultsSilenced_eq.trans hentered) trivial
      cases (hafter nofun).symm.trans hequals
      dsimp only at hbuilt
      generalize Option.map _ (Direct.behindEquals s₁.rest) = found at hbuilt
      cases hbuilt with
      | ok ht' => exact ht'.user_eq ▸ hread
      | fail hlost => exact hlost.user_eq_of trivial ▸ hread
  rw [hleft.user_eq, Rule.settle_user]
  exact hsame.user_eq ▸ hkept

/-- A name and an equals sign make the name pending, or keep the builder, but for a string. -/
theorem memberName_inv {s s' : State input Builder} {outcome : Outcome}
    (hreply : memberName.evaluate grammar budget s = some (outcome, s'))
    (hs : s.resultsSilenced = 0) :
    s'.resultsSilenced = s.resultsSilenced ∧
      ((∃ text rest, Direct.heading s.rest = some (text, rest) ∧ outcome = .ok ∧
          s'.user = Direct.name text s.user) ∨
        outcome = .fail ∧ s.user.Kept True s'.user) := by
  obtain ⟨reply, hreply', hbuilt⟩ :=
    Direct.memberName_builds input 8 (Nat.le_refl _) s hs trivial
  obtain rfl := Rule.evaluate_unique hreply hreply'
  cases hheading : Direct.heading s.rest with
  | some found =>
    obtain ⟨text, rest⟩ := found
    rw [hheading] at hbuilt
    cases hbuilt with
    | ok ht => exact ⟨ht.resultsSilenced_eq, .inl ⟨text, rest, rfl, rfl, ht.user_eq⟩⟩
  | none =>
    rw [hheading] at hbuilt
    cases hbuilt with
    | fail hdropped =>
      refine ⟨hdropped.resultsSilenced_eq, .inr ⟨rfl, ?_⟩⟩
      obtain ⟨entered, ⟨o, left⟩, hsame, hbody, houtcome, hleft⟩ := Rule.step_eq_inv hreply'
      have hentered : entered.resultsSilenced = 0 := hsame.resultsSilenced_eq.trans hs
      change Evaluate.kind grammar (Rule.evaluate grammar 7) (some "name") (.closing
        (.allOf [string, Leaf.spaceMaybe, (Rule.byte 0x3D).lookahead])
        (DirectAction.toAction setName)) entered.position entered = some (o, left) at hbody
      rw [hleft.user_eq, Rule.settle_user, ← hsame.user_eq]
      rcases hparts : (Rule.allOf [string, Leaf.spaceMaybe, (Rule.byte 0x3D).lookahead]).evaluate
        grammar 7 entered with _ | reply
      · simp only [Evaluate.kind, hparts] at hbody
        cases hbody
      have hnothing := Direct.headingParts_builds.built hparts hentered trivial
      rw [hsame.rest_eq, hheading] at hnothing
      cases hnothing with
      | fail =>
        simp only [Evaluate.kind, hparts] at hbody
        cases hbody
        exact heading_kept hentered hparts

/-- A member adds what its value does, by the name in front of it.  It is clean where there is no
name. -/
theorem member_adds {clean : List UInt8 → Prop}
    (hvalue : ∀ less < budget, Adds Pending clean
      (value.evaluate grammar less : Step input Builder)) :
    Adds Headed (Direct.string · = none)
      (member.evaluate grammar budget : Step input Builder) := by
  refine Rule.evaluate_adds fun less hless s reply hreply hs ↦ ?_
  obtain ⟨outcome, s'⟩ := reply
  obtain ⟨o, s₁, hname, hfail, hafter⟩ := Evaluate.inOrder_cons_inv hreply
  obtain ⟨hsilenced, ⟨text, rest, hheading, rfl, huser⟩ | ⟨rfl, hkept⟩⟩ := memberName_inv hname hs
  · have hunclean : Direct.string s.rest ≠ none := by
      intro hstring
      rw [Direct.heading, hstring] at hheading
      cases hheading
    have hkept : s.user.Kept (Direct.string s.rest = none) s₁.user := by
      rw [huser]
      exact ⟨rfl, rfl, fun h ↦ absurd h hunclean⟩
    obtain ⟨rfl, huser', hsilenced'⟩ | ⟨-, s₂, huser₂, hsilenced₂, hparts⟩ :=
      Direct.skip_builds.inOrder_inv (hsilenced.trans hs) (hafter (by decide))
    · exact .nothing (hsilenced'.trans hsilenced) (huser' ▸ hkept)
    · obtain ⟨o₃, s₃, hlast, hfail, hend⟩ := Evaluate.inOrder_cons_inv hparts
      have hheard := hsilenced₂.trans hsilenced
      have hadded := symbol_adds .value (fun less' hless' ↦ hvalue less' (by omega)) hlast
        (hheard.trans hs)
      have hafter : Added (Headed s.user s.rest) (Direct.string s.rest = none) s (o₃, s₃) := by
        refine hadded.after hheard (huser₂ ▸ hkept) (fun name h ↦ ?_) fun h ↦ absurd h hunclean
        exact ⟨text, rest, hheading, h.trans (by rw [huser₂, huser]; rfl)⟩
      cases hadded with
      | child =>
        cases hend (by decide)
        exact hafter
      | nothing =>
        obtain ⟨rfl, rfl⟩ := hfail rfl
        exact hafter
  · obtain ⟨rfl, rfl⟩ := hfail rfl
    exact .nothing hsilenced (hkept.imp fun _ ↦ trivial)

/-! ## Values -/

/-- A value begins with no bracket.  This is where it is clean. -/
def Unbracketed (bytes : List UInt8) : Prop :=
  bytes.head? ≠ some (opener .array) ∧ bytes.head? ≠ some (opener .node)

/-- **A value adds one child or none**, by induction on the budget. -/
theorem value_adds (budget : Nat) :
    Adds Pending Unbracketed (value.evaluate grammar budget : Step input Builder) := by
  induction budget using Nat.strongRecOn with
  | ind budget ih =>
    have harray (less : Nat) (hless : less < budget) :
        Adds Pending (·.head? ≠ some (opener .array))
          ((Rule.leaf (scope .array)).evaluate grammar less : Step input Builder) := by
      refine scope_adds .array fun less₁ h₁ ↦ body_fills .array (fun bytes hhead ↦ ?_)
        fun less₂ h₂ ↦ symbol_adds .value fun less₃ h₃ ↦ ih less₃ (by omega)
      rw [Unbracketed, hhead]
      decide
    have hnode (less : Nat) (hless : less < budget) :
        Adds Pending (·.head? ≠ some (opener .node))
          ((Rule.leaf (scope .node)).evaluate grammar less : Step input Builder) := by
      refine scope_adds .node fun less₁ h₁ ↦ body_fills .node (fun bytes hhead ↦ ?_)
        fun less₂ h₂ ↦ symbol_adds .member fun less₃ h₃ ↦ member_adds fun less₄ h₄ ↦
          ih less₄ (by omega)
      rcases bytes with _ | ⟨b, bytes⟩
      · rfl
      · cases hhead
        exact Direct.string_eq_none_of_closes rfl bytes
    refine Rule.evaluate_adds fun less hless ↦ choice_adds ?_ _
    have hlast : ChoiceAdds [.leaf (scope .node)] (·.head? ≠ some (opener .node))
        (Rule.evaluate grammar less : TextRule → Step input Builder) := by
      have h := choiceAdds_cons_of_unclean (hnode less hless) choiceAdds_nil
        fun _ _ _ _ _ _ h ↦ by cases h; rfl
      simp only [and_true] at h
      exact h
    have hscopes : ChoiceAdds [.leaf (scope .array), .leaf (scope .node)] Unbracketed
        (Rule.evaluate grammar less : TextRule → Step input Builder) := by
      refine choiceAdds_cons_of_unclean (harray less hless) hlast
        fun start s reply _ hs hopened hreply ↦ ?_
      obtain ⟨outcome, s'⟩ := reply
      obtain ⟨o, s₁, hfirst, -, hafter⟩ := Evaluate.firstOf_cons_inv hreply
      -- behind the opening bracket of an array there is none of a node
      obtain rfl : o = .fail := scope_refused .node hfirst hs (by
        rw [not_not.1 hopened]
        decide)
      cases hafter nofun
      rfl
    have hnothing : malformedNumber.Builds 4 (fun _ ↦ (none : Option (Content Doc × List UInt8)))
        Direct.emit (fun _ _ ↦ True) fun _ ↦ True :=
      .of_reads_fail Direct.malformedNumber_reads
    have hstring : (after string emitString).Builds 7 Direct.string
        (fun text b ↦ { (Direct.keep text b).emit (.string text) with scratch := "" })
        (fun _ _ ↦ True) fun _ ↦ True :=
      Direct.string_builds.closing fun _ _ ↦ rfl
    exact choiceAdds_cons (Direct.scalar_builds.adds fun content b ↦ b.emit_gained content) <|
      choiceAdds_cons (hnothing.adds fun content b ↦ b.emit_gained content) <|
      choiceAdds_cons (hstring.adds fun text b ↦ ⟨rfl, ⟨.string text, rfl⟩, rfl⟩) <|
      choiceAdds_cons (Direct.vector_builds.adds fun content b ↦ b.emit_gained content) hscopes

/-! ## The main result -/

section

variable {s : State input Builder}

/-- A rule that comes to an end comes to the same end with more budget. -/
theorem ends_of_sure {R : State input Builder → State input Builder → Prop} {r : TextRule}
    {enough : Nat} (h : Sure R (input.size - s.cursor) (r.evaluate grammar enough)) :
    ∃ outcome s', ∀ spare, r.evaluate grammar (enough + spare) s = some (outcome, s') := by
  obtain ⟨outcome, s', hreply, -⟩ := h s (Nat.le_refl _)
  exact ⟨outcome, s', fun spare ↦
    Rule.evaluate_follows grammar (Nat.le_add_right enough spare) r hreply⟩

theorem value_ends : ∃ outcome s', ∀ spare,
    value.evaluate grammar (Doc.readBudget (input.size - s.cursor) + spare) s =
      some (outcome, s') := by
  refine ends_of_sure (value_sure deeper_descends _ ?_)
  rw [wordHeight, Doc.readBudget]
  omega

theorem member_ends : ∃ outcome s', ∀ spare,
    member.evaluate grammar (Doc.readBudget (input.size - s.cursor) + spare) s =
      some (outcome, s') := by
  have hmember (n : Nat) : Sure (State.Deeper 0) n
      (member.evaluate grammar (8 * n + 30 + 2) : Step input Builder) := by
    refine member_sure deeper_descends ?_ fun m hm ↦ value_sure deeper_descends m ?_
    all_goals
      rw [wordHeight]
      omega
  exact ends_of_sure (hmember _)

end

/-- What has become of a builder, in terms of its collections. -/
theorem added_items {named : Name → Prop} {clean : Prop} {s s' : State input Builder}
    {outcome : Outcome} (h : Added named clean s (outcome, s')) :
    s'.user.enclosing = s.user.enclosing ∧
      (outcome ≠ .ok → s'.user.current = s.user.current) ∧
      (outcome = .ok → s'.user.pending = none ∧
        s'.user.current.name = s.user.current.name ∧ s'.user.current.form = s.user.current.form ∧
        ∃ child, named child.name ∧
          s'.user.current.children.items = s.user.current.children.items ++ [child]) := by
  cases h with
  | child hname hsilenced h =>
    obtain ⟨content, hcurrent⟩ := h.current_eq
    refine ⟨h.enclosing_eq, fun hne ↦ absurd rfl hne, fun _ ↦ ⟨h.pending_eq, h.level.name_eq,
      h.level.form_eq, ⟨_, content⟩, hname, ?_⟩⟩
    rw [hcurrent]
    exact Doc.push_items _ _
  | nothing hsilenced h => exact ⟨h.enclosing_eq, fun _ ↦ h.current_eq, nofun⟩

/-- **A value or a member adds one child, or leaves the open collections as they were.**  Whatever
the builder is, and wherever reading starts, as long as results are heard, evaluation comes to an
end: a budget linear in the bytes that are left is enough, and more budget changes nothing.  The
stack of open collections is then what it was.  Without a match, the innermost of them has the
children it had; with a match, it has one more behind them, and no name is pending.  The child of a
value has the name that was pending, and that of a member the name that has been read; the latter is
what the direct reader finds in the heading. -/
theorem value_and_member_roll_back (s : State input Builder) (hs : s.resultsSilenced = 0) :
    (∃ outcome s',
      (∀ spare, value.evaluate grammar (Doc.readBudget (input.size - s.cursor) + spare) s =
        some (outcome, s')) ∧
      s'.user.enclosing = s.user.enclosing ∧
      (outcome ≠ .ok → s'.user.current = s.user.current) ∧
      (outcome = .ok → s'.user.pending = none ∧
        s'.user.current.name = s.user.current.name ∧ s'.user.current.form = s.user.current.form ∧
        ∃ child, child.name = s.user.nextName ∧
          s'.user.current.children.items = s.user.current.children.items ++ [child])) ∧
    ∃ outcome s',
      (∀ spare, member.evaluate grammar (Doc.readBudget (input.size - s.cursor) + spare) s =
        some (outcome, s')) ∧
      s'.user.enclosing = s.user.enclosing ∧
      (outcome ≠ .ok → s'.user.current = s.user.current) ∧
      (outcome = .ok → s'.user.pending = none ∧
        s'.user.current.name = s.user.current.name ∧ s'.user.current.form = s.user.current.form ∧
        ∃ child,
          (∃ text rest, Direct.heading s.rest = some (text, rest) ∧ child.name = .ofString text) ∧
          s'.user.current.children.items = s.user.current.children.items ++ [child]) := by
  refine ⟨?_, ?_⟩
  · obtain ⟨outcome, s', hreply⟩ := value_ends (s := s)
    exact ⟨outcome, s', hreply, added_items (value_adds _ (hreply 0) hs)⟩
  · obtain ⟨outcome, s', hreply⟩ := member_ends (s := s)
    exact ⟨outcome, s', hreply,
      added_items (member_adds (fun less _ ↦ value_adds less) (hreply 0) hs)⟩

/-- Inside two collections, with a child, a pending name and a result from before: `a` is a value,
and `a=[1` is no member. -/
theorem value_and_member_roll_back_unclosed :
    let s : State #[0x61, 0x3D, 0x5B, 0x31] Builder :=
      { results := [.null]
        user :=
          { current := { form := .array, children := { items := [{}] } }
            enclosing := [{ form := .node }]
            pending := some "p" } }
    (∃ s' content, value.evaluate grammar (Doc.readBudget 4) s = some (.ok, s') ∧
      s'.user.current.children.items = [{}, ⟨.ofString "p", content⟩]) ∧
    ∃ s', member.evaluate grammar (Doc.readBudget 4) s = some (.fail, s') ∧
      s'.user.enclosing = s.user.enclosing ∧ s'.user.current = s.user.current := by
  intro s
  obtain ⟨⟨o, s₁, hvalue, -, -, hok⟩, ⟨o', s₂, hmember, henclosing, hne, -⟩⟩ :=
    value_and_member_roll_back s rfl
  have ho : (value.evaluate grammar (Doc.readBudget 4) s).map Prod.fst = some .ok := by
    decide +kernel
  have ho' : (member.evaluate grammar (Doc.readBudget 4) s).map Prod.fst = some .fail := by
    decide +kernel
  have hvalue : value.evaluate grammar (Doc.readBudget 4) s = some (o, s₁) := hvalue 0
  have hmember : member.evaluate grammar (Doc.readBudget 4) s = some (o', s₂) := hmember 0
  rw [hvalue] at ho
  rw [hmember] at ho'
  obtain rfl : o = .ok := Option.some.inj ho
  obtain rfl : o' = .fail := Option.some.inj ho'
  obtain ⟨-, -, -, ⟨name, content⟩, rfl, hitems⟩ := hok rfl
  exact ⟨⟨s₁, content, hvalue, hitems⟩, s₂, hmember, henclosing, hne nofun⟩

end TextGrammar
end DocGrammar
