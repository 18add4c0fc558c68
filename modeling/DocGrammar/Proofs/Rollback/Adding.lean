import DocGrammar.Proofs.Diagnostics.Endings
import DocGrammar.Proofs.Rollback.Rounds

/-!
# Adding to the builder, or not

Going back restores the cursor and the results, but not the builder.  So what is left of a builder
behind a rule that does not match is a matter of what its actions have done, and here is what one
may ask of them: the open collections are as they were (`Builder.Kept`), or the innermost one has
got one more child (`Builder.Gained`).

A rule `Adds` if its replies do the one on a match and the other on failing.  The pending name is a
different matter: it may be lost by failing, except at the bytes at which the rule is *clean*.  The
alternatives behind a rule that is not clean would give their child the wrong name; so they must not
match where it has failed (`choiceAdds_cons_of_unclean`).
-/

set_option autoImplicit false

namespace DocGrammar

open TextGrammar (grammar)

variable {input : Array UInt8}

/-! ## What becomes of a builder -/

namespace Builder

/-- The same collections are open.  The innermost one may have other children than before. -/
structure Level (b b' : Builder) : Prop where
  /-- The collections around it are as they were. -/
  enclosing_eq : b'.enclosing = b.enclosing
  /-- It has its name, -/
  name_eq : b'.current.name = b.current.name
  /-- and is what it was opened as. -/
  form_eq : b'.current.form = b.current.form

/-- The open collections are as they were, and where it is clean, so is the pending name. -/
structure Kept (clean : Prop) (b b' : Builder) : Prop where
  /-- The collections around the innermost one are as they were, -/
  enclosing_eq : b'.enclosing = b.enclosing
  /-- and so is that, with its children. -/
  current_eq : b'.current = b.current
  /-- The pending name has not been touched. -/
  pending_eq_of : clean → b'.pending = b.pending

/-- The innermost open collection has got one more child, by this name, and no name is pending. -/
structure Gained (name : Name) (b b' : Builder) : Prop where
  /-- The collections around it are as they were. -/
  enclosing_eq : b'.enclosing = b.enclosing
  /-- It has got a child. -/
  current_eq : ∃ content, b'.current = b.current.push ⟨name, content⟩
  /-- The name has been used. -/
  pending_eq : b'.pending = none

variable {clean : Prop} {name : Name} {b b₁ b' : Builder}

theorem Level.refl (b : Builder) : b.Level b := ⟨rfl, rfl, rfl⟩

theorem Level.trans (h : b.Level b₁) (h' : b₁.Level b') : b.Level b' :=
  ⟨h'.enclosing_eq.trans h.enclosing_eq, h'.name_eq.trans h.name_eq, h'.form_eq.trans h.form_eq⟩

theorem Kept.level (h : b.Kept clean b') : b.Level b' :=
  ⟨h.enclosing_eq, h.current_eq ▸ rfl, h.current_eq ▸ rfl⟩

theorem Gained.level (h : b.Gained name b') : b.Level b' := by
  obtain ⟨content, hcurrent⟩ := h.current_eq
  exact ⟨h.enclosing_eq, hcurrent ▸ rfl, hcurrent ▸ rfl⟩

theorem Kept.of_eq (h : b' = b) : b.Kept clean b' := h ▸ ⟨rfl, rfl, fun _ ↦ rfl⟩

theorem Kept.imp {clean' : Prop} (h : b.Kept clean b') (hclean : clean' → clean) :
    b.Kept clean' b' :=
  ⟨h.enclosing_eq, h.current_eq, fun h' ↦ h.pending_eq_of (hclean h')⟩

theorem Kept.trans (h : b.Kept clean b₁) (h' : b₁.Kept clean b') : b.Kept clean b' :=
  ⟨h'.enclosing_eq.trans h.enclosing_eq, h'.current_eq.trans h.current_eq, fun hclean ↦
    (h'.pending_eq_of hclean).trans (h.pending_eq_of hclean)⟩

theorem Kept.gained (h : b.Kept clean b₁) (h' : b₁.Gained name b') : b.Gained name b' := by
  obtain ⟨content, hcurrent⟩ := h'.current_eq
  exact ⟨h'.enclosing_eq.trans h.enclosing_eq, ⟨content, h.current_eq ▸ hcurrent⟩, h'.pending_eq⟩

theorem Kept.nextName_eq (h : b.Kept True b') : b'.nextName = b.nextName := by
  rw [nextName, h.pending_eq_of trivial, nextName]

theorem emit_gained (b : Builder) (content : Content Doc) :
    b.Gained b.nextName (b.emit content) :=
  ⟨rfl, ⟨content, rfl⟩, rfl⟩

/-- A collection is added by the name that was pending when it was opened, if what is inside it has
used up all names. -/
theorem closeBranch_gained {form : Form} (h : (b.openBranch form).Level b')
    (hpending : b'.pending = none) : b.Gained b.nextName b'.closeBranch := by
  have henclosing : b'.enclosing = b.current :: b.enclosing := h.enclosing_eq
  have hname : b'.current.name = b.nextName := h.name_eq
  rw [closeBranch, henclosing]
  exact ⟨rfl, ⟨.collection b'.current.form b'.current.children, hname ▸ rfl⟩, hpending⟩

/-- A collection that is dropped takes its children with it. -/
theorem discardBranch_kept {form : Form} (h : (b.openBranch form).Level b') :
    b.Kept False b'.discardBranch := by
  have henclosing : b'.enclosing = b.current :: b.enclosing := h.enclosing_eq
  rw [discardBranch, henclosing]
  exact ⟨rfl, rfl, False.elim⟩

end Builder

/-! ## What evaluation does to it -/

/-- What a reply has done to the builder of a state: a child has been added, by a name that it might
be given, or nothing has. -/
inductive Added (named : Name → Prop) (clean : Prop) (s : State input Builder) :
    Reply input Builder → Prop
  | child {name : Name} {s' : State input Builder} (hname : named name)
      (hsilenced : s'.resultsSilenced = s.resultsSilenced) (h : s.user.Gained name s'.user) :
      Added named clean s (.ok, s')
  | nothing {s' : State input Builder} (hsilenced : s'.resultsSilenced = s.resultsSilenced)
      (h : s.user.Kept clean s'.user) : Added named clean s (.fail, s')

/-- Evaluation adds a child or nothing, where results are heard.  The names and the bytes at which
it is clean may depend on the builder and on what is left to read. -/
def Adds (named : Builder → List UInt8 → Name → Prop) (clean : List UInt8 → Prop)
    (step : Step input Builder) : Prop :=
  ∀ ⦃s reply⦄, step s = some reply → s.resultsSilenced = 0 →
    Added (named s.user s.rest) (clean s.rest) s reply

/-- The pending name, as the name of a child. -/
def Pending (b : Builder) (_ : List UInt8) (name : Name) : Prop := name = b.nextName

/-- The name in a heading, as the name of a child. -/
def Headed (_ : Builder) (bytes : List UInt8) (name : Name) : Prop :=
  ∃ text rest, Direct.heading bytes = some (text, rest) ∧ name = .ofString text

section

variable {named : Name → Prop} {clean : Prop} {s s₁ : State input Builder}
  {reply : Reply input Builder}

/-- A reply with the same outcome, whose state hears the same and has the same builder. -/
theorem Added.congr {reply' : Reply input Builder} (h : Added named clean s reply)
    (houtcome : reply'.1 = reply.1)
    (hsilenced : reply'.2.resultsSilenced = reply.2.resultsSilenced)
    (huser : reply'.2.user = reply.2.user) : Added named clean s reply' := by
  obtain ⟨outcome, s'⟩ := reply'
  cases h with
  | child hname hs h =>
    cases houtcome
    exact .child hname (hsilenced.trans hs) (huser ▸ h)
  | nothing hs h =>
    cases houtcome
    exact .nothing (hsilenced.trans hs) (huser ▸ h)

/-- What is added behind something that has kept the builder. -/
theorem Added.after {named' : Name → Prop} {clean' : Prop} (h : Added named' clean' s₁ reply)
    (hsilenced : s₁.resultsSilenced = s.resultsSilenced) (hkept : s.user.Kept clean s₁.user)
    (hnamed : ∀ name, named' name → named name) (hclean : clean → clean') :
    Added named clean s reply := by
  cases h with
  | child hname hs h => exact .child (hnamed _ hname) (hs.trans hsilenced) (hkept.gained h)
  | nothing hs h => exact .nothing (hs.trans hsilenced) (hkept.trans (h.imp hclean))

end

namespace Rule

variable {named : Builder → List UInt8 → Name → Prop} {clean : List UInt8 → Prop} {budget : Nat}

/-- A rule without modifiers adds what its kind does. -/
theorem evaluate_adds {name : Option String} {k : Kind Symbol Builder TextGrammar.TextRule}
    (h : ∀ less < budget, Adds named clean fun s : State input Builder ↦
      Evaluate.kind grammar (Rule.evaluate grammar less) name k s.position s) :
    Adds named clean
      (Rule.evaluate grammar budget ⟨name, {}, k⟩ : Step input Builder) := by
  intro s reply hreply hs
  rcases budget with _ | budget
  · cases hreply
  obtain ⟨entered, left, hsame, hbody, houtcome, hleft⟩ := step_eq_inv hreply
  have hadded := h budget (Nat.lt_succ_self budget) hbody (hsame.resultsSilenced_eq.trans hs)
  rw [hsame.user_eq, hsame.rest_eq] at hadded
  have hafter : Added (named s.user s.rest) (clean s.rest) s left :=
    hadded.after hsame.resultsSilenced_eq (.of_eq hsame.user_eq) (fun _ h ↦ h) fun h ↦ h
  refine hafter.congr houtcome ?_ ?_
  · rw [hleft.resultsSilenced_eq, settle_resultsSilenced]
  · rw [hleft.user_eq, settle_user]

/-- A rule that builds what a direct reader reads, and nothing else, adds it. -/
theorem Builds.adds {α : Type} {depth : Nat} {r : TextGrammar.TextRule}
    {read : List UInt8 → Option (α × List UInt8)} {change : α → Builder → Builder}
    (h : r.Builds depth read change (fun _ _ ↦ True) fun _ ↦ True)
    (hchange : ∀ (x : α) (b : Builder), b.Gained b.nextName (change x b)) :
    Adds Pending (fun _ ↦ True) (r.evaluate grammar budget : Step input Builder) := by
  intro s reply hreply hs
  have hbuilt := h.built hreply hs trivial
  generalize read s.rest = found at hbuilt
  cases hbuilt with
  | ok ht => exact .child rfl ht.resultsSilenced_eq (ht.user_eq ▸ hchange _ _)
  | fail hdropped =>
    exact .nothing hdropped.resultsSilenced_eq (.of_eq (hdropped.user_eq_of trivial))

/-- In a sequence, a rule that only moves on leaves the builder alone, whether the sequence ends
with it or not. -/
theorem Builds.inOrder_inv {α : Type} {depth : Nat} {r : TextGrammar.TextRule}
    {rules : List TextGrammar.TextRule} {read : List UInt8 → Option (α × List UInt8)}
    (h : r.Builds depth read (fun _ b ↦ b) (fun _ _ ↦ True) fun _ ↦ True)
    {s s' : State input Builder} {before outcome : Outcome} (hs : s.resultsSilenced = 0)
    (hreply : Evaluate.inOrder (Rule.evaluate grammar budget) (r :: rules) before s =
      some (outcome, s')) :
    outcome = .fail ∧ s'.user = s.user ∧ s'.resultsSilenced = s.resultsSilenced ∨
      read s.rest ≠ none ∧ ∃ s₁ : State input Builder, s₁.user = s.user ∧
        s₁.resultsSilenced = s.resultsSilenced ∧
        Evaluate.inOrder (Rule.evaluate grammar budget) rules .ok s₁ = some (outcome, s') := by
  obtain ⟨o, s₁, hfirst, hfail, hafter⟩ := Evaluate.inOrder_cons_inv hreply
  have hbuilt := h.built hfirst hs trivial
  generalize read s.rest = found at hbuilt
  cases hbuilt with
  | ok ht =>
    exact .inr ⟨Option.some_ne_none _, s₁, ht.user_eq, ht.resultsSilenced_eq, hafter nofun⟩
  | fail hdropped =>
    obtain ⟨rfl, rfl⟩ := hfail rfl
    exact .inl ⟨rfl, hdropped.user_eq_of trivial, hdropped.resultsSilenced_eq⟩

end Rule

namespace TextGrammar

variable {budget : Nat}

/-! ## Choices -/

/-- Some rules, tried in turn from the place where the state is, add a child or nothing. -/
def ChoiceAdds (rules : List TextRule) (clean : List UInt8 → Prop)
    (eval : TextRule → Step input Builder) : Prop :=
  ∀ ⦃start : Position⦄ ⦃s : State input Builder⦄ ⦃reply⦄, start.offset = s.cursor →
    s.resultsSilenced = 0 → Evaluate.firstOf eval start rules s = some reply →
      Added (Pending s.user s.rest) (clean s.rest) s reply

section

variable {rule : TextRule} {rules : List TextRule} {clean clean' : List UInt8 → Prop}
  {eval : TextRule → Step input Builder}

theorem choiceAdds_nil : ChoiceAdds [] (fun _ ↦ True) eval := by
  intro start s reply _ _ h
  cases h
  exact .nothing rfl (.of_eq rfl)

/-- Behind an alternative that is not clean, the others find the pending name gone; so they must add
nothing there. -/
theorem choiceAdds_cons_of_unclean (hrule : Adds Pending clean' (eval rule))
    (hrules : ChoiceAdds rules clean eval)
    (hunclean : ∀ ⦃start : Position⦄ ⦃s : State input Builder⦄ ⦃reply⦄, start.offset = s.cursor →
      s.resultsSilenced = 0 → ¬ clean' s.rest → Evaluate.firstOf eval start rules s = some reply →
        reply.1 = .fail) :
    ChoiceAdds (rule :: rules) (fun bytes ↦ clean' bytes ∧ clean bytes) eval := by
  rintro start s ⟨outcome, s'⟩ hstart hs h
  obtain ⟨o, s₁, hfirst, hok, hafter⟩ := Evaluate.firstOf_cons_inv h
  have hadded := hrule hfirst hs
  cases hadded with
  | child hname hsilenced hgained =>
    obtain ⟨rfl, rfl⟩ := hok rfl
    exact .child hname hsilenced hgained
  | nothing hsilenced hkept =>
    have hcursor : (s₁.restore start).cursor = s.cursor := State.restore_cursor hstart s₁
    have hrest := State.rest_eq_of_cursor_eq hcursor
    have hheard : (s₁.restore start).resultsSilenced = 0 := hsilenced.trans hs
    have hrules := hrules (hstart.trans hcursor.symm) hheard (hafter nofun)
    rw [hrest] at hrules
    by_cases hclean : clean' s.rest
    · have hkept' := hkept.imp fun _ : True ↦ hclean
      refine hrules.after hsilenced (hkept.imp And.left) (fun name h ↦ ?_) And.right
      exact h.trans hkept'.nextName_eq
    · have houtcome : outcome = .fail :=
        hunclean (hstart.trans hcursor.symm) hheard (hrest ▸ hclean) (hafter nofun)
      cases hrules with
      | child => cases houtcome
      | nothing hsilenced' hkept' =>
        exact .nothing (hsilenced'.trans hsilenced)
          ((hkept.imp And.left).trans (hkept'.imp And.right))

/-- Behind an alternative that is always clean, the others find the pending name. -/
theorem choiceAdds_cons (hrule : Adds Pending (fun _ ↦ True) (eval rule))
    (hrules : ChoiceAdds rules clean eval) : ChoiceAdds (rule :: rules) clean eval := by
  have h := choiceAdds_cons_of_unclean hrule hrules fun _ _ _ _ _ h ↦ absurd trivial h
  simp only [true_and] at h
  exact h

/-- A choice is its attempts, but for diagnostics. -/
theorem choice_adds (h : ChoiceAdds rules clean eval) (name : Option String) :
    Adds Pending clean fun s : State input Builder ↦
      Evaluate.choice eval name rules s.position s := by
  intro s reply hreply hs
  rcases hattempts : Evaluate.firstOf eval s.position rules
      { s.silenceErrors with furthest := none } with _ | ⟨outcome, ended⟩
  · simp only [Evaluate.choice, hattempts] at hreply
    cases hreply
  obtain ⟨s', hchoice, hsame⟩ := Evaluate.choice_eq name hattempts
  cases hreply.symm.trans hchoice
  have hadded : Added (Pending s.user s.rest) (clean s.rest) s (outcome, ended) :=
    (h (s := { s.silenceErrors with furthest := none }) rfl hs hattempts).after rfl (.of_eq rfl)
      (fun _ h ↦ h) fun h ↦ h
  exact hadded.congr rfl hsame.resultsSilenced_eq hsame.user_eq

end

end TextGrammar
end DocGrammar
