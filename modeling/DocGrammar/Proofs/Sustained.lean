import DocGrammar.Proofs.Termination.Steady

/-!
# What lasts through a recursive grammar

A guarded relation lasts through a rule if it lasts through the rules inside and through the
actions.  In a recursive grammar that is a circle, which the budget cuts: the rule of a symbol is
matched with less of it.  So a rule *sustains* a relation if the relation lasts through it, provided
that it lasts through the rules of all symbols with any smaller budget.  There is one lemma for each
kind of rule that other rules occur in; and where every symbol stands for a rule that sustains the
relation, it lasts without any proviso (`Rule.Sustains.leads`).
-/

set_option autoImplicit false

namespace DocGrammar

variable {N U : Type} {input : Array UInt8} {R : State input U → State input U → Prop}

/-- A relation that lasts through an action, whatever a symbol does that it asks for. -/
def LeadingAction (R : State input U → State input U → Prop) (action : Action N U) : Prop :=
  ∀ (match? : N → Step input U) (start : Position), Leads R fun s ↦ (action s start).run match?

theorem LeadingAction.of_direct {act : DirectAction U}
    (h : ∀ (s : State input U) (start : Position), R s (act s start).2) :
    LeadingAction (N := N) R (DirectAction.toAction @act) := by
  intro match? start s reply hreply
  cases hreply
  exact h s start

/-- The relation lasts through the rule, if it does through the rules of symbols with less of a
budget. -/
def Rule.Sustains (g : Grammar N U) (R : State input U → State input U → Prop) (r : Rule N U) :
    Prop :=
  ∀ budget, (∀ less < budget, ∀ n, Leads R ((g n).evaluate g less)) → Leads R (r.evaluate g budget)

namespace Rule.Sustains

variable {g : Grammar N U} {inert : String → Bool} {fits : UInt8 → Bool} {name : Option String}
  {m : Modifiers} {k : Kind N U (Rule N U)} {r : Rule N U} {rules : List (Rule N U)}

/-- **What all symbols sustain lasts.** -/
theorem leads (hr : r.Sustains g R) (hg : ∀ n, (g n).Sustains g R) (budget : Nat) :
    Leads R (r.evaluate g budget) := by
  have hsymbols : ∀ budget n, Leads R ((g n).evaluate g budget) := fun budget ↦ by
    induction budget using Nat.strongRecOn with
    | ind budget ih => exact fun n ↦ hg n budget ih
  exact hr budget fun less _ ↦ hsymbols less

/-- A rule sustains what the rules inside and its action do. -/
theorem of_inner (hR : Guarded inert fits R) (hlabel : inert (r.label g) = true)
    (hfits : r.kind.fits fits = true)
    (hinner : ∀ rule ∈ r.kind.inner g, rule.Sustains g R ∨ ∃ n, rule = g n)
    (hruns : ∀ action : Action N U, r.kind.Runs @action → ∀ match? : N → Step input U,
      (∀ n, Leads R (match? n)) → ∀ start, Leads R fun s ↦ (action s start).run match?) :
    r.Sustains g R := by
  intro budget hsymbols
  cases budget with
  | zero => exact fun _ _ h ↦ nomatch h
  | succ budget =>
    have hless := hsymbols budget (Nat.lt_succ_self budget)
    refine step_guarded hR hlabel hfits (fun rule hrule ↦ ?_)
      fun action haction s s₁ reply hs₁ hreply ↦ ?_
    · rcases hinner rule hrule with hsustains | ⟨n, rfl⟩
      · exact hsustains budget fun less hlt ↦ hsymbols less (Nat.lt_succ_of_lt hlt)
      · exact hless n
    · exact hR.trans hs₁ (hruns @action haction _ hless s.position s₁ reply hreply)

theorem symbol (hR : Guarded inert fits R) (n : N)
    (hlabel : inert (Rule.label g ⟨name, m, .symbol n⟩) = true) :
    Sustains g R ⟨name, m, .symbol n⟩ :=
  of_inner hR hlabel rfl (fun _ hrule ↦ .inr ⟨n, List.mem_singleton.1 hrule⟩) nofun

theorem allOf (hR : Guarded inert fits R)
    (hlabel : inert (Rule.label g ⟨name, m, .allOf rules⟩) = true)
    (h : ∀ rule ∈ rules, rule.Sustains g R) : Sustains g R ⟨name, m, .allOf rules⟩ :=
  of_inner hR hlabel rfl (fun rule hrule ↦ .inl (h rule hrule)) nofun

theorem anyOf (hR : Guarded inert fits R)
    (hlabel : inert (Rule.label g ⟨name, m, .anyOf rules⟩) = true)
    (h : ∀ rule ∈ rules, rule.Sustains g R) : Sustains g R ⟨name, m, .anyOf rules⟩ :=
  of_inner hR hlabel rfl (fun rule hrule ↦ .inl (h rule hrule)) nofun

theorem bounded (hR : Guarded inert fits R) {opener closer : UInt8}
    (hlabel : inert (Rule.label g ⟨name, m, .bounded opener closer r⟩) = true)
    (hopener : fits opener = true) (hcloser : fits closer = true) (h : r.Sustains g R) :
    Sustains g R ⟨name, m, .bounded opener closer r⟩ :=
  of_inner hR hlabel (by rw [Kind.fits, hopener, hcloser, Bool.and_self])
    (fun _ hrule ↦ .inl (List.mem_singleton.1 hrule ▸ h)) nofun

theorem closing (hR : Guarded inert fits R) {action : Action N U}
    (hlabel : inert (Rule.label g ⟨name, m, .closing r action⟩) = true) (h : r.Sustains g R)
    (haction : LeadingAction R @action) : Sustains g R ⟨name, m, .closing r action⟩ := by
  refine of_inner hR hlabel rfl (fun _ hrule ↦ .inl (List.mem_singleton.1 hrule ▸ h))
    fun action' hruns match? _ start ↦ ?_
  cases hruns
  exact haction match? start

theorem leaf (hR : Guarded inert fits R) {action : Action N U}
    (hlabel : inert (Rule.label g ⟨name, m, .leaf action⟩) = true)
    (haction : ∀ match? : N → Step input U, (∀ n, Leads R (match? n)) → ∀ start,
      Leads R fun s ↦ (action s start).run match?) : Sustains g R ⟨name, m, .leaf action⟩ := by
  refine of_inner hR hlabel rfl nofun fun action' hruns match? hmatch start ↦ ?_
  cases hruns
  exact haction match? hmatch start

end Rule.Sustains

/-- A relation lasts through a finite rule that stays within bounds. -/
theorem Rule.leads_of_fitsWithin {inert : String → Bool} {fits : UInt8 → Bool}
    (hR : Guarded inert fits R) {g : Grammar N U} {depth : Nat} {r : Rule N U}
    (hr : r.fitsWithin g inert fits depth = true) (hactions : r.Every (LeadingAction (N := N) R))
    (budget : Nat) : Leads R (r.evaluate g budget) := by
  induction budget generalizing r depth with
  | zero => exact fun _ _ h ↦ nomatch h
  | succ budget ih =>
    rcases depth with _ | depth
    · cases hr
    obtain ⟨name, m, k⟩ := r
    simp only [fitsWithin, Bool.and_eq_true] at hr
    obtain ⟨⟨hlabel, hfits⟩, hinner⟩ := hr
    refine step_guarded hR hlabel hfits (fun rule hrule ↦ ?_)
      fun action hruns s s₁ reply hs₁ hreply ↦
        hR.trans hs₁ (hactions.of_runs hruns _ s.position s₁ reply hreply)
    cases k with
    | bounded opener closer inner =>
      rw [List.mem_singleton.1 hrule]
      exact ih hinner hactions
    | anyOf rules =>
      exact ih (List.all_eq_true.1 hinner rule hrule) (everyIn_iff.1 hactions rule hrule)
    | allOf rules =>
      exact ih (List.all_eq_true.1 hinner rule hrule) (everyIn_iff.1 hactions rule hrule)
    | reference inner =>
      rw [List.mem_singleton.1 hrule]
      exact ih hinner hactions
    | symbol n => cases hinner
    | closing inner action =>
      rw [List.mem_singleton.1 hrule]
      exact ih hinner hactions.1
    | _ => exact absurd hrule List.not_mem_nil

end DocGrammar
