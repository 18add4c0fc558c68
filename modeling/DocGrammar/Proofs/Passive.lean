import DocGrammar.Grammar.Leaf
import DocGrammar.Proofs.Lockstep

/-!
# Where results are silenced, actions do not run

A closing action works on the results of its rule, so it is left out where results are silenced.  A
rule without leaves of its own does nothing then but match: the results and the grammar's data stay
as they are.  And it matches what the rule matches from which the closing actions have been taken
away, whether results are silenced or not (`Rule.passive`).

The second run adds results that the first one does not, so the two have different stacks, go back
to different positions, and silence results to different depths; they write down different labels as
well.  None of this has any bearing on the way that they take.
-/

set_option autoImplicit false

namespace DocGrammar

variable {N U : Type} {input : Array UInt8}

/-! ## Rules without closing actions -/

mutual

/-- A rule with a reference in place of everything that closes with an action. -/
def Rule.passive : Rule N U → Rule N U
  | ⟨name, modifiers, kind⟩ => ⟨name, modifiers, Kind.passive kind⟩

/-- A kind of rule with references in place of everything that closes with an action. -/
def Kind.passive : Kind N U (Rule N U) → Kind N U (Rule N U)
  | .bounded opener closer inner => .bounded opener closer (Rule.passive inner)
  | .anyOf rules => .anyOf (Rule.passiveAll rules)
  | .allOf rules => .allOf (Rule.passiveAll rules)
  | .reference rule => .reference (Rule.passive rule)
  | .closing inner _ => .reference (Rule.passive inner)
  | kind => kind

/-- Rules with references in place of everything that closes with an action. -/
def Rule.passiveAll : List (Rule N U) → List (Rule N U)
  | [] => []
  | rule :: rest => Rule.passive rule :: Rule.passiveAll rest

end

/-- A grammar with references in place of everything that closes with an action. -/
def Grammar.passive (g : Grammar N U) : Grammar N U := fun n ↦ (g n).passive

/-- A rule is a leaf, or it leads to one through any number of references. -/
inductive Rule.HasLeaf (g : Grammar N U) : Rule N U → Prop
  | here {r : Rule N U} (action : Action N U) (h : r.kind = .leaf @action) : HasLeaf g r
  | within {r rule : Rule N U} (hrule : rule ∈ r.kind.inner g) (h : HasLeaf g rule) : HasLeaf g r

mutual

/-- Nothing that occurs within a rule is a leaf.  Symbols are not followed. -/
def Rule.leafless : Rule N U → Bool
  | ⟨_, _, kind⟩ => Kind.leafless kind

/-- Nothing that occurs within a kind is a leaf. -/
def Kind.leafless : Kind N U (Rule N U) → Bool
  | .bounded _ _ inner => Rule.leafless inner
  | .anyOf rules => Rule.leaflessAll rules
  | .allOf rules => Rule.leaflessAll rules
  | .reference rule => Rule.leafless rule
  | .leaf _ => false
  | .closing inner _ => Rule.leafless inner
  | _ => true

/-- Nothing that occurs within one of several rules is a leaf. -/
def Rule.leaflessAll : List (Rule N U) → Bool
  | [] => true
  | rule :: rest => Rule.leafless rule && Rule.leaflessAll rest

end

theorem Rule.leafless_of_mem_all {rules : List (Rule N U)} (h : Rule.leaflessAll rules = true)
    {rule : Rule N U} (hrule : rule ∈ rules) : rule.leafless = true := by
  induction rules with
  | nil => cases hrule
  | cons first rest ih =>
    obtain ⟨hfirst, hrest⟩ := Bool.and_eq_true_iff.1 h
    rcases List.mem_cons.1 hrule with rfl | hrule
    · exact hfirst
    · exact ih hrest hrule

theorem Rule.leafless_of_mem_inner {g : Grammar N U} (hg : ∀ n, (g n).leafless = true)
    {r rule : Rule N U} (hr : r.leafless = true) (hrule : rule ∈ r.kind.inner g) :
    rule.leafless = true := by
  obtain ⟨name, m, kind⟩ := r
  cases kind with
  | bounded opener closer inner => exact List.mem_singleton.1 hrule ▸ hr
  | anyOf rules => exact leafless_of_mem_all hr hrule
  | allOf rules => exact leafless_of_mem_all hr hrule
  | reference inner => exact List.mem_singleton.1 hrule ▸ hr
  | symbol n => exact List.mem_singleton.1 hrule ▸ hg n
  | closing inner action => exact List.mem_singleton.1 hrule ▸ hr
  | _ => exact absurd hrule List.not_mem_nil

/-- If no leaf occurs within a rule and within the rules of the grammar, it leads to none. -/
theorem Rule.not_hasLeaf {g : Grammar N U} (hg : ∀ n, (g n).leafless = true) {r : Rule N U}
    (hr : r.leafless = true) : ¬ r.HasLeaf g := by
  intro h
  induction h with
  | @here r action hkind =>
    obtain ⟨name, m, kind⟩ := r
    cases hkind
    cases hr
  | within hrule _ ih => exact ih (leafless_of_mem_inner hg hr hrule)

theorem Rule.passive_name (r : Rule N U) : r.passive.name = r.name := by
  cases r
  rfl

theorem Rule.passive_modifiers (r : Rule N U) : r.passive.modifiers = r.modifiers := by
  cases r
  rfl

theorem Rule.passive_kind (r : Rule N U) : r.passive.kind = r.kind.passive := by
  cases r
  rfl

namespace Evaluate

variable (eval : Rule N U → Step input U)

theorem inOrder_passive (rules : List (Rule N U)) (outcome : Outcome) :
    inOrder eval (Rule.passiveAll rules) outcome =
      inOrder (fun rule ↦ eval rule.passive) rules outcome := by
  induction rules generalizing outcome with
  | nil => rfl
  | cons rule rest ih =>
    funext s
    simp only [Rule.passiveAll, inOrder, ih]

theorem firstOf_passive (start : Position) (rules : List (Rule N U)) :
    firstOf eval start (Rule.passiveAll rules) =
      firstOf (fun rule ↦ eval rule.passive) start rules := by
  induction rules with
  | nil => rfl
  | cons rule rest ih =>
    funext s
    simp only [Rule.passiveAll, firstOf, ih]

/-- What runs no action matches the rules inside it in their passive form, and is the same
otherwise. -/
theorem kind_passive (g : Grammar N U) (name : Option String) {k : Kind N U (Rule N U)}
    (hk : ∀ action : Action N U, ¬ k.Runs @action) :
    kind g.passive eval name k.passive = kind g (fun rule ↦ eval rule.passive) name k := by
  funext start s
  cases k with
  | anyOf rules => simp only [Kind.passive, kind, choice, firstOf_passive]
  | allOf rules => simp only [Kind.passive, kind, inOrder_passive]
  | leaf action => exact absurd rfl (hk @action)
  | closing inner action => exact absurd rfl (hk @action)
  | _ => rfl

end Evaluate
/-! ## A run that is not heard -/

namespace State

/-- In the first state results are silenced, to the given depth and one more, and there is nothing
but the given results and data.  The second state differs from it in results, in how far they are
silenced, and in what was traced. -/
structure Unheard (values : List Value) (user : U) (depth : Nat) (s s' : State input U) :
    Prop where
  results_eq : s.results = values
  silenced_eq : s.resultsSilenced = depth + 1
  user_eq : s.user = user
  /-- The rest is the same. -/
  rest_eq : ∃ results resultsSilenced trace, s' = { s with results, resultsSilenced, trace }

/-- The two positions have the same offset, and going back to the first one keeps the given
results. -/
structure Keeping (values : List Value) (p p' : Position) : Prop where
  offset_eq : p'.offset = p.offset
  le_results : values.length ≤ p.results

namespace Unheard

variable {values : List Value} {user : U} {depth : Nat} {s s' : State input U}

theorem noted (h : Unheard values user depth s s') (event event' : Unit → Event) :
    Unheard values user depth (s.noted event) (s'.noted event') := by
  obtain ⟨hresults, hsilenced, huser, results, resultsSilenced, trace, rfl⟩ := h
  refine ⟨by simpa using hresults, by simpa using hsilenced, by simpa using huser, ?_⟩
  rcases hold : s.trace with _ | old <;> rcases trace with _ | new
  all_goals simp only [State.noted, hold]
  all_goals exact ⟨_, _, _, rfl⟩

theorem commitUnlessSilenced (h : Unheard values user depth s s') (f : Failure) :
    Unheard values user depth (s.commitUnlessSilenced f) (s'.commitUnlessSilenced f) := by
  obtain ⟨hresults, hsilenced, huser, results, resultsSilenced, trace, rfl⟩ := h
  refine ⟨by simpa using hresults, by simpa using hsilenced, by simpa using huser, ?_⟩
  unfold State.commitUnlessSilenced
  split
  · exact ⟨results, resultsSilenced, trace, rfl⟩
  · exact ⟨results, resultsSilenced, trace, rfl⟩

theorem record (h : Unheard values user depth s s') (f : Failure) :
    Unheard values user depth (s.record f) (s'.record f) := by
  obtain ⟨hresults, hsilenced, huser, results, resultsSilenced, trace, rfl⟩ := h
  exact ⟨hresults, hsilenced, huser, results, resultsSilenced, trace, rfl⟩

theorem failAt (h : Unheard values user depth s s') (offset : Nat) (reason : Reason) :
    Unheard values user depth (s.failAt offset reason).2 (s'.failAt offset reason).2 :=
  ((h.noted _ _).record _).commitUnlessSilenced _

/-- A result that is pushed is dropped in the first state. -/
theorem push (h : Unheard values user depth s s') (value : Value) :
    Unheard values user depth (s.push value) (s'.push value) := by
  obtain ⟨hresults, hsilenced, huser, results, resultsSilenced, trace, rfl⟩ := h
  have hdropped : s.push value = s := if_neg (by omega)
  rw [hdropped]
  refine ⟨hresults, hsilenced, huser, ?_⟩
  unfold State.push
  split
  · exact ⟨_, resultsSilenced, trace, rfl⟩
  · exact ⟨results, resultsSilenced, trace, rfl⟩

theorem restore (h : Unheard values user depth s s') {p p' : Position} (hp : Keeping values p p') :
    Unheard values user depth (s.restore p) (s'.restore p') := by
  obtain ⟨hresults, hsilenced, huser, results, resultsSilenced, trace, rfl⟩ := h
  refine ⟨?_, hsilenced, huser, results.take p'.results, resultsSilenced, trace, ?_⟩
  · show s.results.take p.results = values
    rw [hresults, List.take_of_length_le hp.le_results]
  · simp only [State.restore, hp.offset_eq]
    rfl

theorem rejoin {ended ended' : State input U} (h : Unheard values user depth ended ended')
    (outer : Option Failure) :
    Unheard values user depth (Evaluate.rejoin outer ended) (Evaluate.rejoin outer ended') := by
  obtain ⟨hresults, hsilenced, huser, results, resultsSilenced, trace, rfl⟩ := h
  unfold Evaluate.rejoin
  dsimp only
  split
  · exact ⟨hresults, hsilenced, huser, results, resultsSilenced, trace, rfl⟩
  · exact ⟨hresults, hsilenced, huser, results, resultsSilenced, trace, rfl⟩

theorem unsilenceErrors (h : Unheard values user depth s s') :
    Unheard values user depth s.unsilenceErrors s'.unsilenceErrors := by
  obtain ⟨hresults, hsilenced, huser, results, resultsSilenced, trace, rfl⟩ := h
  exact ⟨hresults, hsilenced, huser, results, resultsSilenced, trace, rfl⟩

theorem conclude {ended ended' : State input U} (h : Unheard values user depth s s')
    (hended : Unheard values user depth ended ended') (name : Option String) (offset : Nat)
    (outcome : Outcome) :
    Unheard values user depth (Evaluate.conclude name offset s outcome ended)
      (Evaluate.conclude name offset s' outcome ended') := by
  have hrejoin := hended.unsilenceErrors.rejoin s.furthest
  obtain ⟨-, -, -, _, _, _, rfl⟩ := h
  obtain ⟨-, -, -, _, _, _, rfl⟩ := hended
  unfold Evaluate.conclude
  dsimp only
  split
  · exact hrejoin
  · split
    · split
      · exact hrejoin.commitUnlessSilenced _
      · exact hrejoin.failAt _ _
    · exact hrejoin.failAt _ _

/-- The engine goes the same way in both, and silences results further in both. -/
theorem lockstep (values : List Value) (user : U) :
    Lockstep (Unheard values user : Nat → State input U → State input U → Prop)
      (Keeping values) where
  cursor_eq := by
    rintro _ s _ ⟨-, -, -, _, _, _, rfl⟩
    rfl
  offset_eq h := h.offset_eq
  position := by
    rintro _ s _ ⟨hresults, -, -, _, _, _, rfl⟩
    exact ⟨rfl, Nat.le_of_eq (congrArg List.length hresults.symm)⟩
  restore h _ _ hp := h.restore hp
  advance := by
    rintro _ s _ ⟨hresults, hsilenced, huser, _, _, _, rfl⟩ n
    exact ⟨hresults, hsilenced, huser, _, _, _, rfl⟩
  push := push
  failAt := failAt
  silenceErrors := by
    rintro _ s _ ⟨hresults, hsilenced, huser, _, _, _, rfl⟩
    exact ⟨hresults, hsilenced, huser, _, _, _, rfl⟩
  unsilenceErrors := unsilenceErrors
  muted depth := by
    refine ⟨depth + 1, ?_, ?_⟩
    · rintro s _ ⟨hresults, hsilenced, huser, _, _, _, rfl⟩
      exact ⟨hresults, congrArg (· + 1) hsilenced, huser, _, _, _, rfl⟩
    · rintro s _ ⟨hresults, hsilenced, huser, _, _, _, rfl⟩
      exact ⟨hresults, congrArg (· - 1) hsilenced, huser, _, _, _, rfl⟩
  tried depth := by
    refine ⟨depth, ?_, fun h hended ↦ h.conclude hended⟩
    rintro s _ ⟨hresults, hsilenced, huser, _, _, _, rfl⟩
    exact ⟨hresults, hsilenced, huser, _, _, _, rfl⟩

end Unheard
end State

/-! ## Whole rules -/

namespace Evaluate

/-- A kind of rule where results are silenced, and its passive form. -/
theorem kind_passive_simulates {values : List Value} {user : U} {g : Grammar N U}
    {eval eval' : Rule N U → Step input U} {k : Kind N U (Rule N U)}
    (hinner : ∀ r ∈ k.inner g, ∀ depth,
      Simulates (State.Unheard values user depth) (eval r) (eval' r.passive))
    (hleaf : ∀ action : Action N U, k ≠ .leaf @action) (name : Option String) :
    SimulatesFrom (State.Unheard values user) (State.Keeping values) (kind g eval name k)
      (kind g.passive eval' name k.passive) := by
  by_cases hk : ∀ action : Action N U, ¬ k.Runs @action
  · rw [kind_passive eval' g name hk]
    exact kind_simulates (State.Unheard.lockstep values user) hinner name fun action hruns ↦
      absurd hruns (hk @action)
  · -- the action is left out, since results are silenced
    rintro depth start start' - s s' h
    cases k with
    | leaf action => exact absurd rfl (hleaf @action)
    | closing inner action =>
      simp only [kind, Kind.passive]
      rcases (hinner inner List.mem_cons_self depth).cases h with
        ⟨h₁, h₁'⟩ | ⟨_ | _ | _, s₁, s₁', h₁, h₁', hs⟩
      all_goals simp only [h₁, h₁']
      · exact .none
      · have hsilenced : s₁.resultsSilenced ≠ 0 := by
          rw [hs.silenced_eq]
          exact Nat.succ_ne_zero depth
        rw [if_neg hsilenced]
        exact .some ⟨rfl, hs⟩
      · exact .some ⟨rfl, hs⟩
      · exact .some ⟨rfl, hs⟩
    | _ => exact absurd (fun _ ↦ id) hk

end Evaluate

namespace Rule

/-- Matching a rule where results are silenced, and its passive form, by induction on the budget. -/
theorem evaluate_simulates_passive {values : List Value} {user : U} {g : Grammar N U}
    (budget : Nat) {r : Rule N U} (hr : ¬ r.HasLeaf g) (depth : Nat) :
    Simulates (State.Unheard values user depth) (r.evaluate g budget : Step input U)
      (r.passive.evaluate g.passive budget) := by
  induction budget generalizing r depth with
  | zero => exact fun _ _ _ ↦ .none
  | succ budget ih =>
    refine step_simulates (State.Unheard.lockstep values user) (fun h event ↦ h.noted _ _)
      r.passive_modifiers ?_ depth
    rw [passive_kind, passive_name]
    exact Evaluate.kind_passive_simulates
      (fun rule hrule depth ↦ ih (fun hleaf ↦ hr (.within hrule hleaf)) depth)
      (fun action haction ↦ hr (.here action haction)) r.name

/-- **Testing runs no action.**  Let a rule lead to no leaf.  Matching it where results are silenced
leaves results and data as they are.  It comes to the same outcome, cursor, committed and furthest
failure as matching its passive form in the same state, but with results not silenced, and if one of
the two terminates, so does the other. -/
theorem evaluate_silenced (g : Grammar N U) (budget : Nat) (r : Rule N U) (hr : ¬ r.HasLeaf g)
    (s : State input U) (hs : s.resultsSilenced ≠ 0) :
    Option.Rel (fun (outcome, t) (outcome', t') ↦
        (t.user = s.user ∧ t.results = s.results) ∧
          outcome' = outcome ∧ t'.cursor = t.cursor ∧ t'.error = t.error ∧
            t'.furthest = t.furthest)
      (r.evaluate g budget s)
      (r.passive.evaluate g.passive budget { s with resultsSilenced := 0 }) := by
  obtain ⟨depth, hdepth⟩ := Nat.exists_eq_succ_of_ne_zero hs
  have hunheard : State.Unheard s.results s.user depth s { s with resultsSilenced := 0 } :=
    ⟨rfl, hdepth, rfl, _, _, _, rfl⟩
  obtain ⟨h₁, h₁'⟩ | ⟨outcome, t, t', h₁, h₁', ht⟩ :=
    (evaluate_simulates_passive budget hr depth).cases hunheard
  · rw [h₁, h₁']
    exact .none
  · obtain ⟨hresults, -, huser, _, _, _, rfl⟩ := ht
    rw [h₁, h₁']
    exact .some ⟨⟨huser, hresults⟩, rfl, rfl, rfl, rfl⟩

/-! ### A number that is too large -/

/-- Behind a sign there are nineteen digits, and the number is too large.  Where results are
silenced that is not found out: the rule matches, and so does its passive form. -/
theorem evaluate_silenced_tooLarge :
    ¬ (Leaf.signedDecimal : Rule Empty Unit).HasLeaf nofun ∧
      ∃ t t', (Leaf.signedDecimal : Rule Empty Unit).evaluate nofun 8
          { beforeTooLarge with resultsSilenced := 1 } = some (.ok, t) ∧
        (Leaf.signedDecimal : Rule Empty Unit).passive.evaluate (Grammar.passive nofun) 8
          { beforeTooLarge with resultsSilenced := 0 } = some (.ok, t') ∧
        t.cursor = 21 ∧ t'.cursor = 21 ∧ t.results = [.null] := by
  have hleafless : ¬ (Leaf.signedDecimal : Rule Empty Unit).HasLeaf nofun :=
    not_hasLeaf nofun rfl
  have hmatched : ((Leaf.signedDecimal : Rule Empty Unit).evaluate nofun 8
      { beforeTooLarge with resultsSilenced := 1 }).map (fun (outcome, t) ↦ (outcome, t.cursor)) =
        some (.ok, 21) := by decide
  obtain ⟨⟨outcome, t⟩, h, heq⟩ := Option.map_eq_some_iff.1 hmatched
  obtain ⟨rfl, hcursor⟩ := Prod.mk.inj heq
  have hsame := evaluate_silenced _ 8 Leaf.signedDecimal hleafless
    { beforeTooLarge with resultsSilenced := 1 } Nat.one_ne_zero
  rw [h] at hsame
  generalize (Leaf.signedDecimal : Rule Empty Unit).passive.evaluate (Grammar.passive nofun) 8
    { beforeTooLarge with resultsSilenced := 0 } = reply? at hsame ⊢
  cases hsame with
  | @some _ reply' hreply =>
    obtain ⟨outcome', t'⟩ := reply'
    obtain ⟨⟨-, hresults⟩, rfl, hcursor', -⟩ := hreply
    exact ⟨hleafless, t, t', h, rfl, hcursor, hcursor'.trans hcursor, hresults⟩

end Rule
end DocGrammar
