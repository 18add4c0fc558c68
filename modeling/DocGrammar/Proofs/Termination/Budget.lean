import DocGrammar.Grammar.Evaluate

/-!
# More budget changes nothing

The evaluator answers `none` if its budget does not suffice, and what it answers otherwise does not
depend on the budget.  So what is known of a rule for budgets that are large enough holds of its
answers for all budgets.

One level of evaluation gets the evaluator for the rules inside as an argument.  The lemmas compare
two of these, the second of which answers whatever the first one does.
-/

set_option autoImplicit false

namespace DocGrammar

variable {N U : Type} {input : Array UInt8}

/-- The second piece of evaluation answers as the first one does, if that answers at all. -/
def Follows (step step' : Step input U) : Prop :=
  ∀ ⦃s : State input U⦄ ⦃reply : Reply input U⦄, step s = some reply → step' s = some reply

/-- The same for the bodies of rules. -/
def FollowsFrom (body body' : Position → Step input U) : Prop :=
  ∀ start, Follows (body start) (body' start)

theorem Follows.refl (step : Step input U) : Follows step step := fun _ _ h ↦ h

theorem Program.run_follows {match? match?' : N → Step input U}
    (h : ∀ n, Follows (match? n) (match?' n)) {program : Program N input U}
    {reply : Reply input U} (hrun : program.run match? = some reply) :
    program.run match?' = some reply := by
  induction program with
  | done _ => exact hrun
  | call n s next ih =>
    rcases hmatch : match? n s with _ | found
    all_goals simp only [run, hmatch] at hrun
    · cases hrun
    · simp only [run, h n hmatch]
      exact ih found hrun

section

variable {eval eval' : Rule N U → Step input U} (heval : ∀ r, Follows (eval r) (eval' r))

namespace Evaluate

include heval

theorem inOrder_follows (rules : List (Rule N U)) (outcome : Outcome) :
    Follows (inOrder eval rules outcome) (inOrder eval' rules outcome) := by
  induction rules generalizing outcome with
  | nil => exact .refl _
  | cons rule rest ih =>
    intro s reply h
    rcases hrule : eval rule s with _ | ⟨_ | _ | _, s₁⟩
    all_goals simp only [inOrder, hrule] at h
    · cases h
    · simp only [inOrder, heval rule hrule]
      exact ih .ok h
    · simp only [inOrder, heval rule hrule]
      exact h
    · simp only [inOrder, heval rule hrule]
      exact ih outcome h

theorem firstOf_follows (start : Position) (rules : List (Rule N U)) :
    Follows (firstOf eval start rules) (firstOf eval' start rules) := by
  induction rules with
  | nil => exact .refl _
  | cons rule rest ih =>
    intro s reply h
    rcases hrule : eval rule s with _ | ⟨_ | _ | _, s₁⟩
    all_goals simp only [firstOf, hrule] at h
    · cases h
    · simp only [firstOf, heval rule hrule]
      exact h
    · simp only [firstOf, heval rule hrule]
      exact ih h
    · simp only [firstOf, heval rule hrule]
      exact ih h

theorem choice_follows (name : Option String) (rules : List (Rule N U)) :
    FollowsFrom (choice eval name rules) (choice eval' name rules) := by
  intro start s reply h
  rcases hattempts : firstOf eval start rules { s.silenceErrors with furthest := none } with
    _ | attempts
  all_goals simp only [choice, hattempts] at h
  · cases h
  · simp only [choice, firstOf_follows heval start rules hattempts]
    exact h

omit heval in
theorem bounded_follows {inside inside' : Step input U} (h : Follows inside inside')
    (opener closer : UInt8) :
    Follows (bounded opener closer inside) (bounded opener closer inside') := by
  intro s reply hreply
  unfold bounded at hreply ⊢
  split
  · next hpeek =>
    rw [if_pos hpeek] at hreply
    rcases hinside : inside (s.advance 1) with _ | found
    all_goals simp only [hinside] at hreply
    · cases hreply
    · simp only [h hinside]
      exact hreply
  · next hpeek =>
    rw [if_neg hpeek] at hreply
    exact hreply

theorem kind_follows (g : Grammar N U) (name : Option String) (k : Kind N U (Rule N U)) :
    FollowsFrom (kind g eval name k) (kind g eval' name k) := by
  intro start s reply h
  cases k with
  | bounded opener closer inner => exact bounded_follows (heval inner) opener closer h
  | anyOf rules => exact choice_follows heval name rules start h
  | allOf rules => exact inOrder_follows heval rules .noMatch h
  | reference rule => exact heval rule h
  | symbol n => exact heval (g n) h
  | leaf action => exact Program.run_follows (fun n ↦ heval (g n)) h
  | closing inner action =>
    rcases hinner : eval inner s with _ | ⟨_ | _ | _, s₁⟩
    all_goals simp only [kind, hinner] at h
    · cases h
    · simp only [kind, heval inner hinner]
      split
      · next hheard =>
        rw [if_pos hheard] at h
        exact Program.run_follows (fun n ↦ heval (g n)) h
      · next hheard =>
        rw [if_neg hheard] at h
        exact h
    · simp only [kind, heval inner hinner]
      exact h
    · simp only [kind, heval inner hinner]
      exact h
  | _ => exact h

end Evaluate

end

namespace Evaluate

variable {body body' : Position → Step input U} (hbody : FollowsFrom body body')

include hbody

theorem again_follows {rounds : Nat} {s s' : State input U} (h : again body rounds s = some s') :
    again body' rounds s = some s' := by
  induction rounds generalizing s with
  | zero => exact h
  | succ rounds ih =>
    rcases hround : body s.position s with _ | ⟨_ | _ | _, s₁⟩
    all_goals simp only [again, hround] at h
    · cases h
    · simp only [again, hbody _ hround]
      split
      · next hlt =>
        rw [if_pos hlt] at h
        exact ih h
      · next hlt =>
        rw [if_neg hlt] at h
        exact h
    · simp only [again, hbody _ hround]
      exact h
    · simp only [again, hbody _ hround]
      exact h

theorem repeated_follows : FollowsFrom (repeated body) (repeated body') := by
  intro start s reply h
  rcases hfirst : body start s with _ | ⟨_ | _ | _, s₁⟩
  all_goals simp only [repeated, hfirst] at h
  · cases h
  · rcases hagain : again body (input.size + 1 - s₁.cursor) s₁.silenceErrors with _ | s₂
    all_goals simp only [hagain] at h
    · cases h
    · simp only [repeated, hbody _ hfirst, again_follows hbody hagain]
      exact h
  · simp only [repeated, hbody _ hfirst]
    exact h
  · simp only [repeated, hbody _ hfirst]
    exact h

theorem optional_follows : FollowsFrom (optional body) (optional body') := by
  intro start s reply h
  rcases hquiet : body start s.silenceErrors with _ | ⟨_ | _ | _, s₁⟩
  all_goals simp only [optional, hquiet] at h
  · cases h
  all_goals
    simp only [optional, hbody _ hquiet]
    exact h

theorem lookahead_follows : FollowsFrom (lookahead body) (lookahead body') := by
  intro start s reply h
  rcases hquiet : body start s.silenceResults with _ | ⟨outcome, s₁⟩
  all_goals simp only [lookahead, hquiet] at h
  · cases h
  · simp only [lookahead, hbody _ hquiet]
    exact h

theorem flat_follows : FollowsFrom (flat body) (flat body') := by
  intro start s reply h
  rcases hspan : lookahead body start s with _ | ⟨_ | _ | _, s₁⟩
  all_goals simp only [flat, hspan] at h
  · cases h
  all_goals
    simp only [flat, lookahead_follows hbody _ hspan]
    exact h

theorem modified_follows (m : Modifiers) : FollowsFrom (modified m body) (modified m body') := by
  have hwrap {wrapper : (Position → Step input U) → Position → Step input U}
      (hwrapper : ∀ {body body'}, FollowsFrom body body' →
        FollowsFrom (wrapper body) (wrapper body'))
      (wanted : Bool) {body body' : Position → Step input U} (hbody : FollowsFrom body body') :
      FollowsFrom (wrapIf wanted wrapper body) (wrapIf wanted wrapper body') := by
    cases wanted with
    | false => exact hbody
    | true => exact hwrapper hbody
  exact hwrap optional_follows _ <| hwrap lookahead_follows _ <| hwrap flat_follows _ <|
    hwrap optional_follows _ <| hwrap repeated_follows _ hbody

end Evaluate

namespace Rule

theorem step_follows {eval eval' : Rule N U → Step input U}
    (heval : ∀ r, Follows (eval r) (eval' r)) (g : Grammar N U) (r : Rule N U) :
    Follows (r.step g eval) (r.step g eval') := by
  intro s reply h
  have hbody := Evaluate.modified_follows (Evaluate.kind_follows heval g r.name r.kind) r.modifiers
  rcases hreply : Evaluate.modified r.modifiers (Evaluate.kind g eval r.name r.kind) s.position
      (s.noted fun _ ↦ .enter (r.label g) s.position.offset) with _ | found
  all_goals simp only [step, hreply] at h
  · cases h
  · simp only [step, hbody _ hreply]
    exact h

/-- **More budget changes nothing.** -/
theorem evaluate_follows (g : Grammar N U) {budget budget' : Nat} (h : budget ≤ budget')
    (r : Rule N U) :
    Follows (r.evaluate g budget) (r.evaluate g budget' : Step input U) := by
  induction budget generalizing budget' r with
  | zero =>
    intro s reply hreply
    cases hreply
  | succ budget ih =>
    rcases budget' with _ | budget'
    · exact absurd h (Nat.not_succ_le_zero budget)
    · intro s reply hreply
      exact step_follows (fun inner ↦ ih (Nat.le_of_succ_le_succ h) inner) g r hreply

/-- A rule has one reply at most, whatever the budget. -/
theorem evaluate_unique {g : Grammar N U} {r : Rule N U} {budget budget' : Nat} {s : State input U}
    {reply reply' : Reply input U} (h : r.evaluate g budget s = some reply)
    (h' : r.evaluate g budget' s = some reply') : reply = reply' :=
  Option.some.inj ((evaluate_follows g (Nat.le_max_left budget budget') r h).symm.trans
    (evaluate_follows g (Nat.le_max_right budget budget') r h'))

end Rule
end DocGrammar
