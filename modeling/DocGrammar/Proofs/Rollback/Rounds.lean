import DocGrammar.Proofs.Scan.Rest

/-!
# What holds between rounds

A rule goes back to where it started unless it succeeds, and a repetition does the same with its
last round.  In between anything may happen to the grammar's own data, which nobody restores.  So
there are things that hold of a state between two rounds and not in the middle of one: a round
*upholds* them if they hold again when it has succeeded, and also when it has not and the engine has
gone back.

What a round upholds the repetition does, and so does the rule (`Rule.step_upholds`).  What is
upheld may depend on the cursor, on whether results are heard, and on the grammar's data
(`Standing`); everything else changes between rounds as well.
-/

set_option autoImplicit false

namespace DocGrammar

variable {N U : Type} {input : Array UInt8}

/-! ## Replies to rules -/

namespace Rule

theorem settle_outcome (start : Position) (reply : Reply input U) :
    (settle start reply).1 = reply.1 := by
  obtain ⟨outcome, s⟩ := reply
  cases outcome with
  | ok => rfl
  | fail => rfl
  | noMatch => rfl

theorem settle_user (start : Position) (reply : Reply input U) :
    (settle start reply).2.user = reply.2.user := by
  obtain ⟨outcome, s⟩ := reply
  cases outcome with
  | ok => rfl
  | fail => rfl
  | noMatch => rfl

theorem settle_resultsSilenced (start : Position) (reply : Reply input U) :
    (settle start reply).2.resultsSilenced = reply.2.resultsSilenced := by
  obtain ⟨outcome, s⟩ := reply
  cases outcome with
  | ok => rfl
  | fail => rfl
  | noMatch => rfl

/-- The reply to a rule is that to its body, settled, but for diagnostics. -/
theorem step_eq_inv {g : Grammar N U} {eval : Rule N U → Step input U} {r : Rule N U}
    {s : State input U} {reply : Reply input U} (h : r.step g eval s = some reply) :
    ∃ entered left, s.Same entered ∧
      Evaluate.modified r.modifiers (Evaluate.kind g eval r.name r.kind) entered.position entered =
        some left ∧
      reply.1 = left.1 ∧ (settle entered.position left).2.Same reply.2 := by
  have hsame := s.noted_same fun _ ↦ .enter (r.label g) s.position.offset
  rcases hbody : Evaluate.modified r.modifiers (Evaluate.kind g eval r.name r.kind) s.position
      (s.noted fun _ ↦ .enter (r.label g) s.position.offset) with _ | left
  all_goals simp only [step, hbody] at h
  · cases h
  · cases h
    refine ⟨_, left, hsame, ?_, settle_outcome _ left, ?_⟩
    · rwa [hsame.position_eq]
    · rw [hsame.position_eq]
      exact State.noted_same (settle s.position left).2 fun _ ↦
        .leave (r.label g) (settle s.position left).2.cursor (settle s.position left).1

end Rule

/-! ## Upholding -/

/-- What a property says of a state it says of the cursor, of whether results are heard, and of the
grammar's data. -/
def Standing (I : State input U → Prop) : Prop :=
  ∀ ⦃s s' : State input U⦄, I s → s'.cursor = s.cursor →
    s'.resultsSilenced = s.resultsSilenced → s'.user = s.user → I s'

/-- Where the property holds of a state, it holds of the state that evaluation leaves, once that has
gone back unless it succeeded. -/
def Upholds (I : State input U → Prop) (step : Step input U) : Prop :=
  ∀ ⦃s : State input U⦄ ⦃reply⦄, I s → step s = some reply →
    I (Rule.settle s.position reply).2

/-- The same for the body of a rule, which is given the position it starts from. -/
def UpholdsFrom (I : State input U → Prop) (body : Position → Step input U) : Prop :=
  Upholds I fun s ↦ body s.position s

section

variable {I : State input U → Prop} (hI : Standing I) {body : Position → Step input U}

include hI

namespace Evaluate

omit hI in
theorem again_upholds (hbody : UpholdsFrom I body) (rounds : Nat) {s s' : State input U} (hs : I s)
    (h : again body rounds s = some s') : I s' := by
  induction rounds generalizing s with
  | zero =>
    cases h
    exact hs
  | succ rounds ih =>
    rcases hround : body s.position s with _ | ⟨_ | _ | _, s₁⟩
    all_goals simp only [again, hround] at h
    · cases h
    · have hs₁ : I s₁ := hbody hs hround
      split at h
      · exact ih hs₁ h
      · cases h
        exact hs₁
    · cases h
      exact hbody hs hround
    · cases h
      exact hbody hs hround

theorem repeated_upholds (hbody : UpholdsFrom I body) : UpholdsFrom I (repeated body) := by
  intro s reply hs h
  rcases hfirst : body s.position s with _ | ⟨_ | _ | _, s₁⟩
  all_goals simp only [repeated, hfirst] at h
  · cases h
  · have hs₁ : I s₁ := hbody hs hfirst
    rcases hagain : again body (input.size + 1 - s₁.cursor) s₁.silenceErrors with _ | s₂
    all_goals simp only [hagain] at h
    · cases h
    · cases h
      have hquiet : I s₁.silenceErrors := hI hs₁ rfl rfl rfl
      exact hI (again_upholds hbody _ hquiet hagain) rfl rfl rfl
  · cases h
    exact hbody hs hfirst
  · cases h
    exact hbody hs hfirst

theorem optional_upholds (hbody : UpholdsFrom I body) : UpholdsFrom I (optional body) := by
  intro s reply hs h
  have hquiet : I s.silenceErrors := hI hs rfl rfl rfl
  rcases hinside : body s.position s.silenceErrors with _ | ⟨_ | _ | _, s₁⟩
  all_goals simp only [optional, hinside] at h
  · cases h
  -- what was upheld in silence is upheld, and going back a second time does nothing
  all_goals
    cases h
    exact hI (hbody hquiet hinside) rfl rfl rfl

end Evaluate

/-- **What the body of a rule upholds still holds behind the rule**, whatever its outcome. -/
theorem Rule.step_upholds {g : Grammar N U} {eval : Rule N U → Step input U} {r : Rule N U}
    (hbody : UpholdsFrom I
      (Evaluate.modified r.modifiers (Evaluate.kind g eval r.name r.kind)))
    {s : State input U} {reply : Reply input U} (hs : I s) (h : r.step g eval s = some reply) :
    I reply.2 := by
  obtain ⟨entered, left, hsame, hreply, -, hleft⟩ := step_eq_inv h
  have hentered : I entered := hI hs hsame.cursor_eq hsame.resultsSilenced_eq hsame.user_eq
  exact hI (hbody hentered hreply) hleft.cursor_eq hleft.resultsSilenced_eq hleft.user_eq

end
end DocGrammar
