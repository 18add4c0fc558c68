import DocGrammar.Proofs.Diagnostics.Within

/-!
# What is refused at its first byte

Many rules see from the first byte that they do not match.  `Rule.refusal` computes from a rule and
a byte whether it is one of these, and then what the outcome is: a rule that may match nothing is
left out, and any other one fails.  `Rule.evaluate_refuses` shows that matching does come to that,
and that it has consumed nothing on the way.  So it keeps whatever the engine keeps without
consuming anything.
-/

set_option autoImplicit false

namespace DocGrammar

variable {N U : Type} {input : Array UInt8}

/-! ## Refusing a byte -/

/-- What modifiers make of a rule that is refused. -/
def Modifiers.refused (m : Modifiers) (outcome : Outcome) : Outcome :=
  if m.optional || m.repeatedOrNone then .noMatch else outcome

theorem Modifiers.refused_ne_ok (m : Modifiers) {outcome : Outcome} (hne : outcome ≠ .ok) :
    m.refused outcome ≠ .ok := by
  unfold Modifiers.refused
  split
  · decide
  · exact hne

/-- How a sequence is refused whose rules are refused as given, if it can be told: rules that are
left out are passed over. -/
def firstRefusal : List (Option Outcome) → Option Outcome
  | [] => some .noMatch
  | some .noMatch :: rest => firstRefusal rest
  | some .fail :: _ => some .fail
  | _ => none

/-- The outcome of a kind of rule that refuses a byte at once, if it can be told from what is known
of the rules inside. -/
def Kind.refusal (g : Grammar N U) (b : UInt8) (known : Rule N U → Option Outcome) :
    Kind N U (Rule N U) → Option Outcome
  | .byte c => if c = b then none else some .fail
  | .range low high => if low ≤ b && b ≤ high then none else some .fail
  | .literal (c :: _) => if c = b then none else some .fail
  | .bounded opener _ _ => if opener = b then none else some .fail
  | .anyOf rules => if rules.all fun r ↦ (known r).isSome then some .fail else none
  | .allOf rules => firstRefusal (rules.map known)
  | .reference rule => known rule
  | .symbol n => known (g n)
  | .closing inner _ => known inner
  | _ => none

/-- The outcome of a rule that refuses a byte at once, if it can be told by looking into the rule
down to some depth. -/
def Rule.refusal (g : Grammar N U) (b : UInt8) : Nat → Rule N U → Option Outcome
  | 0, _ => none
  | depth + 1, r => (r.kind.refusal g b (refusal g b depth)).map r.modifiers.refused

theorem firstRefusal_ne_ok : ∀ {refusals : List (Option Outcome)} {outcome : Outcome},
    firstRefusal refusals = some outcome → outcome ≠ .ok
  | [], _, h => by
    cases h
    decide
  | some .noMatch :: rest, _, h => firstRefusal_ne_ok (show firstRefusal rest = _ from h)
  | some .fail :: _, _, h => by
    cases h
    decide
  | some .ok :: _, _, h => by cases h
  | none :: _, _, h => by cases h

/-- A piece of evaluation has this outcome before a byte, and consumes nothing. -/
def Refuses (R : State input U → State input U → Prop) (b : UInt8) (outcome : Outcome)
    (step : Step input U) : Prop :=
  ∀ s : State input U, s.peek = some b →
    ∃ s', step s = some (outcome, s') ∧ s'.cursor = s.cursor ∧ R s s'

/-- The body of a rule has this outcome before a byte, if it starts where the state is. -/
def RefusesFrom (R : State input U → State input U → Prop) (b : UInt8) (outcome : Outcome)
    (body : Position → Step input U) : Prop :=
  ∀ (start : Position) (s : State input U), start.offset = s.cursor → s.peek = some b →
    ∃ s', body start s = some (outcome, s') ∧ s'.cursor = s.cursor ∧ R s s'

section

variable {R : State input U → State input U → Prop}
  (hR : Steady (fun _ ↦ true) (fun _ ↦ false) R) {b : UInt8}

include hR

theorem fail_refuses (s : State input U) (reason : Reason) :
    ∃ s', some (s.fail reason) = some (.fail, s') ∧ s'.cursor = s.cursor ∧ R s s' :=
  ⟨_, rfl, State.failAt_cursor s _ reason, hR.fail s reason⟩

namespace Evaluate

theorem inOrder_refuses {eval : Rule N U → Step input U} {refusal : Rule N U → Option Outcome}
    {rules : List (Rule N U)}
    (heval : ∀ r ∈ rules, ∀ outcome, refusal r = some outcome → Refuses R b outcome (eval r))
    {outcome : Outcome} (h : firstRefusal (rules.map refusal) = some outcome) :
    Refuses R b outcome (inOrder eval rules .noMatch) := by
  intro s hs
  induction rules generalizing s with
  | nil =>
    cases h
    exact ⟨s, rfl, rfl, hR.refl s⟩
  | cons r rest ih =>
    rw [List.map_cons] at h
    rcases hr : refusal r with _ | _ | _ | _
    all_goals simp only [hr, firstRefusal] at h
    · cases h
    · cases h
    · cases h
      obtain ⟨s₁, hreply, hcursor, h₁⟩ := heval r List.mem_cons_self _ hr s hs
      exact ⟨s₁, by simp only [inOrder, hreply], hcursor, h₁⟩
    · obtain ⟨s₁, hreply, hcursor, h₁⟩ := heval r List.mem_cons_self _ hr s hs
      obtain ⟨s', hrest, hcursor', h'⟩ := ih (fun r hr ↦ heval r (List.mem_cons_of_mem _ hr)) h s₁
        (by rwa [State.peek, hcursor])
      exact ⟨s', by simp only [inOrder, hreply, hrest], hcursor'.trans hcursor, hR.trans h₁ h'⟩

theorem firstOf_refuses {eval : Rule N U → Step input U} {rules : List (Rule N U)}
    (heval : ∀ r ∈ rules, ∃ outcome, outcome ≠ .ok ∧ Refuses R b outcome (eval r)) :
    RefusesFrom R b .fail fun start ↦ firstOf eval start rules := by
  intro start s hstart hs
  induction rules generalizing s with
  | nil => exact ⟨s, rfl, rfl, hR.refl s⟩
  | cons r rest ih =>
    obtain ⟨outcome, hne, hr⟩ := heval r List.mem_cons_self
    obtain ⟨s₁, hreply, hcursor, h₁⟩ := hr s hs
    have hback : (s₁.restore start).cursor = s.cursor :=
      (Nat.min_eq_left (hstart ▸ s.cursor_le)).trans hstart
    obtain ⟨s', hrest, hcursor', h'⟩ := ih (fun r hr ↦ heval r (List.mem_cons_of_mem _ hr))
      (s₁.restore start) (hstart.trans hback.symm) (by rwa [State.peek, hback])
    refine ⟨s', ?_, hcursor'.trans hback, hR.trans (hR.restore h₁ start hstart) h'⟩
    rcases outcome with _ | _ | _
    · exact absurd rfl hne
    · simp only [firstOf, hreply, hrest]
    · simp only [firstOf, hreply, hrest]

theorem choice_refuses {eval : Rule N U → Step input U} {rules : List (Rule N U)}
    (heval : ∀ r ∈ rules, ∃ outcome, outcome ≠ .ok ∧ Refuses R b outcome (eval r))
    (name : Option String) : RefusesFrom R b .fail (choice eval name rules) := by
  intro start s hstart hs
  obtain ⟨ended, hattempts, hcursor, hended⟩ := firstOf_refuses hR heval start
    { s.silenceErrors with furthest := none } hstart hs
  dsimp only at hattempts
  refine ⟨conclude name start.offset s .fail ended, ?_, ?_, ?_⟩
  · rw [choice_eq_conclude, hattempts]
    rfl
  · exact (conclude_same name start.offset s .fail ended).cursor_eq.trans hcursor
  · exact hstart ▸ hR.conclude hended name .fail

theorem oneByte_refuses {accepts : UInt8 → Bool} (haccepts : accepts b = false) (reason : Reason) :
    Refuses R b .fail fun s ↦ some (oneByte accepts reason s) := by
  intro s hs
  simp only [oneByte, hs, haccepts]
  exact fail_refuses hR s reason

theorem literal_refuses {c : UInt8} (hc : c ≠ b) (bytes : List UInt8) :
    RefusesFrom R b .fail fun start s ↦ some (literal (c :: bytes) start s) := by
  intro start s _ hs
  have hholds : State.holdsAt input s.cursor (c :: bytes) = false := by
    have hbyte : input[s.cursor]? = some b := hs
    simp [State.holdsAt, hbyte, hc.symm]
  simp only [literal, hholds]
  exact fail_refuses hR s _

theorem bounded_refuses {opener : UInt8} (hopener : opener ≠ b) (closer : UInt8)
    (inside : Step input U) : Refuses R b .fail (bounded opener closer inside) := by
  intro s hs
  have hpeek : ¬ s.peek = some opener := fun h ↦ hopener (Option.some.inj (h.symm.trans hs))
  simp only [bounded, if_neg hpeek]
  exact fail_refuses hR s _

omit hR in
/-- An action that closes a rule does not run if the rule is refused. -/
theorem closing_refuses {g : Grammar N U} {eval : Rule N U → Step input U} {inner : Rule N U}
    {outcome : Outcome} (hne : outcome ≠ .ok) (hinner : Refuses R b outcome (eval inner))
    (action : Action N U) (name : Option String) :
    RefusesFrom R b outcome (kind g eval name (.closing inner action)) := by
  intro start s _ hs
  obtain ⟨s₁, hreply, hcursor, h₁⟩ := hinner s hs
  refine ⟨s₁, ?_, hcursor, h₁⟩
  rcases outcome with _ | _ | _
  · exact absurd rfl hne
  · simp only [kind, hreply]
  · simp only [kind, hreply]

/-! ## Modifiers -/

theorem lookahead_refuses {body : Position → Step input U} {outcome : Outcome}
    (hbody : RefusesFrom R b outcome body) : RefusesFrom R b outcome (lookahead body) := by
  intro start s hstart hs
  obtain ⟨s₁, hreply, hcursor, h₁⟩ := hbody start s.silenceResults hstart hs
  exact ⟨s₁.unsilenceResults, by simp only [lookahead, hreply], hcursor, hR.muted h₁⟩

theorem flat_refuses {body : Position → Step input U} {outcome : Outcome} (hne : outcome ≠ .ok)
    (hbody : RefusesFrom R b outcome body) : RefusesFrom R b outcome (flat body) := by
  intro start s hstart hs
  obtain ⟨s₁, hreply, hcursor, h₁⟩ := lookahead_refuses hR hbody start s hstart hs
  refine ⟨s₁, ?_, hcursor, h₁⟩
  rcases outcome with _ | _ | _
  · exact absurd rfl hne
  · simp only [flat, hreply]
  · simp only [flat, hreply]

omit hR in
theorem repeated_refuses {body : Position → Step input U} {outcome : Outcome} (hne : outcome ≠ .ok)
    (hbody : RefusesFrom R b outcome body) : RefusesFrom R b outcome (repeated body) := by
  intro start s hstart hs
  obtain ⟨s₁, hreply, hcursor, h₁⟩ := hbody start s hstart hs
  refine ⟨s₁, ?_, hcursor, h₁⟩
  rcases outcome with _ | _ | _
  · exact absurd rfl hne
  · simp only [repeated, hreply]
  · simp only [repeated, hreply]

theorem optional_refuses {body : Position → Step input U} {outcome : Outcome} (hne : outcome ≠ .ok)
    (hbody : RefusesFrom R b outcome body) : RefusesFrom R b .noMatch (optional body) := by
  intro start s hstart hs
  obtain ⟨s₁, hreply, hcursor, h₁⟩ := hbody start s.silenceErrors hstart hs
  have hheard := hR.silently h₁
  rcases outcome with _ | _ | _
  · exact absurd rfl hne
  · refine ⟨_, by simp only [optional, hreply], ?_, hR.restore hheard start hstart⟩
    exact (Nat.min_eq_left (hstart ▸ s.cursor_le)).trans hstart
  · exact ⟨s₁.unsilenceErrors, by simp only [optional, hreply], hcursor, hheard⟩

theorem modified_refuses (m : Modifiers) {body : Position → Step input U} {outcome : Outcome}
    (hne : outcome ≠ .ok) (hbody : RefusesFrom R b outcome body) :
    RefusesFrom R b (m.refused outcome) (modified m body) := by
  obtain ⟨isOptional, isLookahead, isFlat, isRepeated, isRepeatedOrNone⟩ := m
  have hrepeated : RefusesFrom R b outcome
      (wrapIf (isRepeated || isRepeatedOrNone) repeated body) := by
    cases isRepeated || isRepeatedOrNone with
    | false => exact hbody
    | true => exact repeated_refuses hne hbody
  have hflat {outcome : Outcome} (hne : outcome ≠ .ok) {body : Position → Step input U}
      (hbody : RefusesFrom R b outcome body) :
      RefusesFrom R b outcome (wrapIf isLookahead lookahead (wrapIf isFlat flat body)) := by
    have hspan : RefusesFrom R b outcome (wrapIf isFlat flat body) := by
      cases isFlat with
      | false => exact hbody
      | true => exact flat_refuses hR hne hbody
    cases isLookahead with
    | false => exact hspan
    | true => exact lookahead_refuses hR hspan
  cases isRepeatedOrNone with
  | false =>
    have hinside := hflat hne hrepeated
    cases isOptional with
    | false => exact hinside
    | true => exact optional_refuses hR hne hinside
  | true =>
    have hinside := hflat (by decide) (optional_refuses hR hne hrepeated)
    cases isOptional with
    | false => exact hinside
    | true => exact optional_refuses hR (by decide) hinside

end Evaluate

/-! ## Whole rules -/

theorem Kind.refuses {g : Grammar N U} {eval : Rule N U → Step input U}
    {known : Rule N U → Option Outcome} {k : Kind N U (Rule N U)}
    (heval : ∀ r ∈ k.inner g, ∀ outcome, known r = some outcome →
      outcome ≠ .ok ∧ Refuses R b outcome (eval r))
    {outcome : Outcome} (h : k.refusal g b known = some outcome) (name : Option String) :
    outcome ≠ .ok ∧ RefusesFrom R b outcome (Evaluate.kind g eval name k) := by
  have hinner {r : Rule N U} (hr : r ∈ k.inner g) (h : known r = some outcome) :
      outcome ≠ .ok ∧ ∀ s : State input U, s.peek = some b →
        ∃ s', eval r s = some (outcome, s') ∧ s'.cursor = s.cursor ∧ R s s' :=
    heval r hr outcome h
  cases k with
  | byte c =>
    rw [Kind.refusal, Option.ite_none_left_eq_some] at h
    obtain ⟨hc, rfl⟩ := h.imp_right Option.some.inj
    have haccepts : (b == c) = false := beq_false_of_ne fun heq ↦ hc heq.symm
    exact ⟨by decide, fun start s _ hs ↦
      Evaluate.oneByte_refuses (b := b) hR haccepts _ s hs⟩
  | range low high =>
    rw [Kind.refusal, Option.ite_none_left_eq_some] at h
    obtain ⟨hb, rfl⟩ := h.imp_right Option.some.inj
    exact ⟨by decide, fun start s _ hs ↦
      Evaluate.oneByte_refuses hR (Bool.eq_false_iff.2 hb) _ s hs⟩
  | literal bytes =>
    rcases bytes with _ | ⟨c, bytes⟩
    · cases h
    rw [Kind.refusal, Option.ite_none_left_eq_some] at h
    obtain ⟨hc, rfl⟩ := h.imp_right Option.some.inj
    exact ⟨by decide, Evaluate.literal_refuses hR hc bytes⟩
  | bounded opener closer inner =>
    rw [Kind.refusal, Option.ite_none_left_eq_some] at h
    obtain ⟨hopener, rfl⟩ := h.imp_right Option.some.inj
    exact ⟨by decide, fun _ s _ hs ↦
      Evaluate.bounded_refuses hR hopener closer (eval inner) s hs⟩
  | anyOf rules =>
    rw [Kind.refusal, Option.ite_none_right_eq_some] at h
    obtain ⟨hall, rfl⟩ := h.imp_right Option.some.inj
    refine ⟨by decide, Evaluate.choice_refuses hR (fun r hr ↦ ?_) name⟩
    obtain ⟨outcome, hknown⟩ := Option.isSome_iff_exists.1 (List.all_eq_true.1 hall r hr)
    exact ⟨outcome, heval r hr outcome hknown⟩
  | allOf rules =>
    exact ⟨firstRefusal_ne_ok h, fun _ s _ hs ↦ Evaluate.inOrder_refuses hR
      (fun r hr outcome hknown ↦ (heval r hr outcome hknown).2) h s hs⟩
  | reference rule => exact (hinner List.mem_cons_self h).imp_right fun hr _ s _ hs ↦ hr s hs
  | symbol n => exact (hinner List.mem_cons_self h).imp_right fun hr _ s _ hs ↦ hr s hs
  | closing inner action =>
    obtain ⟨hne, hr⟩ := hinner List.mem_cons_self h
    exact ⟨hne, Evaluate.closing_refuses hne hr action name⟩
  | _ => cases h

theorem Rule.step_refuses {g : Grammar N U} {eval : Rule N U → Step input U} {r : Rule N U}
    {outcome : Outcome} (hne : outcome ≠ .ok)
    (hbody : RefusesFrom R b outcome (Evaluate.kind g eval r.name r.kind)) :
    Refuses R b (r.modifiers.refused outcome) (r.step g eval) := by
  intro s hs
  have hcursor := s.noted_cursor fun _ ↦ .enter (r.label g) s.position.offset
  obtain ⟨s₁, hreply, hcursor₁, h₁⟩ := Evaluate.modified_refuses hR r.modifiers hne hbody s.position
    (s.noted fun _ ↦ .enter (r.label g) s.position.offset) hcursor.symm
    (by rwa [State.peek, hcursor])
  have hback := hR.within rfl _ (hR.restore h₁ s.position hcursor.symm)
    (s₁.restore s.position).cursor (r.modifiers.refused outcome)
  have hsettled : settle s.position (r.modifiers.refused outcome, s₁) =
      (r.modifiers.refused outcome, s₁.restore s.position) := by
    have hne' := r.modifiers.refused_ne_ok hne
    generalize r.modifiers.refused outcome = o at hne'
    rcases o with _ | _ | _
    · exact absurd rfl hne'
    · rfl
    · rfl
  refine ⟨_, ?_, ?_, hback⟩
  · simp only [step, hreply, hsettled]
  · rw [State.noted_cursor]
    exact Nat.min_eq_left s.cursor_le

/-- **A rule that refuses a byte has the outcome that was computed**, and consumes nothing. -/
theorem Rule.evaluate_refuses {g : Grammar N U} {depth : Nat} {r : Rule N U} {outcome : Outcome}
    (h : r.refusal g b depth = some outcome) {budget : Nat} (hbudget : depth ≤ budget) :
    outcome ≠ .ok ∧ Refuses R b outcome (r.evaluate g budget) := by
  induction budget generalizing r depth outcome with
  | zero =>
    obtain rfl := Nat.le_zero.1 hbudget
    cases h
  | succ budget ih =>
    rcases depth with _ | depth
    · cases h
    obtain ⟨known, hknown, rfl⟩ := Option.map_eq_some_iff.1 h
    obtain ⟨hne, hbody⟩ := Kind.refuses hR
      (fun rule _ outcome hrule ↦ ih hrule (Nat.le_of_succ_le_succ hbudget)) hknown r.name
    exact ⟨r.modifiers.refused_ne_ok hne, step_refuses hR hne hbody⟩

end

end DocGrammar
