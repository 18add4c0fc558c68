import DocGrammar.Proofs.Diagnostics.Refusal
import DocGrammar.Proofs.Termination.Budget

/-!
# Rules that leave no failure behind them

A rule that matches has often tried something else before, and what was tried may have failed far
beyond the place where the rule ended.  A rule is *tidy* with respect to an offset if that does not
happen: when it matches and ends no further on than the offset, no failure has been recorded behind
the offset.  It is *calm* if that also goes for when it does not match.

The lemmas say when the combinators of the engine make tidy rules out of tidy rules.  Two of them
take care.  A choice has to know that an alternative that is not calm is not followed by one that
matches at the same byte (`choice_tidy`).  And a repetition ends with an attempt that fails, so the
rule that is repeated has to be calm at the byte where the repetition ends; which byte that is may
be known from what follows.
-/

set_option autoImplicit false

namespace DocGrammar

variable {N U : Type} {input : Array UInt8}

/-! ## Following the cursor -/

namespace State

/-- The second state is no less far on, and unless it is behind the bound, no failure has been
recorded there. -/
structure Heeds (bound : Nat) (s s' : State input U) : Prop where
  cursor_le : s.cursor ≤ s'.cursor
  within : s'.cursor ≤ bound → s.Within bound → s'.Within bound

/-- Unless the first state was behind the bound, no failure has been recorded there. -/
def Spares (bound : Nat) (s s' : State input U) : Prop :=
  s.cursor ≤ bound → s.Within bound → s'.Within bound

variable {bound : Nat} {s s' s'' : State input U}

theorem Heeds.refl (s : State input U) : s.Heeds bound s := ⟨Nat.le_refl _, fun _ h ↦ h⟩

theorem Heeds.trans (h : s.Heeds bound s') (h' : s'.Heeds bound s'') : s.Heeds bound s'' :=
  ⟨Nat.le_trans h.cursor_le h'.cursor_le, fun hs hw ↦
    h'.within hs (h.within (Nat.le_trans h'.cursor_le hs) hw)⟩

theorem Heeds.of_furthest_eq (hcursor : s.cursor ≤ s'.cursor) (h : s'.furthest = s.furthest) :
    s.Heeds bound s' :=
  ⟨hcursor, fun _ hw ↦ hw.congr h⟩

theorem Forward.heeds {fits : UInt8 → Bool} (h : s.Forward fits s') : s.Heeds bound s' :=
  .of_furthest_eq h.cursor_le h.furthest_eq

theorem Tethered.spares (h : s.Tethered bound s') : s.Spares bound s' :=
  fun hs hw ↦ h.within hs bound (Nat.le_refl _) hw

/-- Where the cursor does not go back, sparing is more than heeding. -/
theorem Spares.heeds (h : s.Spares bound s') (hcursor : s.cursor ≤ s'.cursor) :
    s.Heeds bound s' :=
  ⟨hcursor, fun hs hw ↦ h (Nat.le_trans hcursor hs) hw⟩

/-- Going back to where another state was. -/
theorem restore_cursor {start : Position} (h : start.offset = s.cursor) (s' : State input U) :
    (s'.restore start).cursor = s.cursor :=
  (Nat.min_eq_left (h ▸ s.cursor_le)).trans h

theorem restore_peek {start : Position} (h : start.offset = s.cursor) (s' : State input U) :
    (s'.restore start).peek = s.peek := by
  rw [peek, restore_cursor h, peek]

end State

/-! ## Tidy and calm -/

/-- What the rest of a sequence may begin with, when nothing is known of it. -/
def anything : Option UInt8 → Prop := fun _ ↦ True

/-- A reply that is no failure heeds the bound, if it ends before what is described; and what is
left out consumes nothing. -/
structure Tidied (bound : Nat) (ends : Option UInt8 → Prop) (s : State input U) (outcome : Outcome)
    (s' : State input U) : Prop where
  heeds : outcome ≠ .fail → ends s'.peek → s.Heeds bound s'
  cursor_eq : outcome = .noMatch → s'.cursor = s.cursor

/-- When it does not fail, and ends before what is described, it heeds the bound. -/
def Tidy (bound : Nat) (ends : Option UInt8 → Prop) (step : Step input U) : Prop :=
  ∀ ⦃s outcome s'⦄, step s = some (outcome, s') → Tidied bound ends s outcome s'

/-- When it does not match at what is described, it spares the bound. -/
def Calm (bound : Nat) (starts : Option UInt8 → Prop) (step : Step input U) : Prop :=
  ∀ ⦃s outcome s'⦄, step s = some (outcome, s') → outcome ≠ .ok → starts s.peek →
    s.Spares bound s'

/-- It always fails at a byte. -/
def Bars (b : UInt8) (step : Step input U) : Prop :=
  ∀ ⦃s outcome s'⦄, step s = some (outcome, s') → s.peek = some b → outcome = .fail

/-- It does not get behind the bound at all, and consumes nothing unless it matches. -/
def Wordlike (bound : Nat) (step : Step input U) : Prop :=
  ∀ ⦃s outcome s'⦄, step s = some (outcome, s') →
    s.Tethered bound s' ∧ (outcome ≠ .ok → s'.cursor = s.cursor)

/-- The body of a rule, from the position that the state is in. -/
def fromHere (body : Position → Step input U) : Step input U := fun s ↦ body s.position s

section

variable {bound : Nat} {b : UInt8} {s s' : State input U} {outcome : Outcome} {step : Step input U}
  {starts ends : Option UInt8 → Prop}

theorem Tidied.ok (h : s.Heeds bound s') : Tidied bound ends s .ok s' := ⟨fun _ _ ↦ h, nofun⟩

theorem Tidied.fail : Tidied bound ends s .fail s' := ⟨fun h ↦ absurd rfl h, nofun⟩

theorem Tidied.of_anything (h : Tidied bound anything s outcome s') :
    Tidied bound ends s outcome s' :=
  ⟨fun hne _ ↦ h.heeds hne trivial, h.cursor_eq⟩

theorem Tidy.of_anything (h : Tidy bound anything step) : Tidy bound ends step :=
  fun _ _ _ hstep ↦ (h hstep).of_anything

theorem Wordlike.tidy (h : Wordlike bound step) : Tidy bound ends step := by
  intro s outcome s' hstep
  obtain ⟨htethered, hcursor⟩ := h hstep
  refine ⟨fun _ _ ↦ htethered.spares.heeds htethered.cursor_le, fun hout ↦ hcursor ?_⟩
  rw [hout]
  decide

theorem Wordlike.calm (h : Wordlike bound step) : Calm bound starts step :=
  fun _ _ _ hstep _ _ ↦ (h hstep).1.spares

/-- Behind the bound nothing can be said, and at the end of the input there is nothing to say. -/
theorem calm_at_end (hbound : bound < input.size) (step : Step input U) :
    Calm bound (· = none) step := by
  intro s outcome s' _ _ hpeek hs
  have hsize : input.size ≤ s.cursor := Array.getElem?_eq_none_iff.1 hpeek
  omega

/-- A plain reply is tidy. -/
theorem PlainTo.tidied {fits : UInt8 → Bool} (h : PlainTo fits s (outcome, s')) :
    Tidied bound ends s outcome s' := by
  obtain ⟨s₁, hforward, heq | ⟨reason, heq⟩⟩ := h
  · cases heq
    exact .ok hforward.heeds
  · cases heq
    exact .fail

end

namespace Evaluate

variable {bound : Nat} {b : UInt8} {starts ends : Option UInt8 → Prop}
  {eval : Rule N U → Step input U}

/-! ## Sequences -/

/-- What is left of a sequence behind its first rule. -/
theorem inOrder_cons_inv {rule : Rule N U} {rest : List (Rule N U)} {outcome outcome' : Outcome}
    {s s' : State input U} (h : inOrder eval (rule :: rest) outcome s = some (outcome', s')) :
    ∃ o s₁, eval rule s = some (o, s₁) ∧ (o = .fail → outcome' = .fail ∧ s' = s₁) ∧
      (o ≠ .fail →
        inOrder eval rest (if o = .ok then .ok else outcome) s₁ = some (outcome', s')) := by
  rcases hrule : eval rule s with _ | ⟨_ | _ | _, s₁⟩
  all_goals simp only [inOrder, hrule] at h
  · cases h
  · exact ⟨.ok, _, rfl, by simp, fun _ ↦ h⟩
  · cases h
    exact ⟨.fail, _, rfl, fun _ ↦ ⟨rfl, rfl⟩, fun hne ↦ absurd rfl hne⟩
  · exact ⟨.noMatch, _, rfl, by simp, fun _ ↦ h⟩

/-- Once something has matched, a sequence is not left out. -/
theorem inOrder_ok_ne_noMatch {rules : List (Rule N U)} {s s' : State input U} {outcome : Outcome}
    (h : inOrder eval rules .ok s = some (outcome, s')) : outcome ≠ .noMatch := by
  induction rules generalizing s with
  | nil =>
    cases h
    decide
  | cons rule rest ih =>
    obtain ⟨o, s₁, -, hfail, hrest⟩ := inOrder_cons_inv h
    by_cases ho : o = .fail
    · rw [(hfail ho).1]
      decide
    · have hrest := hrest ho
      rw [ite_self] at hrest
      exact ih hrest

/-- The parts of a sequence are tidy one by one.  Where the first one ends may be known from what
follows. -/
theorem inOrder_cons_tidy {rule : Rule N U} {rest : List (Rule N U)}
    {between : Option UInt8 → Prop} (hrule : Tidy bound between (eval rule))
    (hbetween : ∀ outcome ⦃s outcome' s'⦄, inOrder eval rest outcome s = some (outcome', s') →
      outcome' ≠ .fail → ends s'.peek → between s.peek)
    (hrest : ∀ outcome, Tidy bound ends (inOrder eval rest outcome)) (outcome : Outcome) :
    Tidy bound ends (inOrder eval (rule :: rest) outcome) := by
  intro s o s' h
  obtain ⟨o₁, s₁, hfirst, hfail, hafter⟩ := inOrder_cons_inv h
  by_cases ho : o₁ = .fail
  · obtain ⟨rfl, -⟩ := hfail ho
    exact .fail
  have hafter := hafter ho
  refine ⟨fun hne hends ↦ ?_, fun hout ↦ ?_⟩
  · exact ((hrule hfirst).heeds ho (hbetween _ hafter hne hends)).trans
      ((hrest _ hafter).heeds hne hends)
  · -- what is left out has not begun with something that matches
    have hpassed : o₁ = .noMatch := by
      rcases o₁ with _ | _ | _
      · exact absurd hout (inOrder_ok_ne_noMatch hafter)
      · exact absurd rfl ho
      · rfl
    exact ((hrest _ hafter).cursor_eq hout).trans ((hrule hfirst).cursor_eq hpassed)

theorem inOrder_nil_tidy (outcome : Outcome) : Tidy bound ends (inOrder eval [] outcome) := by
  intro s o s' hreply
  cases hreply
  exact ⟨fun _ _ ↦ .refl s, fun _ ↦ rfl⟩

/-- Where the last rule of a sequence ends, the sequence does. -/
theorem inOrder_singleton_tidy {rule : Rule N U} (hrule : Tidy bound ends (eval rule))
    (outcome : Outcome) : Tidy bound ends (inOrder eval [rule] outcome) := by
  refine inOrder_cons_tidy hrule (fun _ s o s' h _ hends ↦ ?_) inOrder_nil_tidy outcome
  cases h
  exact hends

theorem inOrder_append_tidy {before rest : List (Rule N U)}
    (hbefore : ∀ r ∈ before, Tidy bound anything (eval r))
    (hrest : ∀ outcome, Tidy bound ends (inOrder eval rest outcome)) (outcome : Outcome) :
    Tidy bound ends (inOrder eval (before ++ rest) outcome) := by
  induction before generalizing outcome with
  | nil => exact hrest outcome
  | cons rule before ih =>
    exact inOrder_cons_tidy (hbefore rule List.mem_cons_self) (fun _ _ _ _ _ _ _ ↦ trivial)
      (ih fun r hr ↦ hbefore r (List.mem_cons_of_mem rule hr)) outcome

theorem inOrder_tidy {rules : List (Rule N U)} (h : ∀ r ∈ rules, Tidy bound anything (eval r))
    (outcome : Outcome) : Tidy bound ends (inOrder eval rules outcome) := by
  have happend : Tidy bound ends (inOrder eval (rules ++ []) outcome) :=
    inOrder_append_tidy h inOrder_nil_tidy outcome
  rwa [List.append_nil] at happend

/-- A sequence fails where its first rule does. -/
theorem inOrder_cons_calm_at {rule : Rule N U} {rest : List (Rule N U)}
    (hrule : Bars b (eval rule)) (hcalm : Calm bound (· = some b) (eval rule))
    (outcome : Outcome) : Calm bound (· = some b) (inOrder eval (rule :: rest) outcome) := by
  intro s o s' h _ hpeek
  obtain ⟨o₁, s₁, hfirst, hfail, -⟩ := inOrder_cons_inv h
  have ho := hrule hfirst hpeek
  obtain ⟨-, rfl⟩ := hfail ho
  exact hcalm hfirst (by rw [ho]; decide) hpeek

/-! ## Choices -/

/-- What is left of the attempts behind the first one. -/
theorem firstOf_cons_inv {rule : Rule N U} {rest : List (Rule N U)} {start : Position}
    {s s' : State input U} {outcome : Outcome}
    (h : firstOf eval start (rule :: rest) s = some (outcome, s')) :
    ∃ o s₁, eval rule s = some (o, s₁) ∧ (o = .ok → outcome = .ok ∧ s' = s₁) ∧
      (o ≠ .ok → firstOf eval start rest (s₁.restore start) = some (outcome, s')) := by
  rcases hrule : eval rule s with _ | ⟨_ | _ | _, s₁⟩
  all_goals simp only [firstOf, hrule] at h
  · cases h
  · cases h
    exact ⟨.ok, _, rfl, fun _ ↦ ⟨rfl, rfl⟩, fun hne ↦ absurd rfl hne⟩
  · exact ⟨.fail, _, rfl, by simp, fun _ ↦ h⟩
  · exact ⟨.noMatch, _, rfl, by simp, fun _ ↦ h⟩

/-- What is left of a choice behind alternatives that do not match. -/
theorem firstOf_append_inv {eval : Rule N U → Step input U} {start : Position}
    {rules rest : List (Rule N U)} {P : State input U → Prop}
    (h : ∀ r ∈ rules, ∀ ⦃s outcome s₁⦄, P s → eval r s = some (outcome, s₁) →
      outcome ≠ .ok ∧ P (s₁.restore start))
    {s s' : State input U} {outcome : Outcome} (hs : P s)
    (hreply : firstOf eval start (rules ++ rest) s = some (outcome, s')) :
    ∃ s₁, P s₁ ∧ firstOf eval start rest s₁ = some (outcome, s') := by
  induction rules generalizing s with
  | nil => exact ⟨s, hs, hreply⟩
  | cons r rules ih =>
    obtain ⟨o, s₁, hfirst, -, hafter⟩ := firstOf_cons_inv hreply
    obtain ⟨hne, hs₁⟩ := h r List.mem_cons_self hs hfirst
    exact ih (fun r hr ↦ h r (List.mem_cons_of_mem _ hr)) hs₁ (hafter hne)

theorem firstOf_bars {rules : List (Rule N U)} (h : ∀ r ∈ rules, Bars b (eval r))
    {start : Position} {s s' : State input U} (hstart : start.offset = s.cursor)
    {outcome : Outcome} (hreply : firstOf eval start rules s = some (outcome, s'))
    (hpeek : s.peek = some b) : outcome = .fail := by
  induction rules generalizing s with
  | nil =>
    cases hreply
    rfl
  | cons rule rest ih =>
    obtain ⟨o, s₁, hfirst, -, hafter⟩ := firstOf_cons_inv hreply
    have ho := h rule List.mem_cons_self hfirst hpeek
    exact ih (fun r hr ↦ h r (List.mem_cons_of_mem rule hr))
      (hstart.trans (State.restore_cursor hstart s₁).symm) (hafter (by rw [ho]; decide))
      ((State.restore_peek hstart s₁).trans hpeek)

theorem firstOf_calm {rules : List (Rule N U)} (h : ∀ r ∈ rules, Calm bound starts (eval r))
    {start : Position} {s s' : State input U} (hstart : start.offset = s.cursor)
    {outcome : Outcome} (hreply : firstOf eval start rules s = some (outcome, s'))
    (hne : outcome ≠ .ok) (hpeek : starts s.peek) : s.Spares bound s' := by
  induction rules generalizing s with
  | nil =>
    cases hreply
    exact fun _ hw ↦ hw
  | cons rule rest ih =>
    obtain ⟨o, s₁, hfirst, hok, hafter⟩ := firstOf_cons_inv hreply
    have ho : o ≠ .ok := fun ho ↦ hne (hok ho).1
    have hback := State.restore_cursor hstart s₁
    intro hs hw
    have hw₁ := h rule List.mem_cons_self hfirst ho hpeek hs hw
    exact ih (fun r hr ↦ h r (List.mem_cons_of_mem rule hr)) (hstart.trans hback.symm) (hafter ho)
      (by rwa [State.restore_peek hstart]) (hback ▸ hs) (hw₁.congr rfl)

/-- The alternative that matches is tidy, and so were all before it, or it would not match. -/
theorem firstOf_tidy {rules : List (Rule N U)} (h : ∀ r ∈ rules, Tidy bound anything (eval r))
    {start : Position} {s s' : State input U} (hstart : start.offset = s.cursor)
    (hpairs : rules.Pairwise fun r r' ↦ Calm bound (· = s.peek) (eval r) ∨
      ∃ b, s.peek = some b ∧ Bars b (eval r'))
    (hreply : firstOf eval start rules s = some (.ok, s')) : s.Heeds bound s' := by
  induction rules generalizing s with
  | nil => cases hreply
  | cons rule rest ih =>
    obtain ⟨o, s₁, hfirst, hok, hafter⟩ := firstOf_cons_inv hreply
    by_cases ho : o = .ok
    · obtain ⟨-, rfl⟩ := hok ho
      exact (h rule List.mem_cons_self hfirst).heeds (by rw [ho]; decide) trivial
    have hafter := hafter ho
    obtain ⟨hlater, hpairs⟩ := List.pairwise_cons.1 hpairs
    have hback := State.restore_cursor hstart s₁
    have hpeek := State.restore_peek hstart s₁
    by_cases hcalm : Calm bound (· = s.peek) (eval rule)
    · have hspares : s.Spares bound (s₁.restore start) := fun hs hw ↦
        (hcalm hfirst ho rfl hs hw).congr rfl
      refine (hspares.heeds (Nat.le_of_eq hback.symm)).trans
        (ih (fun r hr ↦ h r (List.mem_cons_of_mem rule hr)) (hstart.trans hback.symm) ?_ hafter)
      rwa [hpeek]
    · -- nothing matches at this byte any more
      rcases rest with _ | ⟨r, rest⟩
      · cases hafter
      have hbars {r' : Rule N U} (hr' : r' ∈ r :: rest) := (hlater r' hr').resolve_left hcalm
      obtain ⟨b, hb, -⟩ := hbars List.mem_cons_self
      have hall : ∀ r' ∈ r :: rest, Bars b (eval r') := by
        intro r' hr'
        obtain ⟨b', hb', hr'⟩ := hbars hr'
        rwa [Option.some.inj (hb.symm.trans hb')]
      cases firstOf_bars hall (hstart.trans hback.symm) hafter (hpeek.trans hb)

/-- A choice in terms of its attempts. -/
theorem choice_inv {name : Option String} {rules : List (Rule N U)} {start : Position}
    {s s' : State input U} {outcome : Outcome}
    (h : choice eval name rules start s = some (outcome, s')) :
    ∃ ended, firstOf eval start rules { s.silenceErrors with furthest := none } =
        some (outcome, ended) ∧ s'.cursor = ended.cursor ∧
      ∀ bound, start.offset ≤ bound → ended.Within bound → s.Within bound → s'.Within bound := by
  rw [choice_eq_conclude] at h
  obtain ⟨⟨o, ended⟩, hattempts, heq⟩ := Option.map_eq_some_iff.1 h
  cases heq
  exact ⟨ended, hattempts, (conclude_same name start.offset s outcome ended).cursor_eq,
    fun bound hoffset hended hw ↦ hw.conclude hended name hoffset outcome⟩

theorem choice_bars {rules : List (Rule N U)} (h : ∀ r ∈ rules, Bars b (eval r))
    (name : Option String) : Bars b (fromHere (choice eval name rules)) := by
  intro s outcome s' hreply hpeek
  obtain ⟨ended, hattempts, -, -⟩ := choice_inv hreply
  exact firstOf_bars h (s := { s.silenceErrors with furthest := none }) rfl hattempts hpeek

theorem choice_calm {rules : List (Rule N U)} (h : ∀ r ∈ rules, Calm bound starts (eval r))
    (name : Option String) : Calm bound starts (fromHere (choice eval name rules)) := by
  intro s outcome s' hreply hne hpeek hs hw
  obtain ⟨ended, hattempts, -, hwithin⟩ := choice_inv hreply
  have hended := firstOf_calm h (s := { s.silenceErrors with furthest := none }) rfl hattempts hne
    hpeek hs (State.within_of_none rfl)
  exact hwithin bound hs hended hw

/-- The second rule begins with a byte at which the first one is calm. -/
theorem calm_or_bars {r r' : Rule N U} (c : UInt8) (hcalm : Calm bound (· = some c) (eval r))
    (hbars : ∀ b, b ≠ c → Bars b (eval r')) (b : UInt8) :
    Calm bound (· = some b) (eval r) ∨ Bars b (eval r') := by
  by_cases hb : b = c
  · rw [hb]
    exact .inl hcalm
  · exact .inr (hbars b hb)

/-- **A choice of tidy rules is tidy** if of any two alternatives, the first one is calm or the
second one fails, whichever byte they begin at. -/
theorem choice_tidy (hbound : bound < input.size) {rules : List (Rule N U)}
    (h : ∀ r ∈ rules, Tidy bound anything (eval r))
    (hpairs : ∀ b, rules.Pairwise fun r r' ↦
      Calm bound (· = some b) (eval r) ∨ Bars b (eval r'))
    (name : Option String) : Tidy bound ends (fromHere (choice eval name rules)) := by
  intro s outcome s' hreply
  obtain ⟨ended, hattempts, hcursor, hwithin⟩ := choice_inv hreply
  rcases firstOf_outcome hattempts with rfl | rfl
  · have hheeds : { s.silenceErrors with furthest := none }.Heeds bound ended := by
      refine firstOf_tidy h rfl ?_ hattempts
      rcases hpeek : s.peek with _ | b
      · refine List.pairwise_of_forall fun r _ ↦ .inl ?_
        change Calm bound (· = s.peek) (eval r)
        rw [hpeek]
        exact calm_at_end hbound (eval r)
      · refine (hpairs b).imp fun {r r'} hpair ↦ ?_
        change Calm bound (· = s.peek) (eval r) ∨ ∃ b, s.peek = some b ∧ Bars b (eval r')
        rw [hpeek]
        exact hpair.imp_right fun hbars ↦ ⟨b, rfl, hbars⟩
    refine .ok ⟨hcursor ▸ hheeds.cursor_le, fun hs hw ↦ ?_⟩
    have hs' : ended.cursor ≤ bound := hcursor ▸ hs
    exact hwithin bound (Nat.le_trans hheeds.cursor_le hs')
      (hheeds.within hs' (State.within_of_none rfl)) hw
  · exact .fail

/-! ## Bytes, brackets and actions -/

theorem oneByte_calm (accepts : UInt8 → Bool) (reason : Reason) :
    Calm bound starts (fun s ↦ some (oneByte accepts reason s) : Step input U) := by
  intro s outcome s' hreply hne _ hs hw
  have hfail (h : some (s.fail reason) = some (outcome, s')) : s'.Within bound := by
    cases h
    exact hw.failAt hs reason
  rcases hpeek : s.peek with _ | b
  all_goals simp only [oneByte, hpeek] at hreply
  · exact hfail hreply
  · split at hreply
    · cases hreply
      exact absurd rfl hne
    · exact hfail hreply

/-- What is between brackets ends before the closing one. -/
theorem bounded_tidy {opener closer : UInt8} {inside : Step input U}
    (h : Tidy bound (· = some closer) inside) : Tidy bound ends (bounded opener closer inside) := by
  intro s outcome s' hreply
  unfold bounded at hreply
  split at hreply
  · next hpeek =>
    have hopened : s.Forward (fun _ ↦ true) (s.advance 1) := State.advance_one_forward hpeek rfl
    -- what is done behind the inside, unless it failed
    have hclosing {o : Outcome} {s₁ : State input U} (hinside : inside (s.advance 1) = some (o, s₁))
        (ho : o ≠ .fail) (hreply : (if s₁.peek = some closer then some (.ok, s₁.advance 1)
          else some (s₁.fail (.expectedCloser closer))) = some (outcome, s')) :
        Tidied bound ends s outcome s' := by
      split at hreply
      · next hcloser =>
        cases hreply
        have hclosed : s₁.Forward (fun _ ↦ true) (s₁.advance 1) :=
          State.advance_one_forward hcloser rfl
        exact .ok ((hopened.heeds.trans ((h hinside).heeds ho hcloser)).trans hclosed.heeds)
      · cases hreply
        exact .fail
    rcases hinside : inside (s.advance 1) with _ | ⟨_ | _ | _, s₁⟩
    all_goals simp only [hinside] at hreply
    · cases hreply
    · exact hclosing hinside (by decide) hreply
    · cases hreply
      exact .fail
    · exact hclosing hinside (by decide) hreply
  · cases hreply
    exact .fail

theorem leaf_tidy {g : Grammar N U} {action : Action N U} {fits : UInt8 → Bool}
    (h : PlainAction fits @action) (name : Option String) :
    Tidy bound ends (fromHere (kind g eval name (.leaf action))) := by
  intro s outcome s' hreply
  obtain ⟨reply, hdone, hplain⟩ := h s s.position
  simp only [fromHere, kind, hdone, Program.run, Option.some.injEq] at hreply
  rw [hreply] at hplain
  exact hplain.tidied

/-- An action behind a rule. -/
theorem closing_tidy {g : Grammar N U} {inner : Rule N U} {action : Action N U}
    {fits : UInt8 → Bool} (hinner : Tidy bound anything (eval inner))
    (haction : PlainAction fits @action) (name : Option String) :
    Tidy bound ends (fromHere (kind g eval name (.closing inner action))) := by
  intro s outcome s' hreply
  rcases hmatch : eval inner s with _ | ⟨_ | _ | _, s₁⟩
  all_goals simp only [fromHere, kind, hmatch] at hreply
  · cases hreply
  · have hheeds := (hinner hmatch).heeds (by decide) trivial
    split at hreply
    · obtain ⟨⟨o, s₂⟩, hdone, hplain⟩ := haction s₁ s.position
      simp only [hdone, Program.run] at hreply
      cases hreply
      obtain ⟨s', hforward, heq | ⟨reason, heq⟩⟩ := hplain
      · cases heq
        exact .ok (hheeds.trans hforward.heeds)
      · cases heq
        exact .fail
    · cases hreply
      exact .ok hheeds
  · cases hreply
    exact .fail
  · cases hreply
    exact (hinner hmatch).of_anything

/-! ## Repetition -/

section

variable {body : Position → Step input U}

/-- What has not matched at the byte where it is undone has left no failure behind it. -/
theorem restored_heeds (hcalm : Calm bound ends (fromHere body)) {s s₁ : State input U}
    {outcome : Outcome} (h : body s.position s = some (outcome, s₁)) (hne : outcome ≠ .ok)
    (hends : ends (s₁.restore s.position).peek) : s.Heeds bound (s₁.restore s.position) := by
  have hback : (s₁.restore s.position).cursor = s.cursor := State.restore_cursor rfl s₁
  have hpeek : (s₁.restore s.position).peek = s.peek := State.restore_peek rfl s₁
  exact ⟨Nat.le_of_eq hback.symm, fun hs hw ↦
    (hcalm (s := s) h hne (hpeek ▸ hends) (hback ▸ hs) hw).congr rfl⟩

/-- The attempt that ends a repetition begins where the repetition ends. -/
theorem again_heeds (htidy : Tidy bound anything (fromHere body))
    (hcalm : Calm bound ends (fromHere body)) {rounds : Nat} {s s' : State input U}
    (h : again body rounds s = some s') (hends : ends s'.peek) : s.Heeds bound s' := by
  induction rounds generalizing s with
  | zero =>
    cases h
    exact .refl _
  | succ rounds ih =>
    rcases hround : body s.position s with _ | ⟨o, s₁⟩
    · simp only [again, hround] at h
      cases h
    have hlast (ho : o ≠ .ok) (h : some (s₁.restore s.position) = some s') :
        s.Heeds bound s' := by
      cases h
      exact restored_heeds hcalm hround ho hends
    rcases o with _ | _ | _
    all_goals simp only [again, hround] at h
    · have hheeds := (htidy (s := s) hround).heeds (by decide) trivial
      split at h
      · exact hheeds.trans (ih h)
      · cases h
        exact hheeds
    · exact hlast (by decide) h
    · exact hlast (by decide) h

/-- **A repetition of a tidy rule is tidy** if the rule is calm where the repetition ends. -/
theorem repeated_tidy (htidy : Tidy bound anything (fromHere body))
    (hcalm : Calm bound ends (fromHere body)) : Tidy bound ends (fromHere (repeated body)) := by
  intro s outcome s' hreply
  rcases hfirst : body s.position s with _ | ⟨_ | _ | _, s₁⟩
  all_goals simp only [fromHere, repeated, hfirst] at hreply
  · cases hreply
  · have hheeds := (htidy (s := s) hfirst).heeds (by decide) trivial
    rcases hagain : again body (input.size + 1 - s₁.cursor) s₁.silenceErrors with _ | s₂
    all_goals simp only [hagain] at hreply
    · cases hreply
    · cases hreply
      refine ⟨fun _ hends ↦ ?_, fun h ↦ by cases h⟩
      have hmore := again_heeds htidy hcalm hagain hends
      exact hheeds.trans ⟨hmore.cursor_le, hmore.within⟩
  · cases hreply
    exact .fail
  · cases hreply
    exact (htidy (s := s) hfirst).of_anything

/-- Repeating does not match where the first round does not. -/
theorem repeated_calm (hcalm : Calm bound starts (fromHere body)) :
    Calm bound starts (fromHere (repeated body)) := by
  intro s outcome s' hreply hne hpeek
  rcases hfirst : body s.position s with _ | ⟨_ | _ | _, s₁⟩
  all_goals simp only [fromHere, repeated, hfirst] at hreply
  · cases hreply
  · split at hreply
    · cases hreply
    · cases hreply
      exact absurd rfl hne
  · cases hreply
    exact hcalm (s := s) hfirst (by decide) hpeek
  · cases hreply
    exact hcalm (s := s) hfirst (by decide) hpeek

/-! ## Modifiers -/

/-- What is left out ends where it started. -/
theorem optional_tidy (htidy : Tidy bound ends (fromHere body))
    (hcalm : Calm bound ends (fromHere body)) : Tidy bound ends (fromHere (optional body)) := by
  intro s outcome s' hreply
  have hpass {o : Outcome} {s₁ : State input U}
      (hquiet : body s.position s.silenceErrors = some (o, s₁)) :
      Tidied bound ends s o s₁.unsilenceErrors := by
    obtain ⟨hheeds, hcursor⟩ := htidy (s := s.silenceErrors) hquiet
    exact ⟨fun hne hends ↦ ⟨(hheeds hne hends).cursor_le, (hheeds hne hends).within⟩, hcursor⟩
  rcases hquiet : body s.position s.silenceErrors with _ | ⟨_ | _ | _, s₁⟩
  all_goals simp only [fromHere, optional, hquiet] at hreply
  · cases hreply
  · cases hreply
    exact hpass hquiet
  · cases hreply
    refine ⟨fun _ hends ↦ ?_, fun _ ↦ State.restore_cursor rfl s₁.unsilenceErrors⟩
    obtain ⟨hcursor, hwithin⟩ :=
      restored_heeds (s := s.silenceErrors) hcalm hquiet (by decide) hends
    exact ⟨hcursor, hwithin⟩
  · cases hreply
    exact hpass hquiet

/-- Silencing results changes nothing else. -/
theorem lookahead_tidy (htidy : Tidy bound ends (fromHere body)) :
    Tidy bound ends (fromHere (lookahead body)) := by
  intro s outcome s' hreply
  rcases hquiet : body s.position s.silenceResults with _ | ⟨o, s₁⟩
  all_goals simp only [fromHere, lookahead, hquiet] at hreply
  · cases hreply
  · cases hreply
    obtain ⟨hheeds, hcursor⟩ := htidy (s := s.silenceResults) hquiet
    exact ⟨fun hne hends ↦ ⟨(hheeds hne hends).cursor_le, (hheeds hne hends).within⟩, hcursor⟩

theorem lookahead_calm (hcalm : Calm bound starts (fromHere body)) :
    Calm bound starts (fromHere (lookahead body)) := by
  intro s outcome s' hreply hne hpeek hs hw
  rcases hquiet : body s.position s.silenceResults with _ | ⟨o, s₁⟩
  all_goals simp only [fromHere, lookahead, hquiet] at hreply
  · cases hreply
  · cases hreply
    have hspares := hcalm (s := s.silenceResults) hquiet hne hpeek
    exact hspares hs hw

theorem flat_tidy (htidy : Tidy bound ends (fromHere body)) :
    Tidy bound ends (fromHere (flat body)) := by
  intro s outcome s' hreply
  rcases hquiet : lookahead body s.position s with _ | ⟨_ | _ | _, s₁⟩
  all_goals simp only [fromHere, flat, hquiet] at hreply
  · cases hreply
  · cases hreply
    have hpushed := State.push_cursor s₁ (.slice (s₁.matched s.position))
    refine ⟨fun hne hends ↦ ?_, fun h ↦ by cases h⟩
    rw [State.peek, hpushed] at hends
    exact ((lookahead_tidy htidy hquiet).heeds hne hends).trans
      (.of_furthest_eq (Nat.le_of_eq hpushed.symm) (State.push_quiet _ _).furthest_eq)
  · cases hreply
    exact .fail
  · cases hreply
    exact lookahead_tidy htidy hquiet

end

end Evaluate

/-! ## Whole rules -/

namespace Rule

variable {bound : Nat} {b : UInt8} {starts ends : Option UInt8 → Prop} {g : Grammar N U}
  {r : Rule N U}

/-- A reply to a rule in terms of its body.  Entering and leaving the rule changes nothing but the
trace. -/
theorem step_inv {eval : Rule N U → Step input U} {s s' : State input U} {outcome : Outcome}
    (h : r.step g eval s = some (outcome, s')) :
    ∃ entered left, fromHere (Evaluate.modified r.modifiers (Evaluate.kind g eval r.name r.kind))
        entered = some (outcome, left) ∧ s.Same entered ∧ s.Recorded [] entered ∧
      left.Recorded [] s' ∧ s'.cursor = if outcome = .ok then left.cursor else s.cursor := by
  have hsame := s.noted_same fun _ ↦ .enter (r.label g) s.position.offset
  have hentered := s.noted_recorded (fun _ ↦ .enter (r.label g) s.position.offset) rfl
  have hleave (left : State input U) (outcome : Outcome) :
      left.Recorded [] (left.noted fun _ ↦ .leave (r.label g) left.cursor outcome) :=
    left.noted_recorded _ rfl
  rcases hbody : Evaluate.modified r.modifiers (Evaluate.kind g eval r.name r.kind) s.position
      (s.noted fun _ ↦ .enter (r.label g) s.position.offset) with _ | ⟨o, left⟩
  all_goals simp only [step, hbody] at h
  · cases h
  · have hback :=
      (left.restore_quiet s.position).recorded.trans (hleave (left.restore s.position) o)
    refine ⟨_, left, ?_, hsame, hentered, ?_, ?_⟩
    · rw [fromHere, hsame.position_eq, hbody]
      rcases o with _ | _ | _
      all_goals
        cases h
        rfl
    · rcases o with _ | _ | _
      · cases h
        exact hleave left .ok
      · cases h
        exact hback
      · cases h
        exact hback
    · rcases o with _ | _ | _
      all_goals
        cases h
        rw [State.noted_cursor]
      · rfl
      · exact State.restore_cursor rfl left
      · exact State.restore_cursor rfl left

variable {eval : Rule N U → Step input U}

theorem step_tidy
    (h : Tidy bound ends (fromHere (Evaluate.modified r.modifiers
      (Evaluate.kind g eval r.name r.kind)))) : Tidy bound ends (r.step g eval) := by
  intro s outcome s' hreply
  obtain ⟨entered, left, hbody, hsame, hentered, hleft, hcursor⟩ := step_inv hreply
  obtain ⟨hheeds, hout⟩ := h hbody
  refine ⟨fun hne hends ↦ ?_, fun hnoMatch ↦ ?_⟩
  · have hstays : s'.cursor = left.cursor := by
      rcases outcome with _ | _ | _
      · exact hcursor
      · exact absurd rfl hne
      · exact hcursor.trans (hsame.cursor_eq.symm.trans (hout rfl).symm)
    have hbefore : s.Heeds bound entered :=
      .of_furthest_eq (Nat.le_of_eq hsame.cursor_eq.symm) hentered.furthest_eq
    have hafter : left.Heeds bound s' :=
      .of_furthest_eq (Nat.le_of_eq hstays.symm) hleft.furthest_eq
    rw [State.peek, hstays] at hends
    exact (hbefore.trans (hheeds hne hends)).trans hafter
  · rw [hcursor, hnoMatch]
    rfl

theorem step_calm
    (h : Calm bound starts (fromHere (Evaluate.modified r.modifiers
      (Evaluate.kind g eval r.name r.kind)))) : Calm bound starts (r.step g eval) := by
  intro s outcome s' hreply hne hpeek hs hw
  obtain ⟨entered, left, hbody, hsame, hentered, hleft, -⟩ := step_inv hreply
  have hw' := h hbody hne (by rwa [State.peek, hsame.cursor_eq]) (hsame.cursor_eq.symm ▸ hs)
    (hw.congr hentered.furthest_eq)
  exact hw'.congr hleft.furthest_eq

theorem step_bars
    (h : Bars b (fromHere (Evaluate.modified r.modifiers
      (Evaluate.kind g eval r.name r.kind)))) : Bars b (r.step g eval) := by
  intro s outcome s' hreply hpeek
  obtain ⟨entered, left, hbody, hsame, -, -, -⟩ := step_inv hreply
  exact h hbody (by rwa [State.peek, hsame.cursor_eq])

theorem evaluate_tidy {budget : Nat}
    (h : ∀ less < budget, Tidy bound ends (fromHere (Evaluate.modified r.modifiers
      (Evaluate.kind g (evaluate g less) r.name r.kind)) : Step input U)) :
    Tidy bound ends (r.evaluate g budget : Step input U) := by
  rcases budget with _ | less
  · intro s outcome s' hreply
    cases hreply
  · exact step_tidy (h less (Nat.lt_succ_self less))

theorem evaluate_calm {budget : Nat}
    (h : ∀ less < budget, Calm bound starts (fromHere (Evaluate.modified r.modifiers
      (Evaluate.kind g (evaluate g less) r.name r.kind)) : Step input U)) :
    Calm bound starts (r.evaluate g budget : Step input U) := by
  rcases budget with _ | less
  · intro s outcome s' hreply
    cases hreply
  · exact step_calm (h less (Nat.lt_succ_self less))

theorem evaluate_bars {budget : Nat}
    (h : ∀ less < budget, Bars b (fromHere (Evaluate.modified r.modifiers
      (Evaluate.kind g (evaluate g less) r.name r.kind)) : Step input U)) :
    Bars b (r.evaluate g budget : Step input U) := by
  rcases budget with _ | less
  · intro s outcome s' hreply
    cases hreply
  · exact step_bars (h less (Nat.lt_succ_self less))

/-! ## Words, and what is refused -/

/-- A rule that cannot consume the byte at the bound does not get behind it. -/
theorem evaluate_wordlike {inert : String → Bool} {fits : UInt8 → Bool}
    (hstop : ∀ b, input[bound]? = some b → fits b = false) {depth : Nat}
    (hactions : r.Every (PlainAction fits))
    (hr : r.fitsWithin g inert fits depth = true) (budget : Nat) :
    Wordlike bound (r.evaluate g budget : Step input U) := by
  intro s outcome s' hreply
  refine ⟨?_, (evaluate_returns hreply).cursor_eq⟩
  have hsteady : Steady inert fits
      (State.Tethered bound : State input U → State input U → Prop) :=
    tethered_steady hstop
  obtain ⟨o, s₁, hsure, htethered⟩ := evaluate_sure hsteady hr
    (hactions.imp fun _ h ↦ h.steady hsteady) (Nat.le_refl depth) _ s (Nat.le_refl _)
  cases evaluate_unique hreply hsure
  exact htethered

/-- A rule that refuses a byte fails there and does not get anywhere. -/
theorem evaluate_refused {depth : Nat} (hr : r.refusal g b depth = some .fail) {budget : Nat}
    {s s' : State input U} {outcome : Outcome} (h : r.evaluate g budget s = some (outcome, s'))
    (hpeek : s.peek = some b) (bound : Nat) : outcome = .fail ∧ s.Tethered bound s' := by
  have hsteady : Steady (fun _ ↦ true) (fun _ ↦ false)
      (State.Tethered bound : State input U → State input U → Prop) :=
    tethered_steady fun _ _ ↦ rfl
  obtain ⟨-, hrefuses⟩ := evaluate_refuses hsteady hr (Nat.le_refl depth)
  obtain ⟨s₁, hrefused, -, htethered⟩ := hrefuses s hpeek
  cases evaluate_unique h hrefused
  exact ⟨rfl, htethered⟩

theorem evaluate_bars_of_refusal {depth : Nat} (hr : r.refusal g b depth = some .fail)
    (budget : Nat) : Bars b (r.evaluate g budget : Step input U) :=
  fun _ _ _ h hpeek ↦ (evaluate_refused hr h hpeek 0).1

theorem evaluate_calm_of_refusal {depth : Nat} (hr : r.refusal g b depth = some .fail)
    (budget : Nat) : Calm bound (· = some b) (r.evaluate g budget : Step input U) :=
  fun _ _ _ h _ hpeek ↦ (evaluate_refused hr h hpeek bound).2.spares

end Rule
end DocGrammar
