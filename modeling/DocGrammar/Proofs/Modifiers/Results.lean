import DocGrammar.Proofs.Backtracking
import DocGrammar.Proofs.Diagnostics.Oblivious
import Mathlib.Logic.Basic

/-!
# Which results a rule adds

A lookahead adds no results, and a flat rule adds one, the span that it has matched, whatever the
rules inside would have added.  Both silence results while they match; so what has to be seen is
that a rule does nothing at all to the results where they are silenced (`State.Hushed`).

For the engine this is a matter of `push`.  Actions have more ways to get at the results, and one
that truncates them could take away what was there before its rule started, or put something else in
place of it.  So they are held to the position that they are given (`ConfinedAction`): results below
it stay, and nothing is added while results are silenced, which is what `push` and what is built on
it see to.  An action that asks for a symbol is held to this between one symbol and the next; what
the symbols do in the meantime is another matter, and the same again.
-/

set_option autoImplicit false

namespace DocGrammar

variable {N U : Type} {input : Array UInt8}

/-! ## What an action may do -/

/-- The second state keeps what the first one has below a position, and has no results that the
first one has not, if results are silenced. -/
structure State.Confined (start : Position) (s s' : State input U) : Prop extends
    State.Keeps start s s' where
  isPrefix_of_silenced : s.resultsSilenced ≠ 0 → s'.results <+: s.results

/-- From a state on, a program is confined to what it may do above a position: up to the first
symbol that it asks for, from any state in which that symbol may leave it up to the next one, and so
on. -/
inductive Program.Confined (start : Position) : State input U → Program N input U → Prop
  | done {s : State input U} {reply : Reply input U} (h : s.Confined start reply.2) :
      Confined start s (.done reply)
  | call {s s₁ : State input U} {symbol : N} {next : Reply input U → Program N input U}
      (h : s.Confined start s₁)
      (hnext : ∀ {reply}, s₁.Extends reply.2 → Confined start reply.2 (next reply)) :
      Confined start s (.call symbol s₁ next)

/-- An action that, given a position taken before, is confined to what lies above it. -/
def ConfinedAction (action : Action N U) : Prop :=
  ∀ ⦃input : Array UInt8⦄ (s : State input U) (start : Position), start.offset ≤ s.cursor →
    start.results ≤ s.results.length → (action s start).Confined start s

/-- An action that has no symbol matched is judged by its reply. -/
theorem confined_toAction {act : DirectAction U}
    (h : ∀ {input : Array UInt8} (s : State input U) (start : Position), start.offset ≤ s.cursor →
      s.Confined start (act s start).2) : ConfinedAction (DirectAction.toAction (N := N) @act) :=
  fun _ s start hs _ ↦ .done (h s start hs)

namespace State

variable {s s' s'' : State input U} {start : Position}

/-! What actions have at hand is confined. -/

theorem Confined.of_results_eq (h : s.Extends s') (hresults : s'.results = s.results)
    (hs : start.offset ≤ s.cursor) : s.Confined start s' :=
  ⟨h.keeps hs, fun _ ↦ hresults ▸ List.prefix_refl _⟩

theorem Confined.trans (h : s.Confined start s') (h' : s'.Confined start s'') :
    s.Confined start s'' := by
  have hbelow : s.results.take start.results <+: s'.results.take start.results := by
    rw [List.prefix_take_iff]
    exact ⟨h.isPrefix, List.length_take_le _ _⟩
  refine ⟨⟨h'.offset_le, hbelow.trans h'.isPrefix, ?_, ?_⟩, fun hs ↦ ?_⟩
  · exact h'.errorsSilenced_eq.trans h.errorsSilenced_eq
  · exact h'.resultsSilenced_eq.trans h.resultsSilenced_eq
  · exact (h'.isPrefix_of_silenced (h.resultsSilenced_eq.trans_ne hs)).trans
      (h.isPrefix_of_silenced hs)

theorem failAt_confined (s : State input U) (hs : start.offset ≤ s.cursor) (offset : Nat)
    (reason : Reason) : s.Confined start (s.failAt offset reason).2 :=
  .of_results_eq (s.failAt_undone offset reason).extends (failAt_results s offset reason) hs

theorem push_eq_self (hs : s.resultsSilenced ≠ 0) (value : Value) : s.push value = s :=
  if_neg hs

theorem push_confined (s : State input U) (hs : start.offset ≤ s.cursor) (value : Value) :
    s.Confined start (s.push value) :=
  ⟨(s.push_extends value).keeps hs, fun hsilenced ↦
    (push_eq_self hsilenced value).symm ▸ List.prefix_refl s.results⟩

theorem truncate_confined (s : State input U) (hs : start.offset ≤ s.cursor) :
    s.Confined start (s.truncate start) :=
  ⟨⟨hs, List.prefix_refl _, rfl, rfl⟩, fun _ ↦ List.take_prefix _ _⟩

theorem okReplace_confined (s : State input U) (hs : start.offset ≤ s.cursor) (value : Value) :
    s.Confined start (s.okReplace start value).2 :=
  (s.truncate_confined hs).trans ((s.truncate start).push_confined hs value)

/-! ## Nothing happens to silenced results -/

/-- The second state extends the first one, and has the same results if they are silenced. -/
structure Hushed (s s' : State input U) : Prop extends s.Extends s' where
  results_eq : s.resultsSilenced ≠ 0 → s'.results = s.results

theorem Hushed.trans (h : s.Hushed s') (h' : s'.Hushed s'') : s.Hushed s'' :=
  ⟨h.toExtends.trans h'.toExtends, fun hs ↦
    (h'.results_eq (h.resultsSilenced_eq.trans_ne hs)).trans (h.results_eq hs)⟩

/-- What is confined to the results above a position leaves them alone where they are silenced: from
that position on, none has been added. -/
theorem Hushed.confined (h : s.Hushed s') (h' : s'.Confined s.position s'') : s.Hushed s'' := by
  have hextends : s.Extends s'' := h'.toKeeps.extends h.toExtends
  refine ⟨hextends, fun hs ↦ ?_⟩
  have hadded : s''.results <+: s.results :=
    h.results_eq hs ▸ h'.isPrefix_of_silenced (h.resultsSilenced_eq.trans_ne hs)
  exact hadded.eq_of_length (Nat.le_antisymm hadded.length_le hextends.isPrefix.length_le)

/-- **The engine does nothing to silenced results.** -/
theorem Hushed.lasting : Lasting (Hushed : State input U → State input U → Prop) where
  refl s := ⟨.refl s, fun _ ↦ rfl⟩
  trans := Hushed.trans
  noted s event := ⟨Extends.lasting.noted s event, fun _ ↦ noted_results s event⟩
  failAt s offset reason :=
    ⟨Extends.lasting.failAt s offset reason, fun _ ↦ failAt_results s offset reason⟩
  commit s f := ⟨Extends.lasting.commit s f, fun _ ↦ commitUnlessSilenced_results s f⟩
  advance s n := ⟨s.advance_extends n, fun _ ↦ rfl⟩
  push s value := ⟨s.push_extends value, fun hs ↦ by rw [push_eq_self hs]⟩
  back h := ⟨(h.toExtends.undone_restore rfl).extends, fun _ ↦
    (h.toExtends.undone_restore rfl).results_eq⟩
  silently h := ⟨h.toExtends.unsilenceErrors, h.results_eq⟩
  unheard h := ⟨h.toExtends.unsilenceResults, fun _ ↦ h.results_eq (Nat.succ_ne_zero _)⟩
  rejoin {s ended} h := ⟨Extends.lasting.rejoin h.toExtends, fun hs ↦
    (Evaluate.rejoin_undone s.furthest ended.unsilenceErrors).results_eq.trans (h.results_eq hs)⟩

end State

/-- A program that is confined does nothing to silenced results, if the symbols that it asks for do
not either. -/
theorem Program.Confined.run {s s₁ : State input U} {p : Program N input U}
    (h : p.Confined s.position s₁) {match? : N → Step input U} {reply : Reply input U}
    (hs : s.Hushed s₁) (hsymbols : ∀ n, p.Asks n → Leads State.Hushed (match? n))
    (hrun : p.run match? = some reply) : s.Hushed reply.2 := by
  induction h with
  | done h =>
    cases hrun
    exact hs.confined h
  | @call s₁ s₂ symbol next h _ ih =>
    rcases hmatch : match? symbol s₂ with _ | found
    all_goals simp only [Program.run, hmatch] at hrun
    · cases hrun
    · have hfound : s₂.Hushed found.2 := hsymbols symbol .now s₂ found hmatch
      exact ih hfound.toExtends ((hs.confined h).trans hfound)
        (fun n hn ↦ hsymbols n (.later found hn)) hrun

/-! ## Layers -/

namespace Evaluate

variable {body : Position → Step input U} (hbody : LeadsFrom State.Hushed body)
  {s s' : State input U}

include hbody

/-- A lookahead adds no results. -/
theorem lookahead_results {outcome : Outcome}
    (h : lookahead body s.position s = some (outcome, s')) : s'.results = s.results := by
  rw [lookahead] at h
  split at h
  · cases h
  · next o t ht =>
    cases h
    exact (hbody s.silenceResults _ ht).results_eq (Nat.succ_ne_zero _)

/-- What matches flat adds the span that it has matched, and no more. -/
theorem flat_results (hs : s.resultsSilenced = 0)
    (h : flat body s.position s = some (.ok, s')) :
    s.cursor ≤ s'.cursor ∧
      s'.results = s.results ++ [.slice (State.between input s.cursor s'.cursor)] := by
  rcases hinside : lookahead body s.position s with _ | ⟨_ | _ | _, t⟩
  all_goals simp only [flat, hinside] at h
  · cases h
  · have hextends : s.Extends t :=
      lookahead_lasts State.Extends.lasting.guarded
        (fun s reply hreply ↦ (hbody s reply hreply).toExtends) s _ hinside
    have hstart : min s.position.offset t.cursor = s.cursor := Nat.min_eq_left hextends.cursor_le
    have hspan : t.matched s.position = State.between input s.cursor t.cursor := by
      rw [State.matched, hstart]
    have hheard : t.resultsSilenced = 0 := hextends.resultsSilenced_eq.trans hs
    cases h
    rw [hspan, State.push, if_pos hheard]
    refine ⟨hextends.cursor_le, ?_⟩
    show t.results ++ _ = _
    rw [lookahead_results hbody hinside]
  · cases h
  · cases h

end Evaluate

/-! ## Whole rules -/

namespace Rule

variable {g : Grammar N U} {r : Rule N U}

/-- What matching a rule rests on: the rules inside, and the rule's own action. -/
theorem parts_hushed {eval : Rule N U → Step input U}
    (heval : ∀ rule : Rule N U,
      (∀ action : Action N U, rule.Involves g @action → ConfinedAction @action) →
        Leads State.Hushed (eval rule))
    (hr : ∀ action : Action N U, r.Involves g @action → ConfinedAction @action) :
    (∀ rule ∈ r.kind.inner g, Leads State.Hushed (eval rule)) ∧
      ∀ action : Action N U, r.kind.Runs @action → ∀ (s s₁ : State input U) reply, s.Hushed s₁ →
        (action s₁ s.position).run (fun n ↦ eval (g n)) = some reply → s.Hushed reply.2 := by
  refine ⟨fun rule hrule ↦ heval rule fun action h ↦ hr @action (.within hrule h), ?_⟩
  intro action hruns s s₁ reply hs hrun
  have hprogram := hr @action (.here hruns) s₁ s.position hs.cursor_le hs.isPrefix.length_le
  exact hprogram.run hs
    (fun n hasks ↦ heval (g n) fun action' h ↦ hr @action' (.asked hruns hasks h)) hrun

/-- **A rule does nothing to silenced results**, if all actions involved are confined, by induction
on the budget. -/
theorem evaluate_hushed (budget : Nat)
    (hr : ∀ action : Action N U, r.Involves g @action → ConfinedAction @action) :
    Leads State.Hushed (r.evaluate g budget : Step input U) := by
  induction budget generalizing r with
  | zero => exact fun _ _ h ↦ nomatch h
  | succ budget ih =>
    obtain ⟨hinner, hruns⟩ := parts_hushed (fun _ h ↦ ih h) hr
    exact step_lasts State.Hushed.lasting hinner hruns

/-- The same of what a rule matches with other modifiers. -/
theorem modified_hushed (budget : Nat) (m : Modifiers)
    (hr : ∀ action : Action N U, r.Involves g @action → ConfinedAction @action) :
    LeadsFrom State.Hushed (Evaluate.modified m
      (Evaluate.kind g (evaluate g budget) r.name r.kind) : Position → Step input U) := by
  obtain ⟨hinner, hruns⟩ := parts_hushed (fun _ h ↦ evaluate_hushed budget h) hr
  exact Evaluate.modified_lasts State.Hushed.lasting.guarded m <|
    Evaluate.kind_lasts State.Hushed.lasting.guarded r.kind.fits_all hinner hruns r.name

/-! ### Taking layers apart -/

theorem modified_lookahead {m : Modifiers} (hoptional : m.optional = false)
    (hlookahead : m.lookahead = true) (body : Position → Step input U) :
    Evaluate.modified m body =
      Evaluate.lookahead (Evaluate.modified { m with lookahead := false } body) := by
  obtain ⟨optional, lookahead, flat, repeated, repeatedOrNone⟩ := m
  cases hoptional
  cases hlookahead
  rfl

theorem modified_flat {m : Modifiers} (hoptional : m.optional = false)
    (hlookahead : m.lookahead = false) (hflat : m.flat = true) (body : Position → Step input U) :
    Evaluate.modified m body = Evaluate.flat (Evaluate.modified { m with flat := false } body) := by
  obtain ⟨optional, lookahead, flat, repeated, repeatedOrNone⟩ := m
  cases hoptional
  cases hlookahead
  cases hflat
  rfl

/-! ### Success on the outside

Entering and leaving a rule, and being optional, are no matter of results. -/

/-- The two states have the same cursor, and the same results, silenced to the same depth. -/
structure SameResults (s s' : State input U) : Prop where
  cursor_eq : s'.cursor = s.cursor
  results_eq : s'.results = s.results
  resultsSilenced_eq : s'.resultsSilenced = s.resultsSilenced

theorem SameResults.refl (s : State input U) : SameResults s s := ⟨rfl, rfl, rfl⟩

theorem SameResults.trans {s s' s'' : State input U} (h : SameResults s s')
    (h' : SameResults s' s'') : SameResults s s'' :=
  ⟨h'.cursor_eq.trans h.cursor_eq, h'.results_eq.trans h.results_eq,
    h'.resultsSilenced_eq.trans h.resultsSilenced_eq⟩

theorem SameResults.position_eq {s s' : State input U} (h : SameResults s s') :
    s'.position = s.position := by
  simp only [State.position, h.cursor_eq, h.results_eq]

theorem sameResults_noted (s : State input U) (event : Unit → Event) :
    SameResults s (s.noted event) :=
  ⟨State.noted_cursor s event, State.noted_results s event, State.noted_resultsSilenced s event⟩

/-- A set of modifiers, but not optional. -/
def mandatory (m : Modifiers) : Modifiers := { m with optional := false }

/-- What matches with modifiers has matched without being optional. -/
theorem modified_inside {m : Modifiers} {body : Position → Step input U} {start : Position}
    {s s' : State input U} (h : Evaluate.modified m body start s = some (.ok, s')) :
    ∃ t t', Evaluate.modified (mandatory m) body start t = some (.ok, t') ∧
      SameResults s t ∧ SameResults t' s' := by
  obtain ⟨optional, lookahead, flat, repeated, repeatedOrNone⟩ := m
  cases optional with
  | false => exact ⟨s, s', h, .refl s, .refl s'⟩
  | true =>
    let inside := Evaluate.modified ⟨false, lookahead, flat, repeated, repeatedOrNone⟩ body
    change Evaluate.optional inside start s = some (.ok, s') at h
    rcases hinside : inside start s.silenceErrors with _ | ⟨_ | _ | _, t⟩
    all_goals simp only [Evaluate.optional, hinside] at h
    · cases h
    · cases h
      exact ⟨s.silenceErrors, t, hinside, ⟨rfl, rfl, rfl⟩, ⟨rfl, rfl, rfl⟩⟩
    · cases h
    · cases h

/-- A rule that matches has matched without being optional. -/
theorem matched_inside {budget : Nat} {s s' : State input U}
    (h : r.evaluate g budget s = some (.ok, s')) :
    ∃ inner t t', Evaluate.modified (mandatory r.modifiers)
        (Evaluate.kind g (evaluate g inner) r.name r.kind) t.position t = some (.ok, t') ∧
      SameResults s t ∧ SameResults t' s' := by
  cases budget with
  | zero => cases h
  | succ budget =>
    rw [evaluate, step] at h
    split at h
    · cases h
    · next reply hbody =>
      obtain ⟨outcome, left⟩ := reply
      cases outcome with
      | ok =>
        cases h
        obtain ⟨t, t', hinside, ht, ht'⟩ := modified_inside hbody
        have hentered := (sameResults_noted s _).trans ht
        rw [← hentered.position_eq] at hinside
        exact ⟨budget, t, t', hinside, hentered, ht'.trans (sameResults_noted left _)⟩
      | fail => cases h
      | noMatch => cases h

/-- **Lookaheads and flat rules are in control of the results.**  Let all actions involved in
matching a rule be confined to what lies above the position that they are given.  If the rule is a
lookahead and matches, the results are those on entry.  If it is flat and no lookahead and matches
where results are not silenced, they are those on entry and behind them one more, the span of the
input from the cursor on entry to the cursor on leaving, however often it was repeated.  And where
results are silenced, they are those on entry, whatever the outcome. -/
theorem evaluate_controls_results (g : Grammar N U) (budget : Nat) (r : Rule N U)
    (hconfined : ∀ action : Action N U, r.Involves g @action → ConfinedAction @action)
    (s s' : State input U) (outcome : Outcome) (h : r.evaluate g budget s = some (outcome, s')) :
    (outcome = .ok → r.modifiers.lookahead = true → s'.results = s.results) ∧
      (outcome = .ok → r.modifiers.flat = true → r.modifiers.lookahead = false →
        s.resultsSilenced = 0 → s.cursor ≤ s'.cursor ∧
          s'.results = s.results ++ [.slice (State.between input s.cursor s'.cursor)]) ∧
      (s.resultsSilenced ≠ 0 → s'.results = s.results) := by
  refine ⟨?_, ?_, (evaluate_hushed budget hconfined s _ h).results_eq⟩
  · rintro rfl hlookahead
    obtain ⟨inner, t, t', hinside, ht, ht'⟩ := matched_inside h
    rw [modified_lookahead (m := mandatory r.modifiers) rfl hlookahead] at hinside
    have hresults := Evaluate.lookahead_results (modified_hushed inner _ hconfined) hinside
    rw [ht'.results_eq, hresults, ht.results_eq]
  · rintro rfl hflat hlookahead hheard
    obtain ⟨inner, t, t', hinside, ht, ht'⟩ := matched_inside h
    rw [modified_flat (m := mandatory r.modifiers) rfl hlookahead hflat] at hinside
    obtain ⟨hle, hresults⟩ := Evaluate.flat_results (modified_hushed inner _ hconfined)
      (ht.resultsSilenced_eq.trans hheard) hinside
    rw [ht'.results_eq, hresults, ht'.cursor_eq, ht.results_eq, ← ht.cursor_eq]
    exact ⟨hle, rfl⟩

/-! ### Integers as a span -/

theorem closeUnsigned_confined (radix : Nat) :
    ConfinedAction (DirectAction.toAction (N := N) (Leaf.closeUnsigned (U := U) radix)) := by
  refine confined_toAction fun s start hs ↦ ?_
  rw [Leaf.closeUnsigned]
  split
  · exact s.okReplace_confined hs _
  · exact s.failAt_confined hs _ _

theorem closeSigned_confined :
    ConfinedAction (DirectAction.toAction (N := N) (Leaf.closeSigned (U := U))) := by
  refine confined_toAction fun s start hs ↦ ?_
  rw [Leaf.closeSigned]
  split
  · exact s.failAt_confined hs _ _
  · split
    · exact s.okReplace_confined hs _
    · exact s.failAt_confined hs _ _

theorem askInteger_confined (action : Action Unit Unit) (h : askInteger.Involves integers @action) :
    ConfinedAction @action := by
  have hask : askInteger.Every ConfinedAction := fun _ s _ hs _ ↦
    .call (.of_results_eq (.refl s) rfl hs) fun hextends ↦
      .done (.of_results_eq (.refl _) rfl (Nat.le_trans hs hextends.cursor_le))
  exact Every.of_involves
    (fun _ ↦ every_signedDecimal (closeUnsigned_confined 10) closeSigned_confined) hask h

/-- The bytes of `7-8;` with the cursor at the start, and one result. -/
def twoIntegers : State #[0x37, 0x2D, 0x38, 0x3B] Unit where
  results := [.null]
  user := ()

/-- An action asks for one integer after the other.  Matched flat, the two add one span; in a
lookahead they add nothing, and neither do they where results are silenced. -/
theorem evaluate_controls_results_twoIntegers :
    (∀ action : Action Unit Unit, askInteger.Involves integers @action →
        ConfinedAction @action) ∧
      (∃ s', askInteger.repeated.flat.evaluate integers 8 twoIntegers = some (.ok, s') ∧
        s'.results = [.null, .slice [0x37, 0x2D, 0x38]]) ∧
      (∃ s', askInteger.repeated.lookahead.evaluate integers 8 twoIntegers = some (.ok, s') ∧
        s'.results = [.null]) ∧
      ∃ s', askInteger.repeated.evaluate integers 8 twoIntegers.silenceResults = some (.ok, s') ∧
        s'.results = [.null] := by
  have hflat : (askInteger.repeated.flat.evaluate integers 8 twoIntegers).map
      (fun (outcome, t) ↦ (outcome, t.cursor)) = some (.ok, 3) := by decide +kernel
  have hlookahead : (askInteger.repeated.lookahead.evaluate integers 8 twoIntegers).map Prod.fst =
      some .ok := by decide +kernel
  have hsilenced : (askInteger.repeated.evaluate integers 8 twoIntegers.silenceResults).map
      Prod.fst = some .ok := by decide +kernel
  -- modifiers do not change which actions are involved
  have hconfined (r : Rule Unit Unit) (hkind : askInteger.kind = r.kind) (action : Action Unit Unit)
      (h : r.Involves integers @action) : ConfinedAction @action :=
    askInteger_confined @action (h.of_kind_eq hkind)
  refine ⟨askInteger_confined, ?_, ?_, ?_⟩
  · obtain ⟨⟨outcome, s'⟩, h, heq⟩ := Option.map_eq_some_iff.1 hflat
    obtain ⟨rfl, hcursor⟩ := Prod.mk.inj heq
    obtain ⟨-, hspan, -⟩ := evaluate_controls_results integers 8 askInteger.repeated.flat
      (hconfined _ rfl)
      twoIntegers s' .ok h
    obtain ⟨-, hresults⟩ := hspan rfl rfl rfl rfl
    rw [hcursor] at hresults
    exact ⟨s', h, hresults.trans (by decide)⟩
  · obtain ⟨⟨outcome, s'⟩, h, rfl⟩ := Option.map_eq_some_iff.1 hlookahead
    obtain ⟨hnone, -, -⟩ := evaluate_controls_results integers 8 askInteger.repeated.lookahead
      (hconfined _ rfl)
      twoIntegers s' .ok h
    exact ⟨s', h, hnone rfl rfl⟩
  · obtain ⟨⟨outcome, s'⟩, h, rfl⟩ := Option.map_eq_some_iff.1 hsilenced
    obtain ⟨-, -, hnone⟩ := evaluate_controls_results integers 8 askInteger.repeated
      (hconfined _ rfl)
      twoIntegers.silenceResults s' .ok h
    exact ⟨s', h, hnone Nat.one_ne_zero⟩

end Rule

end DocGrammar
