import DocGrammar.Proofs.Scan.Scanner
import Mathlib.Data.List.Forall2

/-!
# The engine's combinators scan

For each combinator of the evaluator this file shows that it scans what the scanner of the same
name does, provided its parts scan.  The inductions are those of the definitions: over the rules of
a sequence or a choice, and over the rounds of a repetition.

`Rule.Reads` puts them together for a whole rule.  It carries the depth of the rule, since a rule
is evaluated within a budget.
-/

set_option autoImplicit false

namespace DocGrammar

variable {N U : Type} {input : Array UInt8} {loud : Bool}

theorem Scans.mono {step : Step input U} {p : Scanner} (h : Scans false step p) :
    Scans loud step p :=
  fun s _ ↦ h s nofun

namespace Evaluate

/-! ## Sequences and choices -/

theorem inOrder_scans {eval : Rule N U → Step input U} {rules : List (Rule N U)}
    {ps : List Scanner} (h : List.Forall₂ (fun r p ↦ Scans loud (eval r) p) rules ps) :
    ∀ (matched : Bool) (s : State input U), (loud = true → s.resultsSilenced = 0) →
      ∃ reply, inOrder eval rules (if matched then .ok else .noMatch) s = some reply ∧
        Fits s s.Beyond (Scanner.inOrder ps matched s.rest) reply := by
  induction h with
  | nil =>
    intro matched s _
    refine ⟨_, rfl, ?_⟩
    cases matched with
    | true => exact .ok (.refl s)
    | false => exact .noMatch (State.Same.refl s).beyond
  | @cons rule p rules ps hrule _ ih =>
    intro matched s hs
    obtain ⟨⟨outcome, s₁⟩, hreply, hfits⟩ := hrule s hs
    rw [inOrder, hreply, Scanner.inOrder]
    generalize p s.rest = scan at hfits ⊢
    cases hfits with
    | @ok token rest values _ ht =>
      obtain ⟨reply, hreply, hfits⟩ := ih true s₁ fun hl ↦ ht.resultsSilenced_eq.trans (hs hl)
      rw [ht.rest_eq] at hfits
      exact ⟨reply, hreply, hfits.after ht⟩
    | fail hsame => exact ⟨_, rfl, .fail hsame.beyond⟩
    | noMatch hsame =>
      obtain ⟨reply, hreply, hfits⟩ :=
        ih matched s₁ fun hl ↦ hsame.resultsSilenced_eq.trans (hs hl)
      rw [hsame.rest_eq] at hfits
      exact ⟨reply, hreply, hfits.of_same hsame⟩

/-- Going back to where a state was changes nothing. -/
theorem restore_same {s s₁ : State input U} (h : s.Same s₁) :
    s.Same (s₁.restore s.position) :=
  h.beyond.same_restore

theorem firstOf_scans {eval : Rule N U → Step input U} {rules : List (Rule N U)}
    {ps : List Scanner} (h : List.Forall₂ (fun r p ↦ Scans loud (eval r) p) rules ps) :
    ∀ (s : State input U), (loud = true → s.resultsSilenced = 0) →
      ∃ reply, firstOf eval s.position rules s = some reply ∧
        Fits s s.Beyond (Scanner.firstOf ps s.rest) reply := by
  induction h with
  | nil => exact fun s _ ↦ ⟨_, rfl, .fail (State.Same.refl s).beyond⟩
  | @cons rule p rules ps hrule _ ih =>
    intro s hs
    obtain ⟨⟨outcome, s₁⟩, hreply, hfits⟩ := hrule s hs
    -- an attempt that is given up leaves everything as it was
    have hnext (hsame : s.Same s₁) : ∃ reply,
        firstOf eval s.position rules (s₁.restore s.position) = some reply ∧
          Fits s s.Beyond (Scanner.firstOf ps s.rest) reply := by
      have hback := restore_same hsame
      obtain ⟨reply, hreply, hfits⟩ :=
        ih (s₁.restore s.position) fun hl ↦ hback.resultsSilenced_eq.trans (hs hl)
      rw [hback.position_eq] at hreply
      rw [hback.rest_eq] at hfits
      exact ⟨reply, hreply, hfits.of_same hback⟩
    rw [firstOf, hreply, Scanner.firstOf]
    generalize p s.rest = scan at hfits ⊢
    cases hfits with
    | @ok token rest values _ ht => exact ⟨_, rfl, .ok ht⟩
    | fail hsame => exact hnext hsame
    | noMatch hsame => exact hnext hsame

theorem choice_scans {eval : Rule N U → Step input U} {rules : List (Rule N U)}
    {ps : List Scanner} (h : List.Forall₂ (fun r p ↦ Scans loud (eval r) p) rules ps)
    (name : Option String) : ScansFrom loud (choice eval name rules) (Scanner.firstOf ps) := by
  intro s hs
  have hquiet : s.silenceErrors.Same { s.silenceErrors with furthest := none } :=
    ⟨⟨rfl, rfl, rfl, rfl⟩, rfl⟩
  obtain ⟨⟨outcome, ended⟩, hreply, hfits⟩ :=
    firstOf_scans h { s.silenceErrors with furthest := none } hs
  obtain ⟨s', hchoice, hsame⟩ := choice_eq name hreply
  exact ⟨_, hchoice, (hfits.of_same hquiet).unsilenceErrors.trans_same hsame⟩

/-! ## Kinds -/

theorem oneByte_scans (accepts : UInt8 → Bool) (reason : Reason) (s : State input U) :
    Fits s s.Beyond (Scanner.byte accepts s.rest) (oneByte accepts reason s) := by
  rw [oneByte, State.peek_eq]
  cases hrest : s.rest with
  | nil => exact .fail (s.failAt_same _ _).beyond
  | cons b rest =>
    rw [Scanner.byte, List.head?_cons]
    by_cases hb : accepts b = true
    · simp only [hb, if_true]
      exact .ok (State.advance_push_took (show s.rest = [b] ++ rest from hrest) (.char b))
    · simp only [hb]
      exact .fail (s.failAt_same _ _).beyond

theorem literal_scans (bytes : List UInt8) (s : State input U) :
    Fits s s.Beyond (Scanner.word bytes s.rest) (literal bytes s.position s) := by
  rw [literal, State.holdsAt_eq, ← State.rest_eq, Scanner.word]
  by_cases h : bytes.isPrefixOf s.rest = true
  · obtain ⟨rest, hrest⟩ := List.isPrefixOf_iff_prefix.1 h
    have htook := State.advance_took hrest.symm
    rw [if_pos h, if_pos h, ← hrest, List.drop_left]
    show Fits s _ _ (.ok, (s.advance bytes.length).push _)
    rw [htook.matched_eq]
    exact .ok (State.advance_push_took hrest.symm (.slice bytes))
  · rw [if_neg h, if_neg h]
    exact .fail (s.failAt_same _ _).beyond

/-- A bracket is taken without a value. -/
theorem bracket_took {s : State input U} {c : UInt8} {rest : List UInt8} (h : s.rest = c :: rest) :
    s.Took [c] rest [] s.user (s.advance 1) :=
  State.advance_took (show s.rest = [c] ++ rest from h)

/-- What takes a certain byte, or fails, is a match of that byte without its value. -/
theorem taken_fits {s : State input U} {b : UInt8} {reply : Reply input U}
    (hok : s.peek = some b → reply = (.ok, s.advance 1))
    (hfail : s.peek ≠ some b → ∃ reason, reply = s.fail reason) :
    Fits s s.Beyond (Scanner.lookahead (Scanner.byte (· == b)) s.rest) reply := by
  by_cases h : s.peek = some b
  · rw [hok h]
    rw [State.peek_eq, List.head?_eq_some_iff] at h
    obtain ⟨rest, hrest⟩ := h
    rw [hrest]
    simp only [Scanner.lookahead, Scanner.byte, beq_self_eq_true, if_true]
    exact .ok (bracket_took hrest)
  · obtain ⟨reason, rfl⟩ := hfail h
    have hscan : Scanner.lookahead (Scanner.byte (· == b)) s.rest = .fail := by
      rw [State.peek_eq] at h
      cases hrest : s.rest with
      | nil => rfl
      | cons c rest =>
        have hc : c ≠ b := fun hc ↦ h (by rw [hrest, hc, List.head?_cons])
        simp [Scanner.lookahead, Scanner.byte, hc]
    rw [hscan]
    exact .fail (s.failAt_same _ _).beyond

theorem closer_fits (closer : UInt8) (s : State input U) :
    Fits s s.Beyond
      (Scanner.inOrder [Scanner.lookahead (Scanner.byte (· == closer))] true s.rest)
      (if s.peek = some closer then (.ok, s.advance 1) else s.fail (.expectedCloser closer)) := by
  have hlast (bytes : List UInt8) :
      Scanner.inOrder [Scanner.lookahead (Scanner.byte (· == closer))] true bytes =
        Scanner.lookahead (Scanner.byte (· == closer)) bytes := by
    cases bytes with
    | nil => rfl
    | cons c rest =>
      by_cases hc : c = closer <;>
        simp [Scanner.inOrder, Scanner.lookahead, Scanner.byte, hc, Scan.after]
  rw [hlast]
  exact taken_fits (fun h ↦ if_pos h) fun h ↦ ⟨_, if_neg h⟩

/-- Matching between two brackets is a sequence of three. -/
theorem bounded_scans {inside : Step input U} {p : Scanner} (h : Scans loud inside p)
    (opener closer : UInt8) (s : State input U) (hs : loud = true → s.resultsSilenced = 0) :
    ∃ reply, bounded opener closer inside s = some reply ∧
      Fits s s.Beyond (Scanner.bounded opener closer p s.rest) reply := by
  rw [bounded, State.peek_eq, Scanner.bounded, Scanner.inOrder]
  cases hrest : s.rest with
  | nil => exact ⟨_, rfl, .fail (s.failAt_same _ _).beyond⟩
  | cons c rest =>
    by_cases hc : c = opener
    · subst hc
      have hopened := bracket_took hrest
      obtain ⟨⟨outcome, s₁⟩, hreply, hfits⟩ := h (s.advance 1) hs
      simp only [Scanner.lookahead, Scanner.byte, beq_self_eq_true, if_true, List.head?_cons,
        hreply]
      rw [← hopened.rest_eq, Scanner.inOrder]
      generalize p (s.advance 1).rest = scan at hfits ⊢
      cases hfits with
      | @ok token rest values _ ht =>
        have hclosed := (closer_fits closer s₁).after ht
        rw [ht.rest_eq] at hclosed
        exact ⟨_, (apply_ite some _ _ _).symm, hclosed.after hopened⟩
      | fail hsame => exact ⟨_, rfl, .fail (hopened.beyond.trans hsame.beyond)⟩
      | noMatch hsame =>
        have hclosed := (closer_fits closer s₁).of_same hsame
        rw [hsame.rest_eq] at hclosed
        exact ⟨_, (apply_ite some _ _ _).symm, hclosed.after hopened⟩
    · have hc' : (c == opener) = false := beq_eq_false_iff_ne.2 hc
      simp only [Scanner.lookahead, Scanner.byte, hc', List.head?_cons, Option.some.injEq, hc,
        if_false, Bool.false_eq_true]
      exact ⟨_, rfl, .fail (s.failAt_same _ _).beyond⟩

/-- An action scans if its replies do. -/
theorem leaf_scans {g : Grammar N U} {eval : Rule N U → Step input U} {name : Option String}
    {act : DirectAction U} {p : Scanner}
    (h : ∀ s : State input U, (loud = true → s.resultsSilenced = 0) →
      Fits s s.Beyond (p s.rest) (act s s.position)) :
    ScansFrom loud (fun start ↦ kind g eval name (.leaf (DirectAction.toAction @act)) start) p :=
  fun s hs ↦ ⟨_, rfl, h s hs⟩

/-- An action on what a rule matched gives the values that are said, or fails. -/
def Closes (act : DirectAction U) (f : List UInt8 → List Value → Option (List Value)) : Prop :=
  ∀ {input : Array UInt8} {s s₁ : State input U} {token rest : List UInt8} {values : List Value},
    s.resultsSilenced = 0 → s.Took token rest values s.user s₁ →
      match f token values with
      | some values' =>
        ∃ s', act s₁ s.position = (.ok, s') ∧ s.Took token rest values' s.user s'
      | none => ∃ s', act s₁ s.position = (.fail, s') ∧ s.Beyond s'

theorem closing_scans {g : Grammar N U} {eval : Rule N U → Step input U} {name : Option String}
    {inner : Rule N U} {p : Scanner} {act : DirectAction U}
    {f : List UInt8 → List Value → Option (List Value)} (h : Scans true (eval inner) p)
    (hact : Closes @act f) :
    ScansFrom true
      (fun start ↦ kind g eval name (.closing inner (DirectAction.toAction @act)) start)
      (Scanner.closing p f) := by
  intro s hs
  obtain ⟨⟨outcome, s₁⟩, hreply, hfits⟩ := h s hs
  simp only [kind, hreply, Scanner.closing]
  generalize p s.rest = scan at hfits ⊢
  cases hfits with
  | @ok token rest values _ ht =>
    have hclose := hact (hs rfl) ht
    simp only [if_pos (ht.resultsSilenced_eq.trans (hs rfl))]
    cases hf : f token values with
    | some values' =>
      rw [hf] at hclose
      obtain ⟨s', hdone, htook⟩ := hclose
      exact ⟨_, congrArg some hdone, .ok htook⟩
    | none =>
      rw [hf] at hclose
      obtain ⟨s', hdone, hbeyond⟩ := hclose
      exact ⟨_, congrArg some hdone, .fail hbeyond⟩
  | fail hsame => exact ⟨_, rfl, .fail hsame.beyond⟩
  | noMatch hsame => exact ⟨_, rfl, .noMatch hsame.beyond⟩

/-! ## Repetition -/

/-- As many rounds as the engine allows are as many as the rest could ever need. -/
theorem again_scans {body : Position → Step input U} {p : Scanner} (h : ScansFrom loud body p) :
    ∀ (rounds : Nat) (s : State input U), (loud = true → s.resultsSilenced = 0) →
      ∃ s', again body rounds s = some s' ∧
        s.Took (Scanner.again p rounds s.rest).1 (Scanner.again p rounds s.rest).2.1
          (Scanner.again p rounds s.rest).2.2 s.user s'
  | 0, s, _ => ⟨s, rfl, .refl s⟩
  | rounds + 1, s, hs => by
    obtain ⟨⟨outcome, s₁⟩, hreply, hfits⟩ := h s hs
    rw [again, hreply, Scanner.again]
    generalize p s.rest = scan at hfits ⊢
    cases hfits with
    | @ok token rest values _ ht =>
      by_cases htoken : token = []
      · subst htoken
        simp only [ht.cursor_eq, List.length_nil, Nat.add_zero, Nat.lt_irrefl, if_false, if_true]
        exact ⟨s₁, rfl, ht⟩
      · have hpos : s.cursor < s₁.cursor := by
          have := List.length_pos_iff.2 htoken
          have := ht.cursor_eq
          omega
        obtain ⟨s', hagain, htook⟩ :=
          again_scans h rounds s₁ fun hl ↦ ht.resultsSilenced_eq.trans (hs hl)
        rw [ht.rest_eq, ht.user_eq] at htook
        simp only [if_pos hpos, if_neg htoken]
        exact ⟨s', hagain, ht.trans htook⟩
    | fail hbeyond => exact ⟨_, rfl, (State.Took.refl s).trans_same hbeyond.same_restore⟩
    | noMatch hbeyond => exact ⟨_, rfl, (State.Took.refl s).trans_same hbeyond.same_restore⟩

theorem repeated_scans {body : Position → Step input U} {p : Scanner}
    (h : ScansFrom loud body p) : ScansFrom loud (repeated body) (Scanner.repeated p) := by
  intro s hs
  obtain ⟨⟨outcome, s₁⟩, hreply, hfits⟩ := h s hs
  rw [repeated, hreply, Scanner.repeated]
  generalize p s.rest = scan at hfits ⊢
  cases hfits with
  | @ok token rest values _ ht =>
    obtain ⟨s', hagain, htook⟩ := again_scans h (input.size + 1 - s₁.cursor) s₁.silenceErrors
      fun hl ↦ ht.resultsSilenced_eq.trans (hs hl)
    have hrounds : input.size + 1 - s₁.cursor = rest.length + 1 := by
      have hlength := s₁.length_rest
      have := s₁.cursor_le
      rw [ht.rest_eq] at hlength
      omega
    have hquiet : s₁.Took _ _ _ s.user s'.unsilenceErrors :=
      ⟨htook.input_eq, htook.cursor_eq, htook.results_eq,
        htook.extends.unsilenceErrors.errorsSilenced_eq, htook.resultsSilenced_eq,
        htook.user_eq.trans ht.user_eq⟩
    have hrest : s₁.silenceErrors.rest = rest := ht.rest_eq
    rw [hrest, hrounds] at hquiet
    simp only [hagain]
    exact ⟨_, rfl, .ok (ht.trans hquiet)⟩
  | fail hbeyond => exact ⟨_, rfl, .fail hbeyond⟩
  | noMatch hbeyond => exact ⟨_, rfl, .noMatch hbeyond⟩

/-! ## Modifiers -/

theorem optional_scans {body : Position → Step input U} {p : Scanner}
    (h : ScansFrom loud body p) : ScansFrom loud (optional body) (Scanner.optional p) := by
  intro s hs
  obtain ⟨⟨outcome, s₁⟩, hreply, hfits⟩ := h s.silenceErrors hs
  have hfits : Fits s s.Beyond (p s.rest) (outcome, s₁.unsilenceErrors) := hfits.unsilenceErrors
  rw [optional, show body s.position s.silenceErrors = _ from hreply, Scanner.optional]
  generalize p s.rest = scan at hfits ⊢
  cases hfits with
  | @ok token rest values _ ht => exact ⟨_, rfl, .ok ht⟩
  | fail hbeyond => exact ⟨_, rfl, .noMatch hbeyond.same_restore.beyond⟩
  | noMatch hbeyond => exact ⟨_, rfl, .noMatch hbeyond⟩

/-- Inside, results are silenced; so what is inside has to scan in every state. -/
theorem lookahead_scans {body : Position → Step input U} {p : Scanner}
    (h : ScansFrom false body p) : ScansFrom loud (lookahead body) (Scanner.lookahead p) := by
  intro s _
  obtain ⟨⟨outcome, s₁⟩, hreply, hfits⟩ := h s.silenceResults nofun
  rw [lookahead, show body s.position s.silenceResults = _ from hreply, Scanner.lookahead]
  change Fits s.silenceResults s.silenceResults.Beyond (p s.rest) _ at hfits
  have hbeyond {s' : State input U} (h : s.silenceResults.Beyond s') :
      s.Beyond s'.unsilenceResults := ⟨h.toExtends.unsilenceResults, h.user_eq⟩
  generalize p s.rest = scan at hfits ⊢
  cases hfits with
  | @ok token rest values _ ht =>
    have hextends := ht.extends.unsilenceResults
    exact ⟨_, rfl, .ok ⟨ht.input_eq, ht.cursor_eq, by
      rw [State.heard_nil]
      exact ht.results_eq, hextends.errorsSilenced_eq, hextends.resultsSilenced_eq, ht.user_eq⟩⟩
  | fail h => exact ⟨_, rfl, .fail (hbeyond h)⟩
  | noMatch h => exact ⟨_, rfl, .noMatch (hbeyond h)⟩

theorem flat_scans {body : Position → Step input U} {p : Scanner}
    (h : ScansFrom false body p) : ScansFrom loud (flat body) (Scanner.flat p) := by
  intro s hs
  obtain ⟨⟨outcome, s₁⟩, hreply, hfits⟩ := (lookahead_scans h : ScansFrom loud _ _) s hs
  rw [flat, hreply, Scanner.flat, Scanner.lookahead]
  rw [Scanner.lookahead] at hfits
  cases hp : p s.rest with
  | ok token rest values =>
    rw [hp] at hfits
    cases hfits with
    | ok ht =>
      have hpushed := ht.trans (s₁.push_took (.slice (s₁.matched s.position)))
      rw [ht.matched_eq, ht.rest_eq, ht.user_eq, List.append_nil, List.nil_append] at hpushed
      simp only [ht.matched_eq]
      exact ⟨_, rfl, .ok hpushed⟩
  | fail =>
    rw [hp] at hfits
    cases hfits with
    | fail h => exact ⟨_, rfl, .fail h⟩
  | noMatch =>
    rw [hp] at hfits
    cases hfits with
    | noMatch h => exact ⟨_, rfl, .noMatch h⟩

/-- The modifiers of a rule.  A rule under a modifier that silences results has to scan in every
state. -/
theorem modified_scans (m : Modifiers) {body : Position → Step input U} {p : Scanner}
    (h : ScansFrom (loud && !(m.lookahead || m.flat)) body p) :
    ScansFrom loud (modified m body) (Scanner.modified m p) := by
  have hwrap {l : Bool} {wrapper : (Position → Step input U) → Position → Step input U}
      {wrapper' : Scanner → Scanner} (hw : ∀ {body p}, ScansFrom l body p →
        ScansFrom l (wrapper body) (wrapper' p)) (wanted : Bool) {body : Position → Step input U}
      {p : Scanner} (h : ScansFrom l body p) :
      ScansFrom l (wrapIf wanted wrapper body) (Scanner.wrapIf wanted wrapper' p) := by
    cases wanted with
    | false => exact h
    | true => exact hw h
  have hinner := hwrap optional_scans m.repeatedOrNone
    (hwrap repeated_scans (m.repeated || m.repeatedOrNone) h)
  refine hwrap optional_scans m.optional ?_
  obtain ⟨optional, lookahead, flat, repeated, repeatedOrNone⟩ := m
  cases lookahead with
  | false =>
    cases flat with
    | false =>
      simp only [Bool.or_self, Bool.not_false, Bool.and_true] at hinner
      exact hinner
    | true =>
      simp only [Bool.false_or, Bool.not_true, Bool.and_false] at hinner
      exact flat_scans hinner
  | true =>
    simp only [Bool.true_or, Bool.not_true, Bool.and_false] at hinner
    refine lookahead_scans ?_
    cases flat with
    | false => exact hinner
    | true => exact flat_scans hinner

end Evaluate

/-! ## Whole rules -/

/-- **One level of evaluation scans** what the body of the rule does. -/
theorem Rule.step_scans {g : Grammar N U} {eval : Rule N U → Step input U} {r : Rule N U}
    {p : Scanner}
    (h : ScansFrom loud (Evaluate.modified r.modifiers (Evaluate.kind g eval r.name r.kind)) p) :
    Scans loud (r.step g eval) p := by
  intro s hs
  obtain ⟨entered, hentered, hstep⟩ := Rule.step_eq g eval r s
  obtain ⟨⟨outcome, left⟩, hreply, hfits⟩ :=
    h entered fun hl ↦ hentered.resultsSilenced_eq.trans (hs hl)
  obtain ⟨s', hreply', hsame⟩ := hstep _ hreply
  refine ⟨_, hreply', ?_⟩
  rw [hentered.rest_eq] at hfits
  generalize p s.rest = scan at hfits ⊢
  cases hfits with
  | ok ht => exact .ok ((hentered.trans_took (hentered.user_eq ▸ ht)).trans_same hsame)
  | fail hbeyond => exact .fail ((hentered.trans hbeyond.same_restore).trans hsame)
  | noMatch hbeyond => exact .noMatch ((hentered.trans hbeyond.same_restore).trans hsame)

/-- A rule reads what a scanner does, on every input, if the budget is at least its depth. -/
def Rule.Reads (g : Grammar N U) (loud : Bool) (depth : Nat) (r : Rule N U) (p : Scanner) : Prop :=
  ∀ (input : Array UInt8) (budget : Nat), depth ≤ budget →
    Scans loud (r.evaluate g budget : Step input U) p

namespace Rule.Reads

variable {g : Grammar N U} {depth depth' : Nat} {name : Option String} {m : Modifiers}
  {r : Rule N U} {p : Scanner}

theorem congr {q : Scanner} (h : r.Reads g loud depth p) (hpq : ∀ bytes, p bytes = q bytes) :
    r.Reads g loud depth q :=
  funext hpq ▸ h

theorem mono (h : r.Reads g loud depth p) (hdepth : depth ≤ depth') : r.Reads g loud depth' p :=
  fun input budget hbudget ↦ h input budget (Nat.le_trans hdepth hbudget)

/-- A scanner that is read by a rule splits what it is given. -/
theorem append_eq (h : r.Reads g loud depth p) (user : U) {bytes token rest : List UInt8}
    {values : List Value} (hp : p bytes = .ok token rest values) : bytes = token ++ rest := by
  have hrest : ({ user } : State bytes.toArray U).rest = bytes := by rw [State.rest_eq]; rfl
  obtain ⟨reply, -, hfits⟩ := h bytes.toArray depth (Nat.le_refl _) { user } fun _ ↦ rfl
  rw [hrest, hp] at hfits
  cases hfits with
  | ok ht => exact hrest.symm.trans ht.input_eq

theorem of_quiet (h : r.Reads g false depth p) : r.Reads g loud depth p :=
  fun input budget hbudget ↦ (h input budget hbudget).mono

/-- A rule reads what its kind does, under its modifiers. -/
theorem of_kind {k : Kind N U (Rule N U)}
    (h : ∀ (input : Array UInt8) (budget : Nat), depth ≤ budget →
      ScansFrom (loud && !(m.lookahead || m.flat))
        (Evaluate.kind g (Rule.evaluate g budget : Rule N U → Step input U) name k) p) :
    Reads g loud (depth + 1) ⟨name, m, k⟩ (Scanner.modified m p)
  | _, 0, hbudget => absurd hbudget (Nat.not_succ_le_zero _)
  | input, budget + 1, hbudget =>
    Rule.step_scans (Evaluate.modified_scans m (h input budget (Nat.le_of_succ_le_succ hbudget)))

theorem byte (b : UInt8) :
    Reads g loud 1 ⟨name, m, .byte b⟩ (Scanner.modified m (.byte (· == b))) :=
  of_kind fun _ _ (_ : 0 ≤ _) s _ ↦ ⟨_, rfl, Evaluate.oneByte_scans _ _ s⟩

theorem range (low high : UInt8) :
    Reads g loud 1 ⟨name, m, .range low high⟩
      (Scanner.modified m (.byte fun b ↦ low ≤ b && b ≤ high)) :=
  of_kind fun _ _ (_ : 0 ≤ _) s _ ↦ ⟨_, rfl, Evaluate.oneByte_scans _ _ s⟩

theorem literal (bytes : List UInt8) :
    Reads g loud 1 ⟨name, m, .literal bytes⟩ (Scanner.modified m (.word bytes)) :=
  of_kind fun _ _ (_ : 0 ≤ _) s _ ↦ ⟨_, rfl, Evaluate.literal_scans bytes s⟩

theorem allOf {rules : List (Rule N U)} {ps : List Scanner}
    (h : List.Forall₂ (Reads g (loud && !(m.lookahead || m.flat)) depth) rules ps) :
    Reads g loud (depth + 1) ⟨name, m, .allOf rules⟩
      (Scanner.modified m (Scanner.inOrder ps false)) :=
  of_kind fun input budget hbudget ↦
    Evaluate.inOrder_scans (h.imp fun _ _ hrule ↦ hrule input budget hbudget) false

theorem anyOf {rules : List (Rule N U)} {ps : List Scanner}
    (h : List.Forall₂ (Reads g (loud && !(m.lookahead || m.flat)) depth) rules ps) :
    Reads g loud (depth + 1) ⟨name, m, .anyOf rules⟩ (Scanner.modified m (Scanner.firstOf ps)) :=
  of_kind fun input budget hbudget ↦
    Evaluate.choice_scans (h.imp fun _ _ hrule ↦ hrule input budget hbudget) name

theorem bounded {inner : Rule N U} (opener closer : UInt8)
    (h : inner.Reads g (loud && !(m.lookahead || m.flat)) depth p) :
    Reads g loud (depth + 1) ⟨name, m, .bounded opener closer inner⟩
      (Scanner.modified m (Scanner.bounded opener closer p)) :=
  of_kind fun input budget hbudget ↦
    Evaluate.bounded_scans (h input budget hbudget) opener closer

/-- A rule with an action reads where results are heard. -/
theorem closing {inner : Rule N U} {act : DirectAction U}
    {f : List UInt8 → List Value → Option (List Value)} (h : inner.Reads g true depth p)
    (hact : Evaluate.Closes @act f) :
    Reads g true (depth + 1) ⟨name, {}, .closing inner (DirectAction.toAction @act)⟩
      (Scanner.closing p f) :=
  of_kind (m := {}) fun input budget hbudget ↦
    Evaluate.closing_scans (h input budget hbudget) @hact

theorem leaf {act : DirectAction U}
    (h : ∀ {input : Array UInt8} (s : State input U), (loud = true → s.resultsSilenced = 0) →
      Fits s s.Beyond (p s.rest) (act s s.position)) :
    Reads g loud 1 ⟨name, {}, .leaf (DirectAction.toAction @act)⟩ p :=
  of_kind (m := {}) fun _ _ (_ : 0 ≤ _) ↦ Evaluate.leaf_scans fun s hs ↦
    h s (by simpa using hs)

end Rule.Reads
end DocGrammar
