import DocGrammar.Proofs.Termination.Budget
import DocGrammar.Proofs.Termination.Documents
import DocGrammar.Proofs.Text.Alignment

/-!
# A text is read as texts

Where the input is a text, nothing in it is ever taken for bytes that are no text: every string
begins and ends between two characters, and resolving its escapes leaves a text.  So no action that
decodes a string ever fails for that reason, whether that would be reported or not, and whatever
else may be wrong with the input.

That follows rule by rule from alignment (`grammar_sustains`); reading starts in an aligned state.
-/

set_option autoImplicit false

namespace DocGrammar

open State (StaysAligned StaysLegible)
open Utf8 (IsText IsBoundary)

namespace TextGrammar

variable {input : Array UInt8}

/-- Aligned states stay aligned through a rule, if they do through what it is made of. -/
abbrev KeepsAligned (input : Array UInt8) (r : TextRule) : Prop :=
  r.Sustains grammar (StaysAligned : State input Builder → State input Builder → Prop)

/-! ## Runs of any bytes -/

/-- **A run sustains alignment**, if it takes texts off texts.  Inside it, states are legible only.
What the run comes to as a whole is what its scanner says, with a budget that is large enough. -/
theorem run_sustains {r : TextRule} {depth : Nat} {p : Scanner}
    (hfits : r.fitsWithin grammar (fun label ↦ !isToken label) (fun _ ↦ true) depth = true)
    (hactions : r.Every (LeadingAction
      (StaysLegible : State input Builder → State input Builder → Prop)))
    (hreads : r.Reads grammar false depth p) (htext : p.TakesText) :
    KeepsAligned input r := by
  intro budget _ s reply h hs
  have hlegible := Rule.leads_of_fitsWithin State.legible_guarded hfits hactions budget s reply h
    hs.toLegible
  obtain ⟨reply', hreply', hscan⟩ := hreads input (budget + depth) (Nat.le_add_left _ _) s nofun
  obtain rfl := Rule.evaluate_unique h hreply'
  generalize hp : p s.rest = scan at hscan
  cases hscan with
  | @ok token rest values s' htook =>
    obtain ⟨htoken, hvalues⟩ := htext hp
      (htook.input_eq ▸ s.rest_eq.symm ▸ hs.boundary.behind)
    refine ⟨hlegible, ?_, fun value hvalue ↦ ?_⟩
    · rw [htook.cursor_eq]
      exact hs.boundary.advance (s.rest_eq ▸ htook.input_eq) htoken
    · rw [htook.results_eq] at hvalue
      rcases List.mem_append.1 hvalue with hvalue | hvalue
      · exact hs.spans value hvalue
      · unfold State.heard at hvalue
        split at hvalue
        · exact hvalues value hvalue
        · cases hvalue
  | fail hsame => exact hs.of_legible hlegible hsame.cursor_eq hsame.results_eq
  | noMatch hsame => exact hs.of_legible hlegible hsame.cursor_eq hsame.results_eq

/-! ## Actions -/

section

variable {s : State input Builder} (hs : s.Aligned)

include hs

theorem aligned_fail {text : String} (htext : text ≠ "invalid UTF-8 in string") :
    (s.fail (.message text)).2.Aligned :=
  hs.failAt s.cursor fun h ↦ htext (Reason.message.inj h)

theorem aligned_okReplace (start : Position) {value : Value} (hvalue : value.slice? = none) :
    (s.okReplace start value).2.Aligned :=
  (hs.truncate start).push (Value.isText_of_slice?_eq_none hvalue)

theorem aligned_built (start : Position) (change : Builder → Builder) :
    (built s start change).2.Aligned :=
  (hs.withUser _).truncate start

/-- A text is kept. -/
theorem aligned_keepText {bytes : List UInt8} (hbytes : IsText bytes) (start : Position) :
    (keepText (Utf8.decode bytes) s start).2.Aligned := by
  obtain ⟨text, htext⟩ := Option.isSome_iff_exists.1 (Utf8.isText_iff_decode.1 hbytes)
  rw [htext, keepText]
  exact aligned_built hs start _

theorem aligned_closeDecimal (start : Position) : (Leaf.closeDecimal s start).2.Aligned := by
  dsimp only [Leaf.closeDecimal]
  split
  · exact aligned_fail hs (by decide)
  · split
    · exact aligned_okReplace hs start rfl
    · exact aligned_fail hs (by decide)

theorem aligned_closeUnsigned (radix : Nat) (start : Position) :
    (Leaf.closeUnsigned radix s start).2.Aligned := by
  dsimp only [Leaf.closeUnsigned]
  split
  · exact aligned_okReplace hs start rfl
  · exact aligned_fail hs (by decide)

theorem aligned_closeSigned (start : Position) : (Leaf.closeSigned s start).2.Aligned := by
  dsimp only [Leaf.closeSigned]
  split
  · exact aligned_fail hs (by decide)
  · split
    · exact aligned_okReplace hs start rfl
    · exact aligned_fail hs (by decide)

theorem aligned_delimiter (start : Position) : (delimiter s start).2.Aligned := by
  dsimp only [delimiter]
  split
  · split
    · exact aligned_fail hs (by decide)
    · exact hs
  · exact hs

theorem aligned_rejectNumber (start : Position) : (rejectNumber s start).2.Aligned := by
  dsimp only [rejectNumber]
  split
  · split <;> exact aligned_fail hs (by decide)
  · exact aligned_fail hs (by decide)

theorem aligned_emitScalar (start : Position) : (emitScalar s start).2.Aligned := by
  dsimp only [emitScalar]
  split
  · exact aligned_built hs start _
  · exact aligned_fail hs (by decide)

theorem aligned_emitVector (start : Position) : (emitVector s start).2.Aligned := by
  dsimp only [emitVector]
  split
  · split
    · exact aligned_built hs start _
    · exact aligned_fail hs (by decide)
  · split <;> exact aligned_fail hs (by decide)

theorem aligned_documentEnd (start : Position) : (documentEnd s start).2.Aligned := by
  dsimp only [documentEnd]
  split
  · exact hs
  · repeat' split
    all_goals exact hs.failAt s.cursor (by decide)

/-- Fluff ends where a character begins, however it ends. -/
theorem aligned_skip (start : Position) : (Fluff.skip s start).2.Aligned := by
  have hskipped := hs.moveTo (Fluff.scan_isBoundary hs.boundary)
  dsimp only [Fluff.skip]
  split
  · exact hskipped
  · exact aligned_fail hskipped (by decide)
  · exact aligned_fail hskipped (by decide)

theorem aligned_quotedEnd (start : Position) : (quotedEnd s start).2.Aligned := by
  dsimp only [quotedEnd]
  split
  · next b hpeek =>
    split
    · next hquote => exact hs.advance_one hpeek (hquote ▸ by decide)
    · split <;> exact aligned_fail hs (by decide)
  · exact aligned_fail hs (by decide)

/-- What is in front of a fence is a text, as the fence is ASCII; and so is the whole input. -/
theorem aligned_blockBody (start : Position) : (blockBody s start).2.Aligned := by
  have hrest : IsText s.rest := s.rest_eq.symm ▸ hs.boundary.behind
  have hbody := Direct.blockBody_eq s.rest
  dsimp only [blockBody]
  split
  · next body hbefore =>
    rw [hbefore] at hbody
    obtain ⟨left, -, hsplit⟩ := hbody
    have htext := isText_beforeFence hbefore hrest
    have hadvanced := hs.advance hsplit (htext.append isText_fence)
    rw [List.length_append] at hadvanced
    exact hadvanced.push fun span hspan ↦ by
      cases hspan
      exact htext
  · have hend : IsBoundary input (min input.size input.size) :=
      (Nat.min_self _).symm ▸ .size hs.boundary.input_isText
    exact aligned_fail (hs.moveTo hend) (by decide)

theorem aligned_collectionEnd (form : Form) (start : Position) :
    (collectionEnd form s start).2.Aligned := by
  dsimp only [collectionEnd]
  split
  · next b hpeek =>
    split
    · next hcloser => exact hs.advance_one hpeek (hcloser ▸ by cases form <;> decide)
    · exact hs.failAt s.cursor (by simp [noText])
  · exact aligned_fail hs (by decide)

end

/-- **Actions lead from aligned states to aligned states.** -/
theorem actions_aligned : DirectActions
    (LeadingAction (StaysAligned : State input Builder → State input Builder → Prop)) where
  okWith _ hvalue := .of_direct fun _ _ hs ↦ hs.push (Value.isText_of_slice?_eq_none hvalue)
  closeDecimal := .of_direct fun _ start hs ↦ aligned_closeDecimal hs start
  closeUnsigned radix := .of_direct fun _ start hs ↦ aligned_closeUnsigned hs radix start
  closeSigned := .of_direct fun _ start hs ↦ aligned_closeSigned hs start
  delimiter := .of_direct fun _ start hs ↦ aligned_delimiter hs start
  rejectNumber := .of_direct fun _ start hs ↦ aligned_rejectNumber hs start
  keepRaw := .of_direct fun _ start hs ↦ aligned_keepText hs (hs.sliceSince start) start
  keepUnescaped := .of_direct fun _ start hs ↦
    aligned_keepText hs (hs.sliceSince start).unescape start
  emitScalar := .of_direct fun _ start hs ↦ aligned_emitScalar hs start
  emitString := .of_direct fun _ start hs ↦ aligned_built hs start _
  emitVector := .of_direct fun _ start hs ↦ aligned_emitVector hs start
  setName := .of_direct fun _ start hs ↦ aligned_built hs start _
  documentEnd := .of_direct fun _ start hs ↦ aligned_documentEnd hs start
  skip := .of_direct fun _ start hs ↦ aligned_skip hs start
  quotedEnd := .of_direct fun _ start hs ↦ aligned_quotedEnd hs start
  blockBody := .of_direct fun _ start hs ↦ aligned_blockBody hs start
  collectionEnd form := .of_direct fun _ start hs ↦ aligned_collectionEnd hs form start

/-- A collection is opened and closed by bytes of ASCII, and leads to its body in between. -/
theorem scope_aligned (form : Form) (match? : Symbol → Step input Builder)
    (hmatch : ∀ n, Leads StaysAligned (match? n)) (start : Position) :
    Leads StaysAligned fun s ↦ (scope form s start).run match? := by
  intro s reply hreply hs
  dsimp only [scope] at hreply
  split at hreply
  · rw [Program.run] at hreply
    split at hreply
    · cases hreply
    · next outcome s₁ hbody =>
      cases hreply
      exact (hmatch _ _ _ hbody (hs.withUser _)).withUser _
  · cases hreply
    exact hs.failAt s.cursor (by simp [noText])

/-! ## Rules -/

/-- What consumes ASCII only. -/
theorem finite_sustains {r : TextRule}
    (hfits : r.fitsWithin grammar (fun _ ↦ true) State.isAscii wordHeight = true)
    (hactions : r.Every
      (LeadingAction (StaysAligned : State input Builder → State input Builder → Prop))) :
    KeepsAligned input r :=
  fun budget _ ↦ Rule.leads_of_fitsWithin State.aligned_guarded hfits hactions budget

theorem allOf_sustains {name : Option String} {m : Modifiers} {rules : List TextRule}
    (h : rules.Forall (KeepsAligned input)) : KeepsAligned input ⟨name, m, .allOf rules⟩ :=
  .allOf State.aligned_guarded rfl (List.forall_iff_forall_mem.1 h)

theorem anyOf_sustains {name : Option String} {m : Modifiers} {rules : List TextRule}
    (h : rules.Forall (KeepsAligned input)) : KeepsAligned input ⟨name, m, .anyOf rules⟩ :=
  .anyOf State.aligned_guarded rfl (List.forall_iff_forall_mem.1 h)

theorem skip_sustains : KeepsAligned input (act Fluff.skip) :=
  finite_sustains (by decide) actions_aligned.skip

theorem identifier_sustains : KeepsAligned input identifier := by
  refine .closing State.aligned_guarded rfl (run_sustains ?_ ?_ Direct.identifier_reads ?_)
    actions_aligned.keepRaw
  · decide +kernel
  · simp [identifierStart]
  · exact Direct.headed_takesText (Byte.forall_of_lt (by decide +kernel))

theorem quotedString_sustains : KeepsAligned input quotedString := by
  have hrun : KeepsAligned input (Rule.anyOf [escapePair, plain]).repeatedOrNone.flat :=
    run_sustains (by decide +kernel) (by simp [escapePair, plain]) Direct.quotedRun_reads
      Direct.quotedRun_takesText
  exact .closing State.aligned_guarded rfl
    (allOf_sustains ⟨finite_sustains (by decide) trivial, hrun,
      finite_sustains (by decide) actions_aligned.quotedEnd⟩) actions_aligned.keepUnescaped

theorem blockString_sustains : KeepsAligned input blockString :=
  finite_sustains (by decide)
    ⟨⟨trivial, actions_aligned.blockBody, trivial⟩, actions_aligned.keepRaw⟩

theorem string_sustains : KeepsAligned input string :=
  anyOf_sustains ⟨identifier_sustains, quotedString_sustains, blockString_sustains⟩

theorem malformedNumber_sustains : KeepsAligned input malformedNumber := by
  refine .closing State.aligned_guarded rfl (run_sustains ?_ ?_ Direct.numberSpan_reads ?_)
    actions_aligned.rejectNumber
  · decide +kernel
  · simp
  · exact Direct.headed_takesText (Byte.forall_of_lt (by decide +kernel))

theorem vector_sustains : KeepsAligned input vector := by
  have hnumber : KeepsAligned input (Rule.anyOf
      [delimited Leaf.decimalAny, delimited Leaf.signedAny, malformedNumber]) :=
    anyOf_sustains
      ⟨finite_sustains (by decide +kernel) (actions_aligned.delimited actions_aligned.decimalAny),
        finite_sustains (by decide +kernel) (actions_aligned.delimited actions_aligned.signedAny),
        malformedNumber_sustains⟩
  have hnumbers : KeepsAligned input (Rule.allOf [act Fluff.skip, (thenFluff (Rule.anyOf
      [delimited Leaf.decimalAny, delimited Leaf.signedAny, malformedNumber])).repeatedOrNone]) :=
    allOf_sustains ⟨skip_sustains, allOf_sustains ⟨hnumber, skip_sustains⟩⟩
  exact .closing State.aligned_guarded rfl
    (.bounded State.aligned_guarded rfl (by decide) (by decide) hnumbers) actions_aligned.emitVector

theorem scope_sustains (form : Form) : KeepsAligned input (.leaf (scope form)) :=
  .leaf State.aligned_guarded rfl (scope_aligned form)

/-- The rule of a symbol, matched over and over with fluff behind it. -/
theorem items_sustains (item : Symbol) :
    KeepsAligned input (thenFluff (.symbol item)).repeatedOrNone :=
  allOf_sustains ⟨.symbol State.aligned_guarded item rfl, skip_sustains⟩

theorem body_sustains (form : Form) (item : Symbol) : KeepsAligned input (body form item) :=
  allOf_sustains
    ⟨finite_sustains (by cases form <;> decide) trivial, skip_sustains, items_sustains item,
      finite_sustains (by cases form <;> decide) (actions_aligned.collectionEnd form)⟩

/-- **Aligned states stay aligned in reading a document**, whatever is read. -/
theorem grammar_sustains : ∀ n, KeepsAligned input (grammar n)
  | .document =>
    allOf_sustains ⟨skip_sustains, items_sustains .member,
      finite_sustains (by decide) actions_aligned.documentEnd⟩
  | .member => by
    have hname : KeepsAligned input memberName :=
      .closing State.aligned_guarded rfl
        (allOf_sustains ⟨string_sustains, finite_sustains (by decide +kernel)
          ⟨trivial, trivial, trivial⟩, finite_sustains (by decide) trivial⟩)
        actions_aligned.setName
    exact allOf_sustains ⟨hname, skip_sustains, .symbol State.aligned_guarded _ rfl⟩
  | .value =>
    anyOf_sustains
      ⟨finite_sustains (by decide +kernel) actions_aligned.scalar, malformedNumber_sustains,
        .closing State.aligned_guarded rfl string_sustains actions_aligned.emitString,
        vector_sustains, scope_sustains .array, scope_sustains .node⟩
  | .nodeBody => body_sustains .node .member
  | .arrayBody => body_sustains .array .value

end TextGrammar

/-! ## Messages -/

namespace Utf8

/-- What leaves room for another character has not been cut. -/
theorem fitting_eq {room : Nat} {letters short : List Char} (h : fitting room letters = short)
    (hroom : 4 * (short.length + 1) ≤ room) : letters = short := by
  induction letters generalizing room short with
  | nil => rwa [fitting] at h
  | cons c letters ih =>
    have hsize := c.utf8Size_le_four
    rw [fitting] at h
    split at h
    · subst h
      rw [List.length_cons] at hroom
      rw [← ih rfl (by omega)]
    · omega

theorem clip_ne {limit : Nat} {text short : String} (h : text ≠ short)
    (hlimit : 4 * (short.toList.length + 1) ≤ limit) : clip limit text ≠ short := by
  intro hclip
  have hfitting : fitting limit text.toList = short.toList := by
    rw [← hclip, clip, String.toList_ofList]
  exact h (String.toList_inj.1 (fitting_eq hfitting hlimit))

end Utf8

/-- The engine tells what was expected. -/
theorem Failure.message_of_isEngines {f : Failure} (h : f.reason.isEngines = true) :
    ∃ told, f.message = "expected " ++ told := by
  obtain ⟨offset, found, reason⟩ := f
  cases reason with
  | message text => cases h
  | noAlternative name => cases name <;> exact ⟨_, String.append_assoc ..⟩
  | _ => exact ⟨_, String.append_assoc ..⟩

theorem Failure.message_ne {f : Failure} (h : f.reason ≠ TextGrammar.noText) :
    f.message ≠ "invalid UTF-8 in string" := by
  intro hmessage
  cases hengines : f.reason.isEngines with
  | true =>
    obtain ⟨told, htold⟩ := message_of_isEngines hengines
    have hhead := congrArg (fun text : String ↦ text.toList.head?) (htold.symm.trans hmessage)
    simp [String.toList_append] at hhead
  | false =>
    obtain ⟨offset, found, reason⟩ := f
    cases reason with
    | message text => exact h (congrArg Reason.message hmessage)
    | _ => cases hengines

namespace State

variable {input : Array UInt8} {s : State input Builder}

/-- A legible state reports something else. -/
theorem Legible.report_ne (h : s.Legible) : s.report.message ≠ "invalid UTF-8 in string" := by
  have hclip {message : String} (hmessage : message ≠ "invalid UTF-8 in string") :
      Utf8.clip ParseError.messageLimit message ≠ "invalid UTF-8 in string" :=
    Utf8.clip_ne hmessage (by decide)
  have hreported : ∀ f ∈ s.reported, f.reason ≠ TextGrammar.noText := by
    intro f hf
    unfold reported at hf
    split at hf
    · next error furthest herror hfurthest =>
      split at hf <;> cases hf
      · exact h.furthest f hfurthest
      · exact h.error f herror
    · next error herror _ =>
      cases hf
      exact h.error f herror
    · exact h.furthest f hf
  unfold report
  split
  · next f hf => exact hclip (Failure.message_ne (hreported f hf))
  · exact hclip (by decide)

theorem Legible.answer (h : s.Legible) (start : Nat) (outcome : Outcome) :
    (answer start (outcome, s)).2.Legible := by
  cases outcome with
  | fail => exact h.noted (fun _ ↦ .report s.report) trivial
  | ok => exact h.of_eq rfl rfl rfl
  | noMatch => exact h.of_eq rfl rfl rfl

theorem isSome_trace_answer (start : Nat) (outcome : Outcome) (s : State input Builder) :
    (answer start (outcome, s)).2.trace.isSome = s.trace.isSome := by
  cases outcome with
  | fail =>
    rw [State.answer, State.noted]
    split
    · rfl
    · next events hevents => rw [hevents]; rfl
  | ok => rfl
  | noMatch => rfl

end State

namespace Doc

variable {input : Array UInt8}

/-- A state is aligned at the start of a text. -/
theorem initialState_aligned (root : Doc) (h : IsText input.toList) (trace : Option (Array Event))
    (htrace : ∀ events ∈ trace, events = #[]) :
    State.Aligned { initialState root input with trace } where
  trace events hevents event hevent := by
    rw [htrace events hevents] at hevent
    cases Array.not_mem_empty event hevent
  furthest _ h := by cases h
  error _ h := by cases h
  boundary := .zero h
  spans _ h := by cases h

/-- Reading a text ends in a legible state, traced or not. -/
theorem parse_legible (root : Doc) (h : IsText input.toList) (trace : Option (Array Event))
    (htrace : ∀ events ∈ trace, events = #[]) :
    ∃ reply : Reply input Builder,
      State.parse TextGrammar.grammar (readBudget input.size) TextGrammar.document
          { initialState root input with trace } = some (State.answer 0 reply) ∧
        reply.2.Legible ∧ reply.2.trace.isSome = trace.isSome := by
  obtain ⟨reply, events, hreply, hevents, -⟩ := (TextGrammar.document_terminates input).1
    { initialState root input with trace } 0
  have haligned := (TextGrammar.grammar_sustains .document).leads TextGrammar.grammar_sustains _ _ _
    hreply (initialState_aligned root h trace htrace)
  refine ⟨reply, ?_, haligned.toLegible, by rw [hevents, Option.isSome_map]⟩
  rw [State.parse, State.drive]
  exact congrArg (Option.map _) hreply

/-- **A text is read as texts.**  Let the input be a text.  Whatever is wrong with it, no failure is
ever recorded, let alone reported, about bytes that are no text: neither by the actions that decode
identifiers and block strings, nor by the one that decodes quoted strings.  All these tokens are
entered and left at boundaries between characters; and resolving the escapes of a text leaves a
text, whatever character a backslash stands before. -/
theorem read_text_as_texts (text : String) (root : Doc) :
    let input := (Utf8.encode text).toArray
    (∃ answer events,
      State.parse TextGrammar.grammar (readBudget input.size) TextGrammar.document
          { initialState root input with trace := some #[] } = some answer ∧
        answer.2.trace = some events ∧
        (∀ f, .failure f ∈ events → f.reason ≠ .message "invalid UTF-8 in string") ∧
        ∀ token ∈ [TextGrammar.identifier, TextGrammar.quotedString, TextGrammar.blockString],
          ∀ offset,
            (.enter (token.label TextGrammar.grammar) offset ∈ events →
              IsBoundary input offset) ∧
            ∀ outcome, .leave (token.label TextGrammar.grammar) offset outcome ∈ events →
              IsBoundary input offset) ∧
      (∀ e, (root.read input).1 = .error e → e.message ≠ "invalid UTF-8 in string") ∧
      ∀ raw : String, ∃ resolved : String,
        Quoted.unescape (Utf8.encode raw) = Utf8.encode resolved := by
  intro input
  have hinput : IsText input.toList := ⟨text, rfl⟩
  refine ⟨?_, fun e he ↦ ?_, fun raw ↦ ?_⟩
  · obtain ⟨⟨outcome, s⟩, hparse, hlegible, htraced⟩ :=
      parse_legible root hinput (some #[]) fun events h ↦ (Option.some.inj h).symm
    have hanswer := (hlegible.answer 0 outcome).trace
    obtain ⟨events, hevents⟩ := Option.isSome_iff_exists.1
      ((State.isSome_trace_answer 0 outcome s).trans htraced)
    refine ⟨_, events, hparse, hevents, fun f hf ↦ hanswer events hevents _ hf,
      fun token htoken offset ↦ ?_⟩
    have hlabel : TextGrammar.isToken (token.label TextGrammar.grammar) = true :=
      List.contains_iff_mem.2 (List.mem_map_of_mem htoken)
    exact ⟨fun hentered ↦ hanswer events hevents _ hentered hlabel,
      fun outcome hleft ↦ hanswer events hevents _ hleft hlabel⟩
  · obtain ⟨⟨outcome, s⟩, hparse, hlegible, -⟩ := parse_legible root hinput none nofun
    have hreport := hlegible.report_ne
    change State.parse _ _ _ (initialState root input) = _ at hparse
    rw [read, hparse] at he
    cases outcome with
    | fail =>
      cases he
      exact hreport
    | ok => cases he
    | noMatch => cases he
  · obtain ⟨resolved, hresolved⟩ := Utf8.IsText.unescape ⟨raw, rfl⟩
    exact ⟨resolved, hresolved.symm⟩

end Doc
end DocGrammar
