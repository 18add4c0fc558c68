import DocGrammar.Proofs.Diagnostics.Trying

/-!
# Where numbers are tried

Where a number may stand is a matter of the bytes: what is before such a place can be read
(`Direct.NumberPlace`).  When the reader tries one is a matter of the run: it enters the rule for a
value, or the one for a component of a vector (`Doc.Enters`).  The main result is that it does so
at places for numbers only, whatever comes of it, and however the document goes on
(`Doc.Enters.place`).

The rules for values, members and collections are treated together, by induction on the length of
what is left to read: every bracket takes a byte, and so does every name.
-/

set_option autoImplicit false

namespace DocGrammar

open Direct (Components DocumentPlace Idle NumberPlace Place Unread itemSymbol)

variable {input : Array UInt8}

namespace TextGrammar

variable {budget : Nat} {ready ready' : Builder → Prop} {r : TextRule} {bytes rest : List UInt8}
  {s s' : State input Builder} {outcome : Outcome}

/-! ## Vectors -/

theorem vectorNumber_reads : vectorNumber.Reads grammar true 9 Direct.numberScanner :=
  (List.forall₂_cons.1 Direct.vectorSteps_reads).1

theorem vectorNumber_leaves : Leaves input ready ready vectorNumber bytes fun rest ↦
    ∃ content, Direct.number bytes = some (content, rest) := by
  rintro budget outcome s s' rfl hs huser hreply hne
  obtain ⟨reply, hreads, hfits⟩ := vectorNumber_reads input 9 (Nat.le_refl _) s fun _ ↦ hs
  cases Rule.evaluate_unique hreply hreads
  have hgives := Direct.numberScanner_gives s.rest
  rcases hnumber : Direct.number s.rest with _ | ⟨content, rest⟩
  all_goals rw [hnumber] at hgives
  · rw [hgives] at hfits
    cases hfits
    exact absurd rfl hne
  · obtain ⟨token, value, hscan, -⟩ := hgives
    rw [hscan] at hfits
    cases hfits with
    | ok ht =>
      exact ⟨rfl, ht.resultsSilenced_eq.trans hs, ht.user_eq ▸ huser, content,
        by rw [ht.rest_eq]⟩

/-- Components can be read up to here. -/
def AtComponent (input : Array UInt8) (bytes : List UInt8) : Prop :=
  ∀ target, Components target bytes → NumberPlace target input.toList

theorem AtComponent.tries (h : AtComponent input bytes) :
    TriesPlaces input ready vectorNumber bytes := by
  refine .of_body (fun _ ↦ h _ .here) fun budget outcome s s' hs _ hreply ↦ ?_
  refine Evaluate.choice_lasts State.placed_guarded (fun r hr ↦ plainRule_stays ?_ budget) none s _
    hreply hs.placed
  simp only [List.mem_cons, List.not_mem_nil, or_false] at hr
  rcases hr with rfl | rfl | rfl <;> simp [plainRules]

theorem vector_tries (hplace : DocumentPlace bytes input.toList) :
    TriesPlaces input ready vector bytes := by
  have hinside (rest : List UInt8) (hbytes : bytes = 0x28 :: rest) : TriesPlaces input ready
      (.allOf [act Fluff.skip, (thenFluff vectorNumber).repeatedOrNone]) rest := by
    refine TriesInOrder.allOf (.behind_skip fun left hfluff ↦ .here ?_ (by simp)) rfl
    refine repetition_tries (P := AtComponent input) (fun _ h ↦ h.tries)
      (fun bytes h budget outcome s s' hrest hs huser hreply hne ↦ ?_)
      fun target htarget ↦ .inr ⟨rest, left, hbytes ▸ hplace, hfluff, htarget⟩
    obtain ⟨hok, hs', huser', content, hnumber⟩ :=
      vectorNumber_leaves hrest hs huser hreply hne
    exact ⟨hok, hs', huser', fun left hfluff target htarget ↦ h _ (.later hnumber hfluff htarget)⟩
  have hbounded : TriesPlaces input ready (.bounded 0x28 0x29
      (.allOf [act Fluff.skip, (thenFluff vectorNumber).repeatedOrNone])) bytes :=
    .bounded (by decide) hinside
  exact hbounded.closing (words_plain fun _ ↦ true).emitVector (by decide)

/-! ## Collections -/

/-- Items can be read up to here. -/
def AtItem (input : Array UInt8) (form : Form) (bytes : List UInt8) : Prop :=
  ∀ target, Place target (.items form) bytes → DocumentPlace target input.toList

section

-- values try places where less is left to read
variable {n : Nat} (hvalue : ∀ bytes : List UInt8, bytes.length < n →
  DocumentPlace bytes input.toList → TriesPlaces input Unread value bytes)

include hvalue

theorem member_tries (hlength : bytes.length ≤ n) (h : AtItem input .node bytes) :
    TriesPlaces input Idle member bytes := by
  have hheading : Leaves input Idle Unread memberName bytes fun rest ↦
      ∃ name, Direct.heading bytes = some (name, rest) :=
    .of_builds Direct.memberName_builds (fun _ _ ↦ trivial) (fun _ _ _ ↦ rfl)
      fun name _ hread ↦ ⟨name, hread⟩
  refine TriesInOrder.allOf (.behind (by simp [plainRules]) hheading ?_) (by decide)
  rintro rest ⟨name, hname⟩
  refine .behind_skip fun left hfluff ↦ .here (.symbol (by decide) ?_) (by simp)
  have hrest : rest.length < bytes.length := Direct.heading_shortens hname
  have hleft : left.length ≤ rest.length := Direct.fluff_length_le hfluff
  exact hvalue left (by omega) (h _ (.member hname hfluff .here))

theorem item_tries {form : Form} (hlength : bytes.length < n) (h : AtItem input form bytes) :
    TriesPlaces input Idle (.symbol (itemSymbol form)) bytes := by
  cases form with
  | array =>
    have helement := hvalue bytes hlength (h _ (.element .here))
    exact .symbol (by decide) (helement.imp fun _ hb ↦ hb.scratch_eq)
  | node => exact .symbol (by decide +kernel) (member_tries hvalue (Nat.le_of_lt hlength) h)

theorem items_try {form : Form} (hlength : bytes.length < n) (h : AtItem input form bytes) :
    TriesPlaces input Idle (itemsOf form) bytes := by
  refine repetition_tries (P := fun bytes ↦ bytes.length < n ∧ AtItem input form bytes)
    (fun bytes h ↦ item_tries hvalue h.1 h.2) (fun bytes h ↦ ?_) ⟨hlength, h⟩
  refine .of_builds (Direct.item_builds form bytes.length) (fun _ hb ↦ ⟨hb, Nat.le_refl _⟩)
    (fun doc _ hb ↦ hb.add doc) fun doc rest hitem left hfluff ↦ ⟨?_, fun target htarget ↦ ?_⟩
  · have hrest : rest.length < bytes.length :=
      Direct.itemOf_shortens form (Direct.value_shortens _) hitem
    have hleft : left.length ≤ rest.length := Direct.fluff_length_le hfluff
    omega
  · exact h.2 _ (.later hitem hfluff htarget)

/-- The body of a collection that stands at a place. -/
theorem body_tries {form : Form} (hlength : rest.length < n)
    (hplace : DocumentPlace (opener form :: rest) input.toList) :
    TriesPlaces input Idle (body form (itemSymbol form)) (opener form :: rest) := by
  have hopener : Leaves input Idle Idle (Rule.byte (opener form)).lookahead (opener form :: rest)
      (· = rest) :=
    .of_builds (Direct.opener_builds form) (fun _ _ ↦ trivial) (fun _ _ h ↦ h)
      fun _ left hread ↦ by simpa using hread.symm
  have hmember : (Rule.byte (opener form)).lookahead ∈ plainRules ∧
      act (collectionEnd form) ∈ plainRules := by
    cases form <;> simp [plainRules]
  refine TriesInOrder.allOf (.behind hmember.1 hopener ?_) (by cases form <;> decide +kernel)
  rintro left rfl
  refine .behind_skip fun bytes hfluff ↦ .here (items_try hvalue ?_ fun target htarget ↦ ?_) ?_
  · have hbytes : bytes.length ≤ left.length := Direct.fluff_length_le hfluff
    omega
  · exact hplace.inside (.inside hfluff htarget)
  · intro r hr
    rw [List.mem_singleton.1 hr]
    exact hmember.2

omit hvalue in
theorem scope_label (form : Form) : triesNumber (Rule.label grammar (.leaf (scope form))) = false :=
  rfl

theorem scope_tries {form : Form} (hlength : bytes.length ≤ n)
    (hplace : DocumentPlace bytes input.toList) :
    TriesPlaces input Unread (.leaf (scope form)) bytes := by
  refine .of_inert (scope_label form) fun budget outcome s s' hs huser hreply ↦ ?_
  change (scope form s s.position).run (fun n ↦ (grammar n).evaluate grammar budget) =
    some (outcome, s') at hreply
  by_cases hpeek : s.peek = some (opener form)
  · obtain ⟨rest, hrest⟩ := List.head?_eq_some_iff.1 (s.peek_eq ▸ hpeek)
    obtain rfl := hs.rest_eq.symm.trans hrest
    have hopened : Trying (opener form :: rest) { s with user := s.user.openBranch form } :=
      ⟨hs.rest_eq, hs.resultsSilenced_eq, hs.placed.of_eq rfl⟩
    rw [scope, if_pos hpeek] at hreply
    rcases hmatch : (grammar (bodyOf form)).evaluate grammar budget
        { s with user := s.user.openBranch form } with _ | ⟨o, s₁⟩
    all_goals simp only [Program.run, hmatch] at hreply
    · cases hreply
    rw [grammar_bodyOf] at hmatch
    have hplaced := body_tries hvalue hlength hplace hopened (Direct.openBranch_idle huser form)
      hmatch
    cases hreply
    exact hplaced.of_eq rfl
  · rw [scope, if_neg hpeek] at hreply
    cases hreply
    exact hs.placed.failAt _ _

end

/-! ## Values -/

theorem malformedNumber_recovers : Recovers input malformedNumber bytes := by
  have hnothing : malformedNumber.Builds 4 (fun _ ↦ (none : Option (Unit × List UInt8)))
      (fun _ b ↦ b) (fun _ _ ↦ True) fun _ ↦ True :=
    .of_reads_fail Direct.malformedNumber_reads
  exact .of_builds hnothing (fun _ _ ↦ trivial) trivial

/-- A collection that does not begin tries nothing. -/
theorem scope_not_tried {form : Form} (hbytes : bytes.head? ≠ some (opener form))
    (hrest : s.rest = bytes) (hs : s.Placed)
    (hreply : (Rule.leaf (scope form)).evaluate grammar budget s = some (outcome, s')) :
    s'.Placed := by
  obtain ⟨less, entered, left, hbody, hsame, hentered, hleft⟩ :=
    enters_inv hs (absurd · (Bool.eq_false_iff.1 (scope_label form))) hreply
  change (scope form entered entered.position).run (fun n ↦ (grammar n).evaluate grammar less) =
    some (outcome, left) at hbody
  have hpeek : entered.peek ≠ some (opener form) := by
    rwa [State.peek_eq, hsame.rest_eq, hrest]
  rw [scope, if_neg hpeek] at hbody
  cases hbody
  exact hleft (hentered.failAt _ _)

/-- **A value tries places**, if it stands at one. -/
theorem value_tries {bytes : List UInt8} (hplace : DocumentPlace bytes input.toList) :
    TriesPlaces input Unread value bytes := by
  induction hlength : bytes.length using Nat.strongRecOn generalizing bytes with
  | ind n ih =>
    have hvalue (bytes : List UInt8) (hless : bytes.length < n)
        (hplace : DocumentPlace bytes input.toList) : TriesPlaces input Unread value bytes :=
      ih bytes.length hless hplace rfl
    have hscope (form : Form) : TriesPlaces input Unread (.leaf (scope form)) bytes :=
      scope_tries hvalue (Nat.le_of_eq hlength) hplace
    have hbefore : ∀ r ∈ [scalar, malformedNumber, after string emitString, vector],
        TriesPlaces input Unread r bytes ∧ Recovers input r bytes := by
      intro r hr
      simp only [List.mem_cons, List.not_mem_nil, or_false] at hr
      rcases hr with rfl | rfl | rfl | rfl
      · exact ⟨.of_plain (by simp [plainRules]),
          .of_builds Direct.scalar_builds (fun _ _ ↦ trivial) trivial⟩
      · exact ⟨.of_plain (by simp [plainRules]), malformedNumber_recovers⟩
      · exact ⟨.of_plain (by simp [plainRules]),
          .of_builds Direct.emitString_builds (fun _ h ↦ h) trivial⟩
      · exact ⟨vector_tries hplace, .of_builds Direct.vector_builds (fun _ _ ↦ trivial) trivial⟩
    by_cases hopener : bytes.head? = some (opener .array)
    · have hnode : ∀ r ∈ [Rule.leaf (scope .node)], ∀ ⦃budget outcome⦄
          ⦃s s' : State input Builder⦄, s.rest = bytes → s.Placed →
          r.evaluate grammar budget s = some (outcome, s') → s'.Placed := by
        intro r hr budget outcome s s' hrest hs hreply
        rw [List.mem_singleton.1 hr] at hreply
        exact scope_not_tried (hopener ▸ by decide) hrest hs hreply
      exact choice_tries hnode hbefore (hscope .array) fun _ ↦ .inl hplace
    · have hbefore' : ∀ r ∈ [scalar, malformedNumber, after string emitString, vector] ++
          [.leaf (scope .array)], TriesPlaces input Unread r bytes ∧ Recovers input r bytes := by
        intro r hr
        rcases List.mem_append.1 hr with hr | hr
        · exact hbefore r hr
        · rw [List.mem_singleton.1 hr]
          have hrefuses : (Rule.leaf (scope .array)).Builds 1
              (fun _ ↦ (none : Option (Unit × List UInt8))) (fun _ b ↦ b)
              (fun _ bytes ↦ bytes.head? ≠ some (opener .array)) fun _ ↦ True :=
            Direct.scope_refuses .array
          exact ⟨hscope .array, .of_builds hrefuses (fun _ _ ↦ hopener) trivial⟩
      have hnothing : ∀ r ∈ ([] : List TextRule), ∀ ⦃budget outcome⦄
          ⦃s s' : State input Builder⦄, s.rest = bytes → s.Placed →
          r.evaluate grammar budget s = some (outcome, s') → s'.Placed := by simp
      exact choice_tries hnothing hbefore' (hscope .node) fun _ ↦ .inl hplace

/-! ## Documents -/

theorem document_tries : TriesPlaces input Idle document input.toList := by
  refine TriesInOrder.allOf (.behind_skip fun rest hfluff ↦ .here (r := itemsOf .node) ?_ ?_)
    (by decide +kernel)
  · exact items_try (fun _ _ hplace ↦ value_tries hplace) (Nat.lt_succ_self _)
      fun _ htarget ↦ ⟨rest, hfluff, htarget⟩
  · simp [plainRules]

end TextGrammar

namespace Doc

open TextGrammar (TextRule grammar document numberRules)

/-- In reading the input, a rule is entered at an offset: a traced run writes that down. -/
def Enters (root : Doc) (input : Array UInt8) (r : TextRule) (offset : Nat) : Prop :=
  ∃ answer events,
    State.parse grammar (readBudget input.size) document
        { initialState root input with trace := some #[] } = some answer ∧
      answer.2.trace = some events ∧ .enter (r.label grammar) offset ∈ events

/-- **Numbers are tried at places only**: where the reader enters the rule for a value or for a
component of a vector, a number may stand. -/
theorem Enters.place {root : Doc} {r : TextRule} {offset : Nat} (h : root.Enters input r offset)
    (hr : r ∈ numberRules) : NumberPlace (input.toList.drop offset) input.toList := by
  obtain ⟨answer, events, hparse, hevents, hentered⟩ := h
  obtain ⟨⟨outcome, s⟩, hreply, rfl⟩ := Option.map_eq_some_iff.1 hparse
  have hbegins : TextGrammar.Trying input.toList
      { beginning root input with trace := some #[] } := by
    refine ⟨beginning_rest, rfl, fun events hnone event hevent ↦ ?_⟩
    cases hnone
    exact absurd hevent (Array.not_mem_empty event)
  have hplaced : s.Placed := TextGrammar.document_tries hbegins beginning_idle hreply
  have hanswer : (State.answer 0 (outcome, s)).2.Placed := by
    rcases outcome with _ | _ | _
    · exact hplaced.of_eq rfl
    · exact hplaced.noted _ trivial
    · exact hplaced.of_eq rfl
  exact hanswer events hevents _ hentered (List.contains_iff_mem.2 (List.mem_map_of_mem hr))

end Doc
end DocGrammar
