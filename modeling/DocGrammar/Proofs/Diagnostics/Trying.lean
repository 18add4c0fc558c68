import DocGrammar.Proofs.Diagnostics.Surroundings
import DocGrammar.Proofs.Sustained
import DocGrammar.Proofs.Termination.Documents

/-!
# Rules that try numbers where they may stand

Two rules try a number: the one for values, and the one for components of vectors.  A run that is
traced writes down where they are entered.  A state is *placed* if they have been entered at places
for numbers only (`State.Placed`).

A rule *tries places* where the input goes on with some bytes, if a state that is placed is left as
one (`TriesPlaces`).  A rule that leads to neither of the two does so anywhere (`plainRule_stays`).
What is in a sequence goes on behind what has been read before, and so does an item behind others
(`TriesInOrder.behind`, `repetition_tries`); an alternative of a choice finds the bytes and the
builder as they were, because those before it have been given up (`choice_tries`).
-/

set_option autoImplicit false

namespace DocGrammar

open Direct (NumberPlace Unread)

variable {input : Array UInt8}

/-! ## What has been written down -/

namespace TextGrammar

/-- The rules that a number is tried by: that for values, and that for components of vectors. -/
def numberRules : List TextRule := [value, vectorNumber]

/-- Whether a label is that of one of these rules. -/
def triesNumber (label : String) : Bool := (numberRules.map (Rule.label grammar)).contains label

end TextGrammar

/-- If the event is that a number is tried, then at a place for it. -/
def Event.Placed (input : Array UInt8) : Event → Prop
  | .enter label offset =>
    TextGrammar.triesNumber label = true → NumberPlace (input.toList.drop offset) input.toList
  | _ => True

namespace State

/-- No number has been tried but at places. -/
def Placed (s : State input Builder) : Prop :=
  ∀ events ∈ s.trace, ∀ event ∈ events, event.Placed input

variable {s s' : State input Builder}

namespace Placed

theorem of_wrote (h : s.Placed) {events : List Event} (hwrote : s.Wrote events s')
    (hevents : ∀ event ∈ events, event.Placed input) : s'.Placed := by
  intro all hall event hevent
  rw [Wrote, Option.mem_def.1 hall] at hwrote
  obtain ⟨old, hold, rfl⟩ := Option.map_eq_some_iff.1 hwrote.symm
  rcases Array.mem_append.1 hevent with hevent | hevent
  · exact h old hold event hevent
  · exact hevents event (List.mem_toArray.1 hevent)

theorem of_eq (h : s.Placed) (htrace : s'.trace = s.trace) : s'.Placed :=
  h.of_wrote (wrote_nil htrace) (by simp)

theorem noted (h : s.Placed) (event : Unit → Event) (hevent : (event ()).Placed input) :
    (s.noted event).Placed :=
  h.of_wrote (s.noted_wrote event) fun _ he ↦ List.mem_singleton.1 he ▸ hevent

theorem failAt (h : s.Placed) (offset : Nat) (reason : Reason) :
    (s.failAt offset reason).2.Placed :=
  h.of_wrote (s.failAt_wrote offset reason) fun _ he ↦ List.mem_singleton.1 he ▸ trivial

theorem rejoin (h : s.Placed) (outer : Option Failure) :
    (Evaluate.rejoin outer s.unsilenceErrors).Placed := by
  unfold Evaluate.rejoin
  split <;> exact h.of_eq rfl

theorem conclude (h : s.Placed) (name : Option String) (offset : Nat)
    (before : State input Builder) (outcome : Outcome) :
    (Evaluate.conclude name offset before outcome s).Placed := by
  obtain ⟨fs, hwrote⟩ := conclude_wrote name offset before outcome s
  refine h.of_wrote hwrote fun event hevent ↦ ?_
  obtain ⟨f, -, rfl⟩ := List.mem_map.1 hevent
  trivial

end Placed

/-- If no number had been tried but at places, none has been since. -/
def StaysPlaced (s s' : State input Builder) : Prop := s.Placed → s'.Placed

/-- **The engine tries no number** as long as it enters neither of the two rules. -/
theorem placed_guarded : Guarded (fun label ↦ !TextGrammar.triesNumber label) (fun _ ↦ true)
    (StaysPlaced : State input Builder → State input Builder → Prop) where
  refl _ h := h
  trans h h' hs := h' (h hs)
  entered s label hlabel hs := hs.noted (fun _ ↦ .enter label s.cursor)
    fun htries ↦ by simp [htries] at hlabel
  left s label _ outcome hs := hs.noted (fun _ ↦ .leave label s.cursor outcome) trivial
  failAt _ offset reason _ hs := hs.failAt offset reason
  advance _ _ _ hs := hs.of_eq rfl
  push s _ hs := hs.of_eq (s.push_quiet _).trace_eq
  span h hs := (h hs).of_eq (push_quiet _ _).trace_eq
  back h hs := (h hs).of_eq rfl
  silently h hs := (h (hs.of_eq rfl)).of_eq rfl
  unheard h hs := (h (hs.of_eq rfl)).of_eq rfl
  rejoin h hs := (h (hs.of_eq rfl)).rejoin _
  commit h _ hs := ((h (hs.of_eq rfl)).rejoin _).of_eq (commitUnlessSilenced_trace _ _)

theorem Placed.of_plainTo {fits : UInt8 → Bool} {reply : Reply input Builder} (hs : s.Placed)
    (h : PlainTo fits s reply) : reply.2.Placed := by
  obtain ⟨s₁, hforward, rfl | ⟨reason, rfl⟩⟩ := h
  · exact hs.of_eq hforward.trace_eq
  · exact (hs.of_eq hforward.trace_eq).failAt _ _

end State

open State (StaysPlaced)

theorem PlainAction.stays_placed {fits : UInt8 → Bool} {action : Action Symbol Builder}
    (h : PlainAction fits @action) :
    LeadingAction (StaysPlaced : State input Builder → State input Builder → Prop) @action := by
  intro match? start s reply hreply hs
  obtain ⟨reply', hdone, hplain⟩ := h s start
  dsimp only at hreply
  rw [hdone] at hreply
  cases hreply
  exact hs.of_plainTo hplain

namespace TextGrammar

/-! ## Rules that try no number -/

/-- Rules that lead to neither of the two. -/
def plainRules : List TextRule :=
  [scalar, malformedNumber, after string emitString, memberName, delimited Leaf.decimalAny,
    delimited Leaf.signedAny, act Fluff.skip, act documentEnd, act (collectionEnd .array),
    act (collectionEnd .node), (Rule.byte (opener .array)).lookahead,
    (Rule.byte (opener .node)).lookahead]

theorem plainRules_fit : ∀ r ∈ plainRules,
    r.fitsWithin grammar (fun label ↦ !triesNumber label) (fun _ ↦ true) wordHeight = true := by
  decide +kernel

theorem plainRules_plain : ∀ r ∈ plainRules, r.Every (PlainAction fun _ ↦ true) := by
  have hwords := words_plain fun _ ↦ true
  intro r hr
  simp only [plainRules, List.mem_cons, List.not_mem_nil, or_false] at hr
  rcases hr with rfl | rfl | rfl | rfl | rfl | rfl | rfl | rfl | rfl | rfl | rfl | rfl
  · exact hwords.scalar
  · exact hwords.malformedNumber
  · exact ⟨actions_plain.string, hwords.emitString⟩
  · exact actions_plain.memberName
  · exact hwords.delimited hwords.decimalAny
  · exact hwords.delimited hwords.signedAny
  · exact actions_plain.skip
  · exact hwords.documentEnd
  · exact actions_plain.collectionEnd .array
  · exact actions_plain.collectionEnd .node
  · exact trivial
  · exact trivial

theorem plainRule_stays {r : TextRule} (hr : r ∈ plainRules) (budget : Nat) :
    Leads (StaysPlaced : State input Builder → State input Builder → Prop)
      (r.evaluate grammar budget) :=
  Rule.leads_of_fitsWithin State.placed_guarded (plainRules_fit r hr)
    ((plainRules_plain r hr).imp fun _ h ↦ h.stays_placed) budget

/-! ## Trying places only -/

/-- The rest of the input is this, results are heard, and no number has been tried but at places. -/
structure Trying (bytes : List UInt8) (s : State input Builder) : Prop where
  rest_eq : s.rest = bytes
  resultsSilenced_eq : s.resultsSilenced = 0
  placed : s.Placed

variable {budget : Nat} {ready ready' : Builder → Prop} {r : TextRule} {bytes rest : List UInt8}
  {s s' : State input Builder} {outcome : Outcome}

theorem Trying.same (h : Trying bytes s) (hsame : s.Same s') (hplaced : s'.Placed) :
    Trying bytes s' :=
  ⟨hsame.rest_eq.trans h.rest_eq, hsame.resultsSilenced_eq.trans h.resultsSilenced_eq, hplaced⟩

/-- Where the input goes on with these bytes, a rule tries numbers at places only. -/
def TriesPlaces (input : Array UInt8) (ready : Builder → Prop) (r : TextRule)
    (bytes : List UInt8) : Prop :=
  ∀ ⦃budget outcome⦄ ⦃s s' : State input Builder⦄, Trying bytes s → ready s.user →
    r.evaluate grammar budget s = some (outcome, s') → s'.Placed

/-- The same of the rest of a sequence. -/
def TriesInOrder (input : Array UInt8) (ready : Builder → Prop) (rules : List TextRule)
    (bytes : List UInt8) : Prop :=
  ∀ ⦃budget before outcome⦄ ⦃s s' : State input Builder⦄, Trying bytes s → ready s.user →
    Evaluate.inOrder (Rule.evaluate grammar budget) rules before s = some (outcome, s') → s'.Placed

/-- Unless a rule fails where the input goes on with these bytes, it matches, and leaves some of
them behind it. -/
def Leaves (input : Array UInt8) (ready ready' : Builder → Prop) (r : TextRule)
    (bytes : List UInt8) (behind : List UInt8 → Prop) : Prop :=
  ∀ ⦃budget outcome⦄ ⦃s s' : State input Builder⦄, s.rest = bytes → s.resultsSilenced = 0 →
    ready s.user → r.evaluate grammar budget s = some (outcome, s') → outcome ≠ .fail →
      outcome = .ok ∧ s'.resultsSilenced = 0 ∧ ready' s'.user ∧ behind s'.rest

theorem Leaves.of_builds {α : Type} {depth : Nat} {read : List UInt8 → Option (α × List UInt8)}
    {change : α → Builder → Builder} {able : Builder → List UInt8 → Prop}
    {clean : List UInt8 → Prop} {behind : List UInt8 → Prop}
    (h : Rule.Builds depth r read change able clean) (hable : ∀ b, ready b → able b bytes)
    (hready : ∀ x b, ready b → ready' (change x b))
    (hbehind : ∀ x rest, read bytes = some (x, rest) → behind rest) :
    Leaves input ready ready' r bytes behind := by
  intro budget outcome s s' hrest hs huser hreply hne
  have hbuilt := h.built hreply hs (hrest ▸ hable _ huser)
  rcases hread : read s.rest with _ | ⟨x, rest⟩
  all_goals rw [hread] at hbuilt
  · cases hbuilt
    exact absurd rfl hne
  · cases hbuilt with
    | ok ht =>
      refine ⟨rfl, ht.resultsSilenced_eq.trans hs, ht.user_eq ▸ hready x _ huser, ?_⟩
      rw [ht.rest_eq]
      exact hbehind x rest (hrest ▸ hread)

theorem skip_leaves {behind : List UInt8 → Prop}
    (h : ∀ rest, Direct.fluff bytes = some rest → behind rest) :
    Leaves input ready ready (act Fluff.skip) bytes behind :=
  .of_builds Direct.skip_builds (fun _ _ ↦ trivial) (fun _ _ hready ↦ hready) fun x rest hread ↦ by
    obtain ⟨rest', hfluff, heq⟩ := Option.map_eq_some_iff.1 hread
    cases heq
    exact h rest hfluff

/-- A reply to a rule in terms of its body. -/
theorem enters_inv (hs : s.Placed) (hlabel : triesNumber (r.label grammar) = true →
      NumberPlace (input.toList.drop s.cursor) input.toList)
    (hreply : r.evaluate grammar budget s = some (outcome, s')) :
    ∃ less entered left, fromHere (Evaluate.modified r.modifiers
        (Evaluate.kind grammar (Rule.evaluate grammar less) r.name r.kind)) entered =
          some (outcome, left) ∧
      s.Same entered ∧ entered.Placed ∧ (left.Placed → s'.Placed) := by
  rcases budget with _ | budget
  · cases hreply
  have hsame := s.noted_same fun _ ↦ .enter (r.label grammar) s.position.offset
  change Rule.step grammar (Rule.evaluate grammar budget) r s = _ at hreply
  rcases hbody : Evaluate.modified r.modifiers (Evaluate.kind grammar (Rule.evaluate grammar budget)
      r.name r.kind) s.position (s.noted fun _ ↦ .enter (r.label grammar) s.position.offset)
      with _ | ⟨o, left⟩
  all_goals simp only [Rule.step, hbody] at hreply
  · cases hreply
  · refine ⟨budget, _, left, ?_, hsame, hs.noted _ hlabel, fun hleft ↦ ?_⟩
    · rw [fromHere, hsame.position_eq, hbody]
      rcases o with _ | _ | _
      all_goals
        cases hreply
        rfl
    · have hback : (left.restore s.position).Placed := hleft.of_eq rfl
      rcases o with _ | _ | _
      all_goals cases hreply
      · exact hleft.noted _ trivial
      · exact hback.noted _ trivial
      · exact hback.noted _ trivial

namespace TriesPlaces

theorem imp (h : TriesPlaces input ready' r bytes) (hready : ∀ b, ready b → ready' b) :
    TriesPlaces input ready r bytes :=
  fun _ _ _ _ hs huser hreply ↦ h hs (hready _ huser) hreply

theorem of_plain (hr : r ∈ plainRules) : TriesPlaces input ready r bytes :=
  fun budget _ s _ hs _ hreply ↦ plainRule_stays hr budget s _ hreply hs.placed

/-- A rule tries places if its body does, and if it is entered at one itself where it is one of the
two. -/
theorem of_body {name : Option String} {m : Modifiers} {k : Kind Symbol Builder TextRule}
    (hlabel : triesNumber (Rule.label grammar ⟨name, m, k⟩) = true →
      NumberPlace bytes input.toList)
    (h : ∀ ⦃budget outcome⦄ ⦃s s' : State input Builder⦄, Trying bytes s → ready s.user →
      Evaluate.modified m (Evaluate.kind grammar (Rule.evaluate grammar budget) name k)
        s.position s = some (outcome, s') → s'.Placed) :
    TriesPlaces input ready ⟨name, m, k⟩ bytes := by
  intro budget outcome s s' hs huser hreply
  obtain ⟨less, entered, left, hbody, hsame, hentered, hleft⟩ := enters_inv hs.placed
    (fun htries ↦ by rw [← State.rest_eq, hs.rest_eq]; exact hlabel htries) hreply
  exact hleft (h (hs.same hsame hentered) (hsame.user_eq ▸ huser) hbody)

/-- Any other rule tries places if its body does. -/
theorem of_inert {name : Option String} {m : Modifiers} {k : Kind Symbol Builder TextRule}
    (hlabel : triesNumber (Rule.label grammar ⟨name, m, k⟩) = false)
    (h : ∀ ⦃budget outcome⦄ ⦃s s' : State input Builder⦄, Trying bytes s → ready s.user →
      Evaluate.modified m (Evaluate.kind grammar (Rule.evaluate grammar budget) name k)
        s.position s = some (outcome, s') → s'.Placed) :
    TriesPlaces input ready ⟨name, m, k⟩ bytes :=
  .of_body (absurd · (Bool.eq_false_iff.1 hlabel)) h

theorem symbol {n : Symbol} (hlabel : triesNumber (Rule.label grammar (.symbol n)) = false)
    (h : TriesPlaces input ready (grammar n) bytes) : TriesPlaces input ready (.symbol n) bytes :=
  .of_inert hlabel fun _ _ _ _ hs huser hreply ↦ h hs huser hreply

/-- A plain action tries nothing behind a rule. -/
theorem closing {fits : UInt8 → Bool} {action : Action Symbol Builder}
    (h : TriesPlaces input ready r bytes) (haction : PlainAction fits @action)
    {name : Option String}
    (hlabel : triesNumber (Rule.label grammar ⟨name, {}, .closing r action⟩) = false) :
    TriesPlaces input ready ⟨name, {}, .closing r action⟩ bytes := by
  refine .of_inert hlabel fun budget outcome s s' hs huser hreply ↦ ?_
  change Evaluate.kind grammar (Rule.evaluate grammar budget) name (.closing r action)
    s.position s = _ at hreply
  rcases hmatch : r.evaluate grammar budget s with _ | ⟨o, s₁⟩
  all_goals simp only [Evaluate.kind, hmatch] at hreply
  · cases hreply
  have hplaced := h hs huser hmatch
  rcases o with _ | _ | _
  · dsimp only at hreply
    split at hreply
    · exact haction.stays_placed _ _ s₁ _ hreply hplaced
    · cases hreply
      exact hplaced
  · cases hreply
    exact hplaced
  · cases hreply
    exact hplaced

theorem bounded {opener closer : UInt8} (hlabel : triesNumber
      (Rule.label grammar ⟨none, {}, .bounded opener closer r⟩) = false)
    (h : ∀ rest, bytes = opener :: rest → TriesPlaces input ready r rest) :
    TriesPlaces input ready (.bounded opener closer r) bytes := by
  refine .of_inert hlabel fun budget outcome s s' hs huser hreply ↦ ?_
  change Evaluate.bounded opener closer (Rule.evaluate grammar budget r) s = some (outcome, s')
    at hreply
  rw [Evaluate.bounded] at hreply
  split at hreply
  · next hpeek =>
    obtain ⟨rest, hrest⟩ := List.head?_eq_some_iff.1 (s.peek_eq ▸ hpeek)
    have hadvanced : Trying rest (s.advance 1) := by
      have ht := Evaluate.bracket_took hrest
      exact ⟨ht.rest_eq, ht.resultsSilenced_eq.trans hs.resultsSilenced_eq, hs.placed.of_eq rfl⟩
    rcases hmatch : Rule.evaluate grammar budget r (s.advance 1) with _ | ⟨o, s₁⟩
    all_goals simp only [hmatch] at hreply
    · cases hreply
    have hplaced := h rest (hs.rest_eq.symm.trans hrest) hadvanced huser hmatch
    split at hreply
    · cases hreply
    · next heq =>
      cases heq
      cases hreply
      exact hplaced
    · next heq =>
      cases heq
      split at hreply
      · cases hreply
        exact hplaced.of_eq rfl
      · cases hreply
        exact hplaced.failAt _ _
  · cases hreply
    exact hs.placed.failAt _ _

end TriesPlaces

/-! ## Sequences -/

namespace TriesInOrder

variable {rules : List TextRule}

/-- What follows may be anything that tries no number. -/
theorem here (h : TriesPlaces input ready r bytes) (hrules : ∀ r ∈ rules, r ∈ plainRules) :
    TriesInOrder input ready (r :: rules) bytes := by
  intro budget before outcome s s' hs huser hreply
  obtain ⟨o, s₁, hfirst, hlast, hrest⟩ := Evaluate.inOrder_cons_inv hreply
  have hplaced := h hs huser hfirst
  by_cases ho : o = .fail
  · obtain ⟨-, rfl⟩ := hlast ho
    exact hplaced
  · exact Evaluate.inOrder_lasts State.placed_guarded _
      (fun r hr ↦ plainRule_stays (hrules r hr) budget) s₁ _ (hrest ho) hplaced

theorem behind (hr : r ∈ plainRules) {behind : List UInt8 → Prop}
    (hleaves : Leaves input ready ready' r bytes behind)
    (h : ∀ rest, behind rest → TriesInOrder input ready' rules rest) :
    TriesInOrder input ready (r :: rules) bytes := by
  intro budget before outcome s s' hs huser hreply
  obtain ⟨o, s₁, hfirst, hlast, hrest⟩ := Evaluate.inOrder_cons_inv hreply
  have hplaced := plainRule_stays hr budget s _ hfirst hs.placed
  by_cases ho : o = .fail
  · obtain ⟨-, rfl⟩ := hlast ho
    exact hplaced
  · obtain ⟨-, hs₁, huser₁, hbehind⟩ :=
      hleaves hs.rest_eq hs.resultsSilenced_eq huser hfirst ho
    exact h _ hbehind ⟨rfl, hs₁, hplaced⟩ huser₁ (hrest ho)

theorem behind_skip (h : ∀ rest, Direct.fluff bytes = some rest →
    TriesInOrder input ready rules rest) :
    TriesInOrder input ready (act Fluff.skip :: rules) bytes :=
  .behind (by simp [plainRules]) (skip_leaves fun _ h ↦ h) h

theorem allOf (h : TriesInOrder input ready rules bytes) {name : Option String}
    (hlabel : triesNumber (Rule.label grammar ⟨name, {}, .allOf rules⟩) = false) :
    TriesPlaces input ready ⟨name, {}, .allOf rules⟩ bytes :=
  .of_inert hlabel fun _ _ _ _ hs huser hreply ↦ h hs huser hreply

end TriesInOrder

/-! ## Repetitions -/

section

variable {item : TextRule} {P : List UInt8 → Prop}
  (hitem : ∀ bytes, P bytes → TriesPlaces input ready item bytes)
  (hleaves : ∀ bytes, P bytes → Leaves input ready ready item bytes fun rest ↦
    ∀ left, Direct.fluff rest = some left → P left)

include hitem hleaves

/-- One round of a repetition, behind which there may be another one. -/
theorem round_tries (hbytes : P bytes) (hs : Trying bytes s) (huser : ready s.user)
    (hreply : Evaluate.kind grammar (Rule.evaluate grammar budget) none
      (.allOf [item, act Fluff.skip]) s.position s = some (outcome, s')) :
    s'.Placed ∧ (outcome = .ok → ∃ left, P left ∧ Trying left s' ∧ ready s'.user) := by
  obtain ⟨o, s₁, hfirst, hlast, hrest⟩ := Evaluate.inOrder_cons_inv hreply
  have hplaced := hitem _ hbytes hs huser hfirst
  by_cases ho : o = .fail
  · obtain ⟨rfl, rfl⟩ := hlast ho
    exact ⟨hplaced, nofun⟩
  obtain ⟨-, hs₁, huser₁, hbehind⟩ :=
    hleaves _ hbytes hs.rest_eq hs.resultsSilenced_eq huser hfirst ho
  obtain ⟨o₂, s₂, hskip, hlast₂, hnil⟩ := Evaluate.inOrder_cons_inv (hrest ho)
  have hplaced₂ := plainRule_stays (by simp [plainRules]) budget s₁ _ hskip hplaced
  by_cases ho₂ : o₂ = .fail
  · obtain ⟨rfl, rfl⟩ := hlast₂ ho₂
    exact ⟨hplaced₂, nofun⟩
  · cases hnil ho₂
    obtain ⟨-, hs₂, huser₂, hleft⟩ := skip_leaves hbehind rfl hs₁ huser₁ hskip ho₂
    exact ⟨hplaced₂, fun _ ↦ ⟨_, hleft, ⟨rfl, hs₂, hplaced₂⟩, huser₂⟩⟩

theorem loops_try (hloops : Evaluate.Loops (Evaluate.kind grammar
      (Rule.evaluate grammar budget) none (.allOf [item, act Fluff.skip])) s s')
    {bytes : List UInt8} (hbytes : P bytes) (hs : Trying bytes s) (huser : ready s.user) :
    s'.Placed := by
  induction hloops generalizing bytes with
  | undone hround _ =>
    exact (round_tries hitem hleaves hbytes hs huser hround).1.of_eq rfl
  | still hround _ => exact (round_tries hitem hleaves hbytes hs huser hround).1
  | next hround _ _ ih =>
    obtain ⟨left, hleft, hs₁, huser₁⟩ :=
      (round_tries hitem hleaves hbytes hs huser hround).2 rfl
    exact ih hleft hs₁ huser₁

/-- **A repetition tries places** if every round does, and the next one begins where it may. -/
theorem repetition_tries (hbytes : P bytes) :
    TriesPlaces input ready (thenFluff item).repeatedOrNone bytes := by
  have hlabel : triesNumber (Rule.label grammar (thenFluff item).repeatedOrNone) = false := by
    rfl
  refine .of_inert hlabel fun budget outcome s s' hs huser hreply ↦ ?_
  change Evaluate.optional (Evaluate.repeated (Evaluate.kind grammar (Rule.evaluate grammar budget)
    none (.allOf [item, act Fluff.skip]))) s.position s = some (outcome, s') at hreply
  have hquiet : Trying bytes s.silenceErrors :=
    ⟨hs.rest_eq, hs.resultsSilenced_eq, hs.placed.of_eq rfl⟩
  rcases hround : Evaluate.kind grammar (Rule.evaluate grammar budget) none
      (.allOf [item, act Fluff.skip]) s.position s.silenceErrors with _ | ⟨o, s₁⟩
  all_goals simp only [Evaluate.optional, Evaluate.repeated, hround] at hreply
  · cases hreply
  obtain ⟨hplaced, hnext⟩ := round_tries hitem hleaves hbytes hquiet huser hround
  rcases o with _ | _ | _
  · obtain ⟨left, hleft, hs₁, huser₁⟩ := hnext rfl
    rcases hagain : Evaluate.again (Evaluate.kind grammar (Rule.evaluate grammar budget) none
        (.allOf [item, act Fluff.skip])) (input.size + 1 - s₁.cursor) s₁.silenceErrors with _ | s₂
    all_goals simp only [hagain] at hreply
    · cases hreply
    · have hrounds : input.size < s₁.silenceErrors.cursor + (input.size + 1 - s₁.cursor) := by
        have hle := s₁.cursor_le
        show input.size < s₁.cursor + _
        omega
      have hloops := (Evaluate.again_eq_some_iff hrounds).1 hagain
      have hquiet₁ : Trying left s₁.silenceErrors :=
        ⟨hs₁.rest_eq, hs₁.resultsSilenced_eq, hs₁.placed.of_eq rfl⟩
      have hended := loops_try hitem hleaves hloops hleft hquiet₁ huser₁
      cases hreply
      exact hended.of_eq rfl
  · cases hreply
    exact hplaced.of_eq rfl
  · cases hreply
    exact hplaced.of_eq rfl

end

/-! ## Choices -/

/-- Where a rule is given up that has not matched, everything is as it was. -/
def Recovers (input : Array UInt8) (r : TextRule) (bytes : List UInt8) : Prop :=
  ∀ ⦃budget outcome⦄ ⦃s s' : State input Builder⦄, s.rest = bytes → s.resultsSilenced = 0 →
    Unread s.user → r.evaluate grammar budget s = some (outcome, s') → outcome ≠ .ok → s.Same s'

theorem Recovers.of_builds {α : Type} {depth : Nat} {read : List UInt8 → Option (α × List UInt8)}
    {change : α → Builder → Builder} {able : Builder → List UInt8 → Prop}
    {clean : List UInt8 → Prop} (h : Rule.Builds depth r read change able clean)
    (hable : ∀ b, Unread b → able b bytes) (hclean : clean bytes) : Recovers input r bytes := by
  rintro budget outcome s s' rfl hs huser hreply hne
  have hbuilt := h.built hreply hs (hable _ huser)
  generalize read s.rest = found at hbuilt
  cases hbuilt with
  | ok ht => exact absurd rfl hne
  | fail hdropped => exact hdropped.same hclean

section

variable {before after : List TextRule} {start : Position}
  (hafter : ∀ r ∈ after, ∀ ⦃budget outcome⦄ ⦃s s' : State input Builder⦄, s.rest = bytes →
    s.Placed → r.evaluate grammar budget s = some (outcome, s') → s'.Placed)

include hafter

theorem firstOf_after_tries (hrest : s.rest = bytes) (hs : s.Placed)
    (hstart : s.cursor = start.offset)
    (hreply : Evaluate.firstOf (Rule.evaluate grammar budget) start after s =
      some (outcome, s')) : s'.Placed := by
  induction after generalizing s with
  | nil =>
    cases hreply
    exact hs
  | cons r after ih =>
    obtain ⟨o, s₁, hfirst, hlast, hnext⟩ := Evaluate.firstOf_cons_inv hreply
    have hplaced := hafter r List.mem_cons_self hrest hs hfirst
    by_cases ho : o = .ok
    · obtain ⟨-, rfl⟩ := hlast ho
      exact hplaced
    · have hback : (s₁.restore start).cursor = s.cursor := State.restore_cursor hstart.symm s₁
      exact ih (fun r hr ↦ hafter r (List.mem_cons_of_mem _ hr))
        ((State.rest_eq_of_cursor_eq hback).trans hrest) (hplaced.of_eq rfl) (hback.trans hstart)
        (hnext ho)

variable (hbefore : ∀ r ∈ before, TriesPlaces input Unread r bytes ∧ Recovers input r bytes)
  (hr : TriesPlaces input Unread r bytes)

include hbefore hr

theorem firstOf_tries (hs : Trying bytes s) (huser : Unread s.user) (hstart : s.position = start)
    (hreply : Evaluate.firstOf (Rule.evaluate grammar budget) start (before ++ r :: after) s =
      some (outcome, s')) : s'.Placed := by
  induction before generalizing s with
  | nil =>
    obtain ⟨o, s₁, hfirst, hlast, hnext⟩ := Evaluate.firstOf_cons_inv hreply
    have hplaced := hr hs huser hfirst
    by_cases ho : o = .ok
    · obtain ⟨-, rfl⟩ := hlast ho
      exact hplaced
    · have hback : (s₁.restore start).cursor = s.cursor :=
        State.restore_cursor (congrArg Position.offset hstart.symm) s₁
      exact firstOf_after_tries hafter ((State.rest_eq_of_cursor_eq hback).trans hs.rest_eq)
        (hplaced.of_eq rfl) (hback.trans (congrArg Position.offset hstart)) (hnext ho)
  | cons r' before ih =>
    obtain ⟨o, s₁, hfirst, hlast, hnext⟩ := Evaluate.firstOf_cons_inv hreply
    obtain ⟨htries, hrecovers⟩ := hbefore r' List.mem_cons_self
    have hplaced := htries hs huser hfirst
    by_cases ho : o = .ok
    · obtain ⟨-, rfl⟩ := hlast ho
      exact hplaced
    · have hback : s.Same (s₁.restore start) := hstart ▸ Evaluate.restore_same
        (hrecovers hs.rest_eq hs.resultsSilenced_eq huser hfirst ho)
      exact ih (fun r hr ↦ hbefore r (List.mem_cons_of_mem _ hr))
        (hs.same hback (hplaced.of_eq rfl)) (hback.user_eq ▸ huser)
        (hback.position_eq.trans hstart) (hnext ho)

/-- **A choice tries places** if its alternatives do.  Up to one of them, everything is as it was at
the start; behind that one, the cursor is. -/
theorem choice_tries {name : Option String}
    (hlabel : triesNumber (Rule.label grammar ⟨name, {}, .anyOf (before ++ r :: after)⟩) = true →
      NumberPlace bytes input.toList) :
    TriesPlaces input Unread ⟨name, {}, .anyOf (before ++ r :: after)⟩ bytes := by
  refine .of_body hlabel fun budget outcome s s' hs huser hreply ↦ ?_
  change Evaluate.choice (Rule.evaluate grammar budget) name (before ++ r :: after) s.position s =
    some (outcome, s') at hreply
  rw [Evaluate.choice_eq_conclude] at hreply
  obtain ⟨⟨o, ended⟩, hattempts, heq⟩ := Option.map_eq_some_iff.1 hreply
  have hbegins : Trying bytes { s.silenceErrors with furthest := none } :=
    ⟨hs.rest_eq, hs.resultsSilenced_eq, hs.placed.of_eq rfl⟩
  have hended := firstOf_tries hafter hbefore hr hbegins huser rfl hattempts
  cases heq
  exact hended.conclude name _ s _

end

end TextGrammar
end DocGrammar
