import DocGrammar.Proofs.Diagnostics.Endings
import DocGrammar.Proofs.Termination.Loops

/-!
# Failures that nothing makes up for

Where a rule is *fatal* it fails, and one particular failure is then the furthest of all.  That is
a property of the bytes at the cursor: it holds in every state that *faces* them, which is to say
that the input goes on with these bytes and that no failure lies beyond the one in question.

Rules around a fatal one are fatal too.  A sequence is fatal if one of its rules is, and those
before it match (`FatalSequence.behind`); that they leave no failure further on is because they are
tidy.  A choice is fatal if one of its alternatives is, and the others do not match: those before
must not leave a failure further on, and those after find one that lies further on than they can get
(`choice_fatal`).  A repetition does not fail, but it ends where an item is fatal, and what has to
follow is not there (`Doomed.stuck`).
-/

set_option autoImplicit false

namespace DocGrammar

variable {N U : Type} {input : Array UInt8}

/-! ## Facing bytes -/

namespace State

/-- The rest of the input is this, results are heard, and no failure lies behind the bound. -/
structure Facing (bound : Nat) (bytes : List UInt8) (s : State input U) : Prop where
  rest_eq : s.rest = bytes
  resultsSilenced_eq : s.resultsSilenced = 0
  within : s.Within bound

variable {bound : Nat} {bytes rest : List UInt8} {s s' : State input U}

theorem Facing.same (h : s.Facing bound bytes) (hsame : s.Same s') (hwithin : s'.Within bound) :
    s'.Facing bound bytes :=
  ⟨hsame.rest_eq.trans h.rest_eq, hsame.resultsSilenced_eq.trans h.resultsSilenced_eq, hwithin⟩

/-- Entering a rule changes nothing. -/
theorem Facing.entered (h : s.Facing bound bytes) (hsame : s.Same s')
    (hentered : s.Recorded [] s') :
    s'.Facing bound bytes :=
  h.same hsame (h.within.congr hentered.furthest_eq)

theorem Facing.cursor_add (h : s.Facing bound bytes) : s.cursor + bytes.length = input.size := by
  have hlength := s.length_rest
  have hcursor := s.cursor_le
  rw [h.rest_eq] at hlength
  omega

theorem Facing.peek_eq (h : s.Facing bound bytes) : s.peek = bytes.head? := by
  rw [State.peek_eq, h.rest_eq]

theorem Facing.took {token : List UInt8} {values : List Value} {user : U}
    (h : s.Facing bound bytes) (ht : s.Took token rest values user s') (hheeds : s.Heeds bound s')
    (hrest : input.size ≤ bound + rest.length) : s'.Facing bound rest := by
  have hcursor : s'.cursor ≤ bound := by
    have hlength := s'.length_rest
    have hle := s'.cursor_le
    rw [ht.rest_eq] at hlength
    omega
  exact ⟨ht.rest_eq, ht.resultsSilenced_eq.trans h.resultsSilenced_eq,
    hheeds.within hcursor h.within⟩

end State

namespace TextGrammar

variable {budget : Nat} {f : Failure} {ready ready' : Builder → Prop} {r : TextRule}
  {bytes rest : List UInt8} {s s' : State input Builder} {outcome : Outcome}

/-! ## Passing over bytes -/

/-- A rule matches where the input goes on with these bytes, and then it goes on with the rest. -/
def Passes (input : Array UInt8) (bound : Nat) (ready ready' : Builder → Prop) (r : TextRule)
    (bytes rest : List UInt8) : Prop :=
  ∀ ⦃budget outcome⦄ ⦃s s' : State input Builder⦄, s.Facing bound bytes → ready s.user →
    r.evaluate grammar budget s = some (outcome, s') →
      outcome = .ok ∧ s'.Facing bound rest ∧ ready' s'.user

theorem Passes.of_builds {α : Type} {depth bound : Nat}
    {read : List UInt8 → Option (α × List UInt8)} {change : α → Builder → Builder}
    {able : Builder → List UInt8 → Prop} {clean : List UInt8 → Prop}
    (h : Rule.Builds depth r read change able clean)
    (htidy : ∀ budget, Tidy bound anything (r.evaluate grammar budget : Step input Builder)) {x : α}
    (hread : read bytes = some (x, rest)) (hrest : input.size ≤ bound + rest.length)
    (hable : ∀ b, ready b → able b bytes) (hready : ∀ b, ready b → ready' (change x b)) :
    Passes input bound ready ready' r bytes rest := by
  intro budget outcome s s' hs huser hreply
  obtain ⟨rfl, token, ht⟩ := h.took hreply hs.resultsSilenced_eq (hs.rest_eq ▸ hable _ huser)
    (hs.rest_eq ▸ hread)
  exact ⟨rfl, hs.took ht ((htidy budget hreply).heeds nofun trivial) hrest,
    ht.user_eq ▸ hready _ huser⟩

theorem Passes.of_reads {depth bound : Nat} {p : Scanner} (h : Rule.Reads grammar true depth r p)
    (htidy : ∀ budget, Tidy bound anything (r.evaluate grammar budget : Step input Builder))
    {token : List UInt8} {values : List Value} (hscan : p bytes = .ok token rest values)
    (hrest : input.size ≤ bound + rest.length) : Passes input bound ready ready r bytes rest := by
  intro budget outcome s s' hs huser hreply
  obtain ⟨reply, hreads, hfits⟩ := h input depth (Nat.le_refl _) s fun _ ↦ hs.resultsSilenced_eq
  rw [hs.rest_eq, hscan] at hfits
  cases hfits with
  | ok ht =>
    cases Rule.evaluate_unique hreply hreads
    exact ⟨rfl, hs.took ht ((htidy budget hreply).heeds nofun trivial) hrest,
      ht.user_eq ▸ huser⟩

theorem Passes.inOrder {bound : Nat} (h : Passes input bound ready ready' r bytes rest)
    (hs : s.Facing bound bytes) (huser : ready s.user) {rules : List TextRule} {before : Outcome}
    (hreply : Evaluate.inOrder (Rule.evaluate grammar budget) (r :: rules) before s =
      some (outcome, s')) :
    ∃ s₁ : State input Builder, s₁.Facing bound rest ∧ ready' s₁.user ∧
      Evaluate.inOrder (Rule.evaluate grammar budget) rules .ok s₁ = some (outcome, s') := by
  obtain ⟨o, s₁, hfirst, -, hrest⟩ := Evaluate.inOrder_cons_inv hreply
  obtain ⟨rfl, hs₁, huser₁⟩ := h hs huser hfirst
  exact ⟨s₁, hs₁, huser₁, hrest nofun⟩

/-! ## Fatal rules -/

/-- A rule fails where the input goes on with these bytes, and then this failure is the
furthest. -/
def Fatal (input : Array UInt8) (f : Failure) (ready : Builder → Prop) (r : TextRule)
    (bytes : List UInt8) : Prop :=
  ∀ ⦃budget outcome⦄ ⦃s s' : State input Builder⦄, s.Facing f.offset bytes → ready s.user →
    r.evaluate grammar budget s = some (outcome, s') → outcome = .fail ∧ s'.Marked f

/-- The rest of a sequence fails in the same way. -/
def FatalSequence (input : Array UInt8) (f : Failure) (ready : Builder → Prop)
    (rules : List TextRule) (bytes : List UInt8) : Prop :=
  ∀ ⦃budget before outcome⦄ ⦃s s' : State input Builder⦄, s.Facing f.offset bytes → ready s.user →
    Evaluate.inOrder (Rule.evaluate grammar budget) rules before s = some (outcome, s') →
      outcome = .fail ∧ s'.Marked f

theorem Fatal.imp (h : Fatal input f ready' r bytes) (hready : ∀ b, ready b → ready' b) :
    Fatal input f ready r bytes :=
  fun _ _ _ _ hs huser hreply ↦ h hs (hready _ huser) hreply

/-- A rule is fatal where its body is. -/
theorem Fatal.of_body {name : Option String} {k : Kind Symbol Builder TextRule}
    (h : ∀ ⦃budget outcome⦄ ⦃s s' : State input Builder⦄, s.Facing f.offset bytes → ready s.user →
      fromHere (Evaluate.kind grammar (Rule.evaluate grammar budget) name k) s =
        some (outcome, s') → outcome = .fail ∧ s'.Marked f) :
    Fatal input f ready ⟨name, {}, k⟩ bytes := by
  intro budget outcome s s' hs huser hreply
  rcases budget with _ | budget
  · cases hreply
  obtain ⟨entered, left, hbody, hsame, hentered, hleft, -⟩ := Rule.step_inv hreply
  obtain ⟨rfl, hmarked⟩ := h (hs.entered hsame hentered) (hsame.user_eq ▸ huser) hbody
  exact ⟨rfl, hmarked.congr hleft.furthest_eq⟩

theorem Fatal.symbol {n : Symbol} (h : Fatal input f ready (grammar n) bytes) :
    Fatal input f ready (.symbol n) bytes :=
  .of_body fun _ _ _ _ hs huser hreply ↦ h hs huser hreply

/-- What is done behind a fatal rule is not done. -/
theorem Fatal.closing (h : Fatal input f ready r bytes) (name : Option String)
    (action : Action Symbol Builder) : Fatal input f ready ⟨name, {}, .closing r action⟩ bytes := by
  refine .of_body fun budget outcome s s' hs huser hreply ↦ ?_
  rcases hmatch : r.evaluate grammar budget s with _ | ⟨o, s₁⟩
  · simp only [fromHere, Evaluate.kind, hmatch] at hreply
    cases hreply
  obtain ⟨rfl, hmarked⟩ := h hs huser hmatch
  simp only [fromHere, Evaluate.kind, hmatch] at hreply
  cases hreply
  exact ⟨rfl, hmarked⟩

/-! ## Sequences -/

theorem FatalSequence.here (h : Fatal input f ready r bytes) {rules : List TextRule} :
    FatalSequence input f ready (r :: rules) bytes := by
  intro budget before outcome s s' hs huser hreply
  obtain ⟨o, s₁, hfirst, hlast, -⟩ := Evaluate.inOrder_cons_inv hreply
  obtain ⟨rfl, hmarked⟩ := h hs huser hfirst
  obtain ⟨rfl, rfl⟩ := hlast rfl
  exact ⟨rfl, hmarked⟩

theorem FatalSequence.behind (h : Passes input f.offset ready ready' r bytes rest)
    {rules : List TextRule} (hrules : FatalSequence input f ready' rules rest) :
    FatalSequence input f ready (r :: rules) bytes := by
  intro budget before outcome s s' hs huser hreply
  obtain ⟨s₁, hs₁, huser₁, hrest⟩ := h.inOrder hs huser hreply
  exact hrules hs₁ huser₁ hrest

theorem FatalSequence.fatal {rules : List TextRule}
    (h : FatalSequence input f ready rules bytes) (name : Option String) :
    Fatal input f ready ⟨name, {}, .allOf rules⟩ bytes :=
  .of_body fun _ _ _ _ hs huser hreply ↦ h hs huser hreply

/-! ## Choices -/

/-- A rule does not match where the input goes on with these bytes; it changes nothing, and leaves
no failure behind the bound. -/
def Declines (input : Array UInt8) (bound : Nat) (ready : Builder → Prop) (r : TextRule)
    (bytes : List UInt8) : Prop :=
  ∀ ⦃budget outcome⦄ ⦃s s' : State input Builder⦄, s.Facing bound bytes → ready s.user →
    r.evaluate grammar budget s = some (outcome, s') →
      outcome ≠ .ok ∧ s.Same s' ∧ s'.Within bound

/-- A rule does not match at a byte in front of the furthest failure, which is still the furthest
then. -/
def Yields (input : Array UInt8) (f : Failure) (b : UInt8) (r : TextRule) : Prop :=
  ∀ ⦃budget outcome⦄ ⦃s s' : State input Builder⦄, s.peek = some b → s.cursor < f.offset →
    s.Marked f → r.evaluate grammar budget s = some (outcome, s') → outcome ≠ .ok ∧ s'.Marked f

theorem Declines.of_builds {α : Type} {depth bound : Nat}
    {read : List UInt8 → Option (α × List UInt8)} {change : α → Builder → Builder}
    {able : Builder → List UInt8 → Prop} {clean : List UInt8 → Prop}
    (h : Rule.Builds depth r read change able clean)
    (hcalm : ∀ budget,
      Calm bound (· = bytes.head?) (r.evaluate grammar budget : Step input Builder))
    (hread : read bytes = none) (hclean : clean bytes) (hable : ∀ b, ready b → able b bytes)
    (hbytes : input.size ≤ bound + bytes.length) : Declines input bound ready r bytes := by
  intro budget outcome s s' hs huser hreply
  have hbuilt := h.built hreply hs.resultsSilenced_eq (hs.rest_eq ▸ hable _ huser)
  rw [hs.rest_eq, hread] at hbuilt
  have hcursor : s.cursor ≤ bound := by
    have hadd := hs.cursor_add
    omega
  cases hbuilt with
  | fail hdropped =>
    exact ⟨nofun, hdropped.same hclean, hcalm budget hreply nofun hs.peek_eq hcursor hs.within⟩

theorem Declines.of_reads {depth bound : Nat} {p : Scanner}
    (h : Rule.Reads grammar true depth r p)
    (hcalm : ∀ budget,
      Calm bound (· = bytes.head?) (r.evaluate grammar budget : Step input Builder))
    (hscan : p bytes = .fail) (hbytes : input.size ≤ bound + bytes.length) :
    Declines input bound ready r bytes := by
  intro budget outcome s s' hs huser hreply
  obtain ⟨reply, hreads, hfits⟩ := h input depth (Nat.le_refl _) s fun _ ↦ hs.resultsSilenced_eq
  rw [hs.rest_eq, hscan] at hfits
  have hcursor : s.cursor ≤ bound := by
    have hadd := hs.cursor_add
    omega
  cases hfits with
  | fail hsame =>
    cases Rule.evaluate_unique hreply hreads
    exact ⟨nofun, hsame, hcalm budget hreply nofun hs.peek_eq hcursor hs.within⟩

/-- A rule that refuses a byte yields there. -/
theorem yields_of_refusal {b : UInt8} {depth : Nat} (hr : r.refusal grammar b depth = some .fail)
    (f : Failure) : Yields input f b r := by
  intro budget outcome s s' hpeek hcursor hmarked hreply
  obtain ⟨rfl, htethered⟩ := Rule.evaluate_refused hr hreply hpeek s.cursor
  exact ⟨nofun, htethered.marked (Nat.le_refl _) f hcursor hmarked⟩

/-- So does the rule for a collection at any byte but its opening bracket. -/
theorem scope_yields (form : Form) {b : UInt8} (hb : b ≠ opener form) (f : Failure) :
    Yields input f b (.leaf (scope form)) := by
  intro budget outcome s s' hpeek hcursor hmarked hreply
  rcases budget with _ | budget
  · cases hreply
  obtain ⟨entered, left, hbody, hsame, hentered, hleft, -⟩ := Rule.step_inv hreply
  cases scope_eq_fail form hbody (by rwa [State.peek, hsame.cursor_eq]) hb
  have hfailed := (hmarked.congr hentered.furthest_eq).fail (hsame.cursor_eq ▸ hcursor)
    (.expectedByte (opener form))
  exact ⟨by decide, hfailed.congr hleft.furthest_eq⟩

/-- **A choice is fatal** where one alternative is, and no other matches. -/
theorem choice_fatal {before after : List TextRule} {b : UInt8} {rest : List UInt8}
    (hlength : input.size < f.offset + (b :: rest).length)
    (hbefore : ∀ r ∈ before, Declines input f.offset ready r (b :: rest))
    (hr : Fatal input f ready r (b :: rest)) (hafter : ∀ r ∈ after, Yields input f b r)
    (name : Option String) :
    Fatal input f ready ⟨name, {}, .anyOf (before ++ r :: after)⟩ (b :: rest) := by
  refine .of_body fun budget outcome s s' hs huser hreply ↦ ?_
  have hcursor : s.cursor < f.offset := by
    have hadd := hs.cursor_add
    omega
  change Evaluate.choice (Rule.evaluate grammar budget) name (before ++ r :: after) s.position s =
    some (outcome, s') at hreply
  rw [Evaluate.choice_eq_conclude] at hreply
  obtain ⟨⟨o, ended⟩, hattempts, heq⟩ := Option.map_eq_some_iff.1 hreply
  -- all attempts start from the same place with the same builder
  let Starts (s₁ : State input Builder) : Prop :=
    s₁.Facing f.offset (b :: rest) ∧ ready s₁.user ∧ s₁.position = s.position
  have hstarts : Starts { s.silenceErrors with furthest := none } :=
    ⟨⟨hs.rest_eq, hs.resultsSilenced_eq, State.within_of_none rfl⟩, huser, rfl⟩
  have hdeclined : ∀ r ∈ before, ∀ ⦃s₁ o s₂⦄, Starts s₁ →
      r.evaluate grammar budget s₁ = some (o, s₂) → o ≠ .ok ∧ Starts (s₂.restore s.position) := by
    intro r hr s₁ o s₂ ⟨hs₁, huser₁, hposition⟩ hfirst
    obtain ⟨hne, hsame₁, hwithin⟩ := hbefore r hr hs₁ huser₁ hfirst
    have hback := Evaluate.restore_same hsame₁
    rw [hposition] at hback
    exact ⟨hne, hs₁.same hback (hwithin.congr rfl), hback.user_eq ▸ huser₁,
      hback.position_eq.trans hposition⟩
  obtain ⟨s₁, ⟨hs₁, huser₁, -⟩, hlast⟩ :=
    Evaluate.firstOf_append_inv hdeclined hstarts hattempts
  obtain ⟨o₁, s₂, hfirst, -, hothers⟩ := Evaluate.firstOf_cons_inv hlast
  obtain ⟨rfl, hmarked⟩ := hr hs₁ huser₁ hfirst
  -- the others do not get as far
  let Marks (s₁ : State input Builder) : Prop := s₁.cursor = s.cursor ∧ s₁.Marked f
  have hyielded : ∀ r ∈ after, ∀ ⦃s₁ o s₂⦄, Marks s₁ →
      r.evaluate grammar budget s₁ = some (o, s₂) → o ≠ .ok ∧ Marks (s₂.restore s.position) := by
    intro r hr s₁ o s₂ ⟨hcursor₁, hmarked₁⟩ hnext
    have hpeek : s₁.peek = some b := by
      rw [State.peek, hcursor₁, ← State.peek, hs.peek_eq]
      rfl
    obtain ⟨hne, hmarked₂⟩ := hafter r hr hpeek (hcursor₁ ▸ hcursor) hmarked₁ hnext
    exact ⟨hne, State.restore_cursor rfl s₂, hmarked₂.congr rfl⟩
  have hmarks : Marks (s₂.restore s.position) :=
    ⟨State.restore_cursor rfl s₂, hmarked.congr rfl⟩
  have hothers := hothers (by decide)
  rw [← List.append_nil after] at hothers
  obtain ⟨s₃, ⟨-, hmarked₃⟩, hnone⟩ := Evaluate.firstOf_append_inv hyielded hmarks hothers
  cases hnone
  cases heq
  exact ⟨rfl, (hs.within.rejoin_marked hmarked₃).conclude_of_rejoin name hcursor _⟩

/-! ## Repetitions -/

/-- The items with fluff behind each, one of which is fatal. -/
inductive Doomed (input : Array UInt8) (f : Failure) (ready : Builder → Prop) (item : TextRule) :
    List UInt8 → Prop
  | here {bytes : List UInt8} (h : Fatal input f ready item bytes)
      (hlength : input.size < f.offset + bytes.length)
      (hbytes : ∃ b ∈ bytes.head?, Direct.closesNothing b = true) : Doomed input f ready item bytes
  | later {bytes rest left : List UInt8} (h : Passes input f.offset ready ready item bytes rest)
      (hfluff : Direct.fluff rest = some left) (hlength : left.length < bytes.length)
      (hmore : Doomed input f ready item left) : Doomed input f ready item bytes

/-- Here a repetition has ended that cannot be followed by a closing bracket. -/
structure Stuck (f : Failure) (s : State input Builder) : Prop where
  marked : s.Marked f
  cursor_lt : s.cursor < f.offset
  peek_eq : ∃ b, s.peek = some b ∧ Direct.closesNothing b = true

theorem Stuck.congr (h : Stuck f s) (hcursor : s'.cursor = s.cursor)
    (hfurthest : s'.furthest = s.furthest) : Stuck f s' :=
  ⟨h.marked.congr hfurthest, hcursor ▸ h.cursor_lt, by rw [State.peek, hcursor]; exact h.peek_eq⟩

theorem skip_passes {bound : Nat} (hfluff : Direct.fluff bytes = some rest)
    (hrest : input.size ≤ bound + rest.length) :
    Passes input bound ready ready (act Fluff.skip) bytes rest :=
  .of_builds (x := ()) Direct.skip_builds (fun budget ↦ act_tidy skip_plain budget)
    (by rw [hfluff]; rfl) hrest (fun _ _ ↦ trivial) fun _ h ↦ h

namespace Doomed

variable {item : TextRule}

theorem length_lt (h : Doomed input f ready item bytes) :
    input.size < f.offset + bytes.length := by
  induction h with
  | here _ hlength _ => exact hlength
  | later _ _ hlength _ ih => exact Nat.lt_trans ih (Nat.add_lt_add_left hlength _)

/-- One round of the repetition: either it is fatal, or there is another one to come. -/
theorem round (h : Doomed input f ready item bytes) (hs : s.Facing f.offset bytes)
    (huser : ready s.user)
    (hreply : Evaluate.kind grammar (Rule.evaluate grammar budget) none
      (.allOf [item, act Fluff.skip]) s.position s = some (outcome, s')) :
    (outcome = .fail ∧ Stuck f (s'.restore s.position)) ∨
      outcome = .ok ∧ s.cursor < s'.cursor ∧ ready s'.user ∧
        ∃ left, s'.Facing f.offset left ∧ Doomed input f ready item left := by
  cases h with
  | here hfatal hlength hbytes =>
    obtain ⟨rfl, hmarked⟩ := FatalSequence.here hfatal hs huser hreply
    have hback : (s'.restore s.position).cursor = s.cursor := State.restore_cursor rfl s'
    refine .inl ⟨rfl, hmarked.congr rfl, ?_, ?_⟩
    · have hadd := hs.cursor_add
      omega
    · rw [State.peek, hback, ← State.peek, hs.peek_eq]
      exact hbytes
  | @later _ rest left hpasses hfluff hlength hmore =>
    obtain ⟨s₁, hs₁, huser₁, hrest⟩ := hpasses.inOrder hs huser hreply
    have hskip : Passes input f.offset ready ready (act Fluff.skip) rest left :=
      skip_passes hfluff (Nat.le_of_lt hmore.length_lt)
    obtain ⟨s₂, hs₂, huser₂, hrest⟩ := hskip.inOrder hs₁ huser₁ hrest
    cases hrest
    refine .inr ⟨rfl, ?_, huser₂, left, hs₂, hmore⟩
    have hbefore := hs.cursor_add
    have hbehind := hs₂.cursor_add
    omega

theorem loops {s s' : State input Builder} (hloops : Evaluate.Loops (Evaluate.kind grammar
      (Rule.evaluate grammar budget) none (.allOf [item, act Fluff.skip])) s s')
    {bytes : List UInt8} (h : Doomed input f ready item bytes) (hs : s.Facing f.offset bytes)
    (huser : ready s.user) : Stuck f s' := by
  induction hloops generalizing bytes with
  | undone hround houtcome =>
    rcases h.round hs huser hround with ⟨-, hstuck⟩ | ⟨rfl, -⟩
    · exact hstuck
    · exact absurd rfl houtcome
  | still hround hstill =>
    rcases h.round hs huser hround with ⟨hfail, -⟩ | ⟨-, hlt, -⟩
    · cases hfail
    · exact absurd hlt (Nat.not_lt.2 hstill)
  | next hround _ _ ih =>
    rcases h.round hs huser hround with ⟨hfail, -⟩ | ⟨-, -, huser₁, left, hs₁, hleft⟩
    · cases hfail
    · exact ih hleft hs₁ huser₁

/-- **A repetition ends where an item is fatal.** -/
theorem stuck (h : Doomed input f ready item bytes) (hs : s.Facing f.offset bytes)
    (huser : ready s.user)
    (hreply : (thenFluff item).repeatedOrNone.evaluate grammar budget s = some (outcome, s')) :
    outcome ≠ .fail ∧ Stuck f s' := by
  rcases budget with _ | budget
  · cases hreply
  obtain ⟨entered, left, hbody, hsame, hentered, hleft, hcursor⟩ := Rule.step_inv hreply
  have hopened := hs.entered hsame hentered
  change Evaluate.optional (Evaluate.repeated (Evaluate.kind grammar (Rule.evaluate grammar budget)
    none (.allOf [item, act Fluff.skip]))) entered.position entered = some (outcome, left) at hbody
  have hquiet : entered.silenceErrors.Facing f.offset bytes :=
    ⟨hopened.rest_eq, hopened.resultsSilenced_eq, hopened.within⟩
  rcases hround : Evaluate.kind grammar (Rule.evaluate grammar budget) none
      (.allOf [item, act Fluff.skip]) entered.position entered.silenceErrors with _ | ⟨o, s₁⟩
  all_goals simp only [Evaluate.optional, Evaluate.repeated, hround] at hbody
  · cases hbody
  rcases h.round hquiet (hsame.user_eq ▸ huser) hround with ⟨rfl, hstuck⟩ | ⟨rfl, -, huser₁, hmore⟩
  · cases hbody
    refine ⟨by decide, hstuck.congr ?_ hleft.furthest_eq⟩
    rw [hcursor, State.restore_cursor rfl s₁]
    exact hsame.cursor_eq.symm
  · obtain ⟨bytes₁, hs₁, hmore⟩ := hmore
    rcases hagain : Evaluate.again (Evaluate.kind grammar (Rule.evaluate grammar budget) none
        (.allOf [item, act Fluff.skip])) (input.size + 1 - s₁.cursor) s₁.silenceErrors with _ | s₂
    all_goals simp only [hagain] at hbody
    · cases hbody
    · cases hbody
      have hrounds : input.size < s₁.silenceErrors.cursor + (input.size + 1 - s₁.cursor) := by
        have hle := s₁.cursor_le
        show input.size < s₁.cursor + _
        omega
      have hloops := (Evaluate.again_eq_some_iff hrounds).1 hagain
      have hquiet₁ : s₁.silenceErrors.Facing f.offset bytes₁ :=
        ⟨hs₁.rest_eq, hs₁.resultsSilenced_eq, hs₁.within⟩
      exact ⟨by decide, (hmore.loops hloops hquiet₁ huser₁).congr hcursor hleft.furthest_eq⟩

end Doomed

end TextGrammar
end DocGrammar
