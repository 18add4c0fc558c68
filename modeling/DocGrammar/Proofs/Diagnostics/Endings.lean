import DocGrammar.Proofs.Diagnostics.Furthest
import DocGrammar.Proofs.Diagnostics.Values
import DocGrammar.Proofs.Direct.Document

/-!
# How a document that is not read ends

A document is fluff, members and the end of the input.  The members do not fail, whatever they are;
they only end, and if there is anything left where they do, that is where the document fails.  So
two failures can be reported: this one, and the furthest one recorded up to there, if it lies
further on (`document_reports`).

Where the members end is what the direct reader says, and it is known when a document is followed by
a closing bracket, or by nothing (`members_reach`).
-/

set_option autoImplicit false

namespace DocGrammar

variable {N U : Type} {input : Array UInt8}

/-! ## Replies, whatever the budget -/

/-- A rule that builds what a direct reader reads does so whenever the budget is enough for a
reply. -/
theorem Rule.Builds.built {α : Type} {depth budget : Nat} {r : TextGrammar.TextRule}
    {read : List UInt8 → Option (α × List UInt8)} {change : α → Builder → Builder}
    {ready : Builder → List UInt8 → Prop} {clean : List UInt8 → Prop}
    (h : r.Builds depth read change ready clean) {s : State input Builder}
    {reply : Reply input Builder} (hreply : r.evaluate TextGrammar.grammar budget s = some reply)
    (hs : s.resultsSilenced = 0) (hready : ready s.user s.rest) :
    Built s change (s.Dropped (clean s.rest)) (read s.rest) reply := by
  obtain ⟨reply', hreply', hbuilt⟩ := h input depth (Nat.le_refl _) s hs hready
  rwa [Rule.evaluate_unique hreply hreply']

/-- If the direct reader finds something, the rule takes it. -/
theorem Rule.Builds.took {α : Type} {depth budget : Nat} {r : TextGrammar.TextRule}
    {read : List UInt8 → Option (α × List UInt8)} {change : α → Builder → Builder}
    {ready : Builder → List UInt8 → Prop} {clean : List UInt8 → Prop}
    (h : r.Builds depth read change ready clean) {s s' : State input Builder} {outcome : Outcome}
    (hreply : r.evaluate TextGrammar.grammar budget s = some (outcome, s'))
    (hs : s.resultsSilenced = 0) (hready : ready s.user s.rest) {x : α} {rest : List UInt8}
    (hread : read s.rest = some (x, rest)) :
    outcome = .ok ∧ ∃ token, s.Took token rest [] (change x s.user) s' := by
  have hbuilt := h.built hreply hs hready
  rw [hread] at hbuilt
  cases hbuilt with
  | ok ht => exact ⟨rfl, _, ht⟩

/-- The same failures have been recorded, so the same one is reported. -/
theorem State.Recorded.reported_eq {s s' : State input U} (h : s.Recorded [] s') :
    s'.reported = s.reported := by
  have hfurthest : s'.furthest = s.furthest := h.furthest_eq
  rw [reported, reported, h.error_eq, hfurthest]

/-- If a failure is the first one to be committed, the furthest of all is reported. -/
theorem State.fail_reported {s : State input U} (h : s.error = none) (reason : Reason) :
    (s.fail reason).2.reported = later s.furthest ⟨s.cursor, input[s.cursor]?, reason⟩ := by
  rw [fail_eq]
  have hrecorded := s.failAt_recorded s.cursor reason
  have hfurthest : (s.failAt s.cursor reason).2.furthest =
      later s.furthest ⟨s.cursor, input[s.cursor]?, reason⟩ :=
    hrecorded.furthest_eq
  rcases hrecorded.error_mem with herror | ⟨f, hf, herror⟩
  · rw [reported, herror.trans h, hfurthest]
  · -- what is committed is the failure itself, and it is reported unless one lies further on
    cases List.mem_singleton.1 hf
    rw [reported, herror, hfurthest]
    rcases s.furthest with _ | e
    · exact if_neg (Nat.lt_irrefl _)
    · simp only [later]
      split_ifs with hle
      · exact if_neg (Nat.lt_irrefl _)
      · exact if_pos (Nat.not_le.1 hle)

namespace TextGrammar

open Direct (closesNothing Closes Ended)

/-! ## Honest actions -/

/-- Opening a collection has its body matched, and does not fail by itself unless there is no
opening bracket. -/
theorem scope_honest (form : Form) : HonestAction (scope form) := by
  intro input s start
  dsimp only [scope]
  split
  · exact .call (.quiet ⟨rfl, rfl, rfl, rfl, rfl, rfl⟩) fun reply ↦
      .done (.quiet ⟨rfl, rfl, rfl, rfl, rfl, rfl⟩) (by simp)
  · exact .done (.failAt (.quiet (.refl s)) s.cursor _ (.refl _)) (by simp)

theorem actions_honest : GrammarActions HonestAction where
  okWith value h := (actions_plain.okWith value h).honest
  closeDecimal := actions_plain.closeDecimal.honest
  closeUnsigned radix := (actions_plain.closeUnsigned radix).honest
  closeSigned := actions_plain.closeSigned.honest
  delimiter := actions_plain.delimiter.honest
  rejectNumber := actions_plain.rejectNumber.honest
  keepRaw := actions_plain.keepRaw.honest
  keepUnescaped := actions_plain.keepUnescaped.honest
  emitScalar := actions_plain.emitScalar.honest
  emitString := actions_plain.emitString.honest
  emitVector := actions_plain.emitVector.honest
  setName := actions_plain.setName.honest
  documentEnd := actions_plain.documentEnd.honest
  skip := actions_plain.skip.honest
  quotedEnd := actions_plain.quotedEnd.honest
  blockBody := actions_plain.blockBody.honest
  collectionEnd form := (actions_plain.collectionEnd form).honest
  scope := scope_honest

/-- **All rules of the grammar account for their failures.** -/
theorem every_accountable {r : TextRule} (hr : r.Every HonestAction) (budget : Nat) :
    Accountable (r.evaluate grammar budget : Step input Builder) :=
  Rule.evaluate_accountable budget fun _ hinvolves ↦
    Rule.Every.of_involves actions_honest.grammar hr hinvolves

/-! ## Members -/

section

variable {budget : Nat} {s s' : State input Builder} {outcome : Outcome}

/-- The members do not fail.  They end before the closing byte if the direct reader reads them up to
there, and otherwise somewhere else. -/
theorem members_gathered {closer : Option UInt8} (hcloser : ∀ c ∈ closer, closesNothing c = false)
    (hs : s.resultsSilenced = 0) (hidle : Direct.Idle s.user)
    (hreply : (thenFluff (.symbol .member)).repeatedOrNone.evaluate grammar budget s =
      some (outcome, s')) :
    outcome ≠ .fail ∧ Direct.Gathered s closer
      (Direct.items (Direct.member (Direct.value (input.size + 1))) closer (s.rest.length + 1)
        s.rest)
      s' := by
  have hnone (bytes : List UInt8) (h : bytes.head? = closer) : Direct.string bytes = none := by
    rcases bytes with _ | ⟨b, bytes⟩
    · rfl
    · exact Direct.string_eq_none_of_closes (hcloser b h.symm) bytes
  have hmember := (Direct.symbol_builds .member (Direct.member_builds (by omega)
    (Direct.symbol_builds .value (Direct.value_builds input.size)))).imp
      (fun _ _ h ↦ h) (fun _ _ _ _ ↦ rfl) hnone
  obtain ⟨o, s₁, hgathers, hne, hgathered⟩ := Direct.items_gathered
    (Direct.member_shortens (Direct.value_shortens _))
    (fun bytes h ↦ by rw [Direct.member, Direct.heading, hnone bytes h]; rfl) hmember input
    (Nat.le_refl _) (by omega) s hs hidle (s.length_rest ▸ Nat.sub_le _ _)
  cases Rule.evaluate_unique hreply hgathers
  exact ⟨hne, hgathered⟩

/-- The bytes of a document begin with fluff, whatever follows. -/
theorem fluff_of_document {bytes t : List UInt8} (hbytes : Ended bytes) (ht : Closes t)
    {docs : List Doc} (h : Direct.document bytes = some docs) :
    ∃ rest, Direct.fluff (bytes ++ t) = some rest := by
  obtain ⟨rest, hfluff, -⟩ :=
    Option.bind_eq_some_iff.1 (Direct.document_reaches ht hbytes h (Nat.lt_succ_self _))
  exact ⟨rest, hfluff⟩

/-- The members of a document reach up to the closing bracket behind it, or up to the end of the
input. -/
theorem members_reach {bytes t : List UInt8} (hbytes : Ended bytes) (ht : Closes t)
    {docs : List Doc} (hdocument : Direct.document bytes = some docs)
    (hlength : bytes.length ≤ input.size) (hrest : Direct.fluff (bytes ++ t) = some s.rest)
    (hs : s.resultsSilenced = 0) (hidle : Direct.Idle s.user)
    (hreply : (thenFluff (.symbol .member)).repeatedOrNone.evaluate grammar budget s =
      some (outcome, s')) :
    outcome ≠ .fail ∧ s'.rest = t := by
  obtain ⟨hne, hgathered⟩ := members_gathered ht hs hidle hreply
  have hreaches := Direct.document_reaches ht hbytes hdocument (Nat.lt_succ_of_le hlength)
  rw [Direct.enclosed, hrest, Option.bind_some] at hreaches
  rw [hreaches] at hgathered
  obtain ⟨token, rest, ht, hhead, hdrop⟩ := hgathered
  refine ⟨hne, ht.rest_eq.trans ?_⟩
  rcases rest with _ | ⟨b, rest⟩
  all_goals rcases t with _ | ⟨c, t⟩
  · rfl
  · cases hhead
  · cases hhead
  · cases hhead
    exact congrArg _ hdrop

/-! ## The end -/

/-- Why a document does not go on with a byte. -/
def endReason (b : UInt8) : Reason :=
  if b = 0x7D then unbalanced "\x7d"
  else if b = 0x5D then unbalanced "]"
  else if b = 0x29 then unbalanced ")"
  else .noAlternative (some "member")

theorem documentEnd_eq_fail {b : UInt8} (h : s.peek = some b) (start : Position) :
    documentEnd s start = s.fail (endReason b) := by
  rw [documentEnd, h]
  dsimp only
  rw [endReason]
  split_ifs
  · rfl
  · rfl
  · rfl
  · rfl

/-- A document that reaches its end in the middle of the input fails there.  Of the failures up to
there and this one, the furthest is reported. -/
theorem document_reports {rest : List UInt8} (hs : s.resultsSilenced = 0)
    (herror : s.error = none) (hfluff : Direct.fluff s.rest = some rest)
    (hreply : document.evaluate grammar budget s = some (outcome, s')) :
    ∃ less o s₁ s₂, s₁.rest = rest ∧ s₁.user = s.user ∧ s₁.resultsSilenced = 0 ∧
      (∀ bound, s.Heeds bound s₁) ∧
      (thenFluff (.symbol .member)).repeatedOrNone.evaluate grammar less s₁ = some (o, s₂) ∧
      (o ≠ .fail → ∀ b, s₂.peek = some b → outcome = .fail ∧
        s'.reported = State.later s₂.furthest ⟨s₂.cursor, some b, endReason b⟩) := by
  rcases budget with _ | budget
  · cases hreply
  obtain ⟨entered, left, hparts, hsame, hentered, hleft, -⟩ := Rule.step_inv hreply
  obtain ⟨o₁, s₁, hskip, -, hparts⟩ := Evaluate.inOrder_cons_inv hparts
  have hread : (Direct.fluff entered.rest).map ((), ·) = some ((), rest) := by
    rw [hsame.rest_eq, hfluff]
    rfl
  obtain ⟨rfl, token, ht⟩ := Direct.skip_builds.took hskip
    (hsame.resultsSilenced_eq.trans hs) trivial hread
  have hparts := hparts (by decide)
  obtain ⟨o₂, s₂, hmembers, -, hparts⟩ := Evaluate.inOrder_cons_inv hparts
  refine ⟨budget, o₂, s₁, s₂, ht.rest_eq, ht.user_eq.trans hsame.user_eq,
    ht.resultsSilenced_eq.trans (hsame.resultsSilenced_eq.trans hs), fun bound ↦ ?_, hmembers,
    fun hne b hb ↦ ?_⟩
  · have htidied : Tidied bound anything entered .ok s₁ := act_tidy skip_plain budget hskip
    exact (State.Heeds.of_furthest_eq (Nat.le_of_eq hsame.cursor_eq.symm)
      hentered.furthest_eq).trans (htidied.heeds (by decide) trivial)
  · have hparts := hparts hne
    obtain ⟨o₃, s₃, hend, hlast, -⟩ := Evaluate.inOrder_cons_inv hparts
    obtain ⟨entered₂, left₂, hfail, hsame₂, hentered₂, hleft₂⟩ := act_inv hend
    have hpeek : entered₂.peek = some b := by rwa [State.peek, hsame₂.cursor_eq]
    rw [documentEnd_eq_fail hpeek] at hfail
    cases hfail
    obtain ⟨rfl, rfl⟩ := hlast rfl
    -- nothing has been committed before
    have hcommitted : entered₂.error = none := by
      obtain ⟨fs₁, hskipped⟩ := every_accountable (r := act Fluff.skip)
        (actions_plain.skip).honest budget hskip
      have hhonest := actions_honest.thenFluff (r := .symbol .member) trivial
      obtain ⟨fs₂, hended⟩ := every_accountable
        (r := (thenFluff (.symbol .member)).repeatedOrNone) hhonest budget hmembers
      rw [hentered₂.error_eq, hended.error_eq hne, hskipped.error_eq (by simp),
        hentered.error_eq, herror]
    have hreported := State.fail_reported hcommitted (endReason b)
    have hbyte : input[s₂.cursor]? = some b := hb
    rw [hsame₂.cursor_eq, hentered₂.furthest_eq, hbyte] at hreported
    exact ⟨rfl, ((hleft₂.trans hleft).reported_eq).trans hreported⟩

end

end TextGrammar

/-! ## Reading -/

namespace Doc

open TextGrammar (document grammar)

variable {root : Doc}

/-- The state in which the rule for a document is matched. -/
def beginning (root : Doc) (input : Array UInt8) : State input Builder :=
  (initialState root input).clearResults.clearErrors

theorem beginning_rest : (beginning root input).rest = input.toList := by
  rw [State.rest_eq]
  rfl

theorem beginning_idle : Direct.Idle (beginning root input).user := ⟨rfl, rfl⟩

theorem beginning_within (bound : Nat) : (beginning root input).Within bound :=
  State.within_of_none rfl

/-- If the rule for a document fails whatever the budget, and this is the failure to be reported, it
is the answer. -/
theorem read_of_reported {f : Failure} (hoffset : f.offset ≤ input.size)
    (hclip : Utf8.clip ParseError.messageLimit f.message = f.message)
    (h : ∀ outcome s', document.evaluate grammar (readBudget input.size) (beginning root input) =
      some (outcome, s') → outcome = .fail ∧ s'.reported = some f) :
    (root.read input).1 =
      .error ⟨({} : Location).skip (State.between input 0 f.offset), f.message⟩ := by
  obtain ⟨⟨result, t⟩, hparse, -⟩ := parse_document root input
  have hread : (root.read input).1 = result := by
    rw [read, hparse]
    rcases result with e | n
    · rfl
    · rfl
  obtain ⟨⟨outcome, s'⟩, hreply, hanswer⟩ := Option.map_eq_some_iff.1 hparse
  obtain ⟨rfl, hreported⟩ := h outcome s' hreply
  -- lines are still counted from the start
  obtain ⟨fs, haccounts⟩ := TextGrammar.every_accountable
    (TextGrammar.actions_honest.grammar .document) _ hreply
  have hlocated : s'.Located := by
    refine ⟨?_, ?_⟩
    · rw [haccounts.synced_eq]
      exact Nat.zero_le _
    · rw [haccounts.synced_eq, haccounts.location_eq]
      exact (State.start_located input (initialState root input).user).location_eq
  have hreport :
      s'.report = ⟨({} : Location).skip (State.between input 0 f.offset), f.message⟩ := by
    rw [State.report, hreported]
    dsimp only
    rw [hlocated.locate_eq, Nat.min_eq_left hoffset, ParseError.clipped, hclip]
  cases hanswer
  rw [hread, hreport]

end Doc

end DocGrammar
