import DocGrammar.Proofs.Diagnostics.Tidy
import DocGrammar.Proofs.Direct.Locality
import DocGrammar.Proofs.Direct.Scalars
import DocGrammar.Proofs.Termination.Descent

/-!
# Documents are tidy

All rules of the grammar of documents are tidy with respect to the offset of a byte that no word
goes on with, such as a closing bracket.  Words do not get behind it.  Strings and comments may, but
a string that matches has not tried anything else at its place; and every bracket decides at once
what is read.

The one case that takes care is the repetition of items in a collection.  An item may fail
anywhere.  But where the collection is closed, the repetition has ended before the closing bracket,
and there an item fails at once.
-/

set_option autoImplicit false

namespace DocGrammar
namespace TextGrammar

open Direct (closesNothing isNumberLike)

/-- A byte stands at the offset that no word goes on with. -/
def Halts (input : Array UInt8) (bound : Nat) : Prop :=
  ∃ c, input[bound]? = some c ∧ isNumberLike c = false

theorem Halts.lt {input : Array UInt8} {bound : Nat} (h : Halts input bound) :
    bound < input.size := by
  obtain ⟨c, hc, -⟩ := h
  exact (Array.getElem?_eq_some_iff.1 hc).1

/-- Words do not go on with a closing bracket. -/
theorem isNumberLike_of_closes {c : UInt8} (hc : closesNothing c = false) :
    isNumberLike c = false := by
  rcases Direct.closesNothing_cases hc with rfl | rfl | rfl
  all_goals rfl

section

variable {input : Array UInt8} {bound : Nat} {ends : Option UInt8 → Prop}

/-! ## One byte, one action -/

theorem oneByte_tidy (accepts : UInt8 → Bool) (reason : Reason) :
    Tidy bound ends fun s : State input Builder ↦ some (Evaluate.oneByte accepts reason s) := by
  intro s outcome s' hreply
  have hplain : PlainTo (fun _ ↦ true) s (Evaluate.oneByte accepts reason s) :=
    Evaluate.oneByte_plain s (fun _ _ ↦ rfl) reason
  rw [Option.some.inj hreply] at hplain
  exact hplain.tidied

/-- A rule for one byte. -/
inductive IsByte : TextRule → Prop
  | byte (b : UInt8) : IsByte (.byte b)
  | range (low high : UInt8) : IsByte (.range low high)

theorem IsByte.tidy {r : TextRule} (h : IsByte r) (budget : Nat) :
    Tidy bound ends (r.evaluate grammar budget : Step input Builder) := by
  cases h with
  | byte b => exact Rule.evaluate_tidy fun _ _ ↦ oneByte_tidy _ _
  | range low high => exact Rule.evaluate_tidy fun _ _ ↦ oneByte_tidy _ _

theorem IsByte.calm {r : TextRule} (h : IsByte r) (budget : Nat) :
    Calm bound ends (r.evaluate grammar budget : Step input Builder) := by
  cases h with
  | byte b => exact Rule.evaluate_calm fun _ _ ↦ Evaluate.oneByte_calm _ _
  | range low high => exact Rule.evaluate_calm fun _ _ ↦ Evaluate.oneByte_calm _ _

/-- A choice between bytes. -/
theorem bytes_calm {rules : List TextRule} (h : ∀ r ∈ rules, IsByte r) (name : Option String)
    (budget : Nat) : Calm bound ends (fromHere (Evaluate.choice (Rule.evaluate grammar budget) name
      rules) : Step input Builder) :=
  Evaluate.choice_calm (fun r hr ↦ (h r hr).calm budget) name

theorem bytes_tidy (hbound : bound < input.size) {rules : List TextRule}
    (h : ∀ r ∈ rules, IsByte r) (name : Option String) (budget : Nat) :
    Tidy bound ends (fromHere (Evaluate.choice (Rule.evaluate grammar budget) name rules) :
      Step input Builder) := by
  refine Evaluate.choice_tidy hbound (fun r hr ↦ (h r hr).tidy budget) (fun b ↦ ?_) name
  exact List.pairwise_of_forall_mem_list fun r hr _ _ ↦ .inl ((h r hr).calm budget)

/-- The reply to an action. -/
theorem act_inv {action : DirectAction Builder} {budget : Nat} {s s' : State input Builder}
    {outcome : Outcome} (h : (act action).evaluate grammar budget s = some (outcome, s')) :
    ∃ entered left : State input Builder, action entered entered.position = (outcome, left) ∧
      s.Same entered ∧ s.Recorded [] entered ∧ left.Recorded [] s' := by
  rcases budget with _ | budget
  · cases h
  obtain ⟨entered, left, hbody, hsame, hentered, hleft, -⟩ := Rule.step_inv h
  exact ⟨entered, left, Option.some.inj hbody, hsame, hentered, hleft⟩

theorem act_tidy {action : DirectAction Builder} {fits : UInt8 → Bool}
    (h : PlainReply fits @action) (budget : Nat) :
    Tidy bound ends ((act action).evaluate grammar budget : Step input Builder) := by
  refine Rule.evaluate_tidy fun less _ ↦ ?_
  have hleaf : Tidy bound ends (fromHere (Evaluate.kind grammar (Rule.evaluate grammar less) none
      (.leaf (DirectAction.toAction @action))) : Step input Builder) :=
    Evaluate.leaf_tidy h.toAction none
  exact hleaf

theorem after_tidy {inner : TextRule} {action : DirectAction Builder} {fits : UInt8 → Bool}
    {budget : Nat}
    (hinner : ∀ less < budget,
      Tidy bound anything (inner.evaluate grammar less : Step input Builder))
    (haction : PlainAction fits (DirectAction.toAction (N := Symbol) @action)) :
    Tidy bound ends ((after inner action).evaluate grammar budget : Step input Builder) := by
  refine Rule.evaluate_tidy fun less hless ↦ ?_
  exact Evaluate.closing_tidy (hinner less hless) haction none

theorem allOf_tidy {rules : List TextRule} {budget : Nat}
    (h : ∀ less < budget, ∀ r ∈ rules,
      Tidy bound anything (r.evaluate grammar less : Step input Builder)) :
    Tidy bound ends ((Rule.allOf rules).evaluate grammar budget : Step input Builder) :=
  Rule.evaluate_tidy fun less hless ↦ Evaluate.inOrder_tidy (h less hless) .noMatch

theorem lookahead_byte_tidy (b : UInt8) (budget : Nat) :
    Tidy bound ends ((Rule.byte b).lookahead.evaluate grammar budget : Step input Builder) := by
  have hbyte : Tidy bound ends (fromHere (Evaluate.lookahead fun _ s ↦
      some (Evaluate.oneByte (· == b) (.expectedByte b) s)) : Step input Builder) :=
    Evaluate.lookahead_tidy (oneByte_tidy _ _)
  exact Rule.evaluate_tidy fun _ _ ↦ hbyte

variable (hbound : Halts input bound)

include hbound

/-- The numbers that may stand in a vector. -/
def vectorNumber : TextRule :=
  .anyOf [delimited Leaf.decimalAny, delimited Leaf.signedAny, malformedNumber]

omit hbound in
/-- These rules take nothing but the bytes of words. -/
theorem tokens_fit : ∀ r ∈ [identifier, scalar, malformedNumber, vectorNumber],
    r.fitsWithin grammar isInert isNumberLike wordHeight = true := by
  decide +kernel

/-- A rule for words does not get behind a byte that none goes on with. -/
theorem word_wordlike {r : TextRule} (hactions : r.Every (PlainAction isNumberLike))
    (hr : r.fitsWithin grammar isInert isNumberLike wordHeight = true) (budget : Nat) :
    Wordlike bound (r.evaluate grammar budget : Step input Builder) := by
  obtain ⟨c, hc, hhalts⟩ := hbound
  refine Rule.evaluate_wordlike (fun b hb ↦ ?_) hactions hr budget
  rw [hc] at hb
  cases hb
  exact hhalts

/-! ## Strings -/

omit hbound in
theorem escapePair_tidy (budget : Nat) :
    Tidy bound ends (escapePair.evaluate grammar budget : Step input Builder) := by
  refine allOf_tidy fun less _ r hr ↦ ?_
  rcases List.mem_cons.1 hr with rfl | hr
  · exact (IsByte.byte _).tidy less
  · rw [List.mem_singleton.1 hr]
    exact (IsByte.range _ _).tidy less

omit hbound in
theorem escapePair_refusal {b : UInt8} (hb : b ≠ 0x5C) :
    escapePair.refusal grammar b wordHeight = some .fail := by
  have hbackslash (depth : Nat) :
      (Rule.byte 0x5C : TextRule).refusal grammar b (depth + 1) = some .fail := by
    show Option.map _ (if (0x5C : UInt8) = b then none else some Outcome.fail) = _
    rw [if_neg hb.symm]
    rfl
  show Option.map _ (firstRefusal (Rule.refusal grammar b _ _ :: _)) = _
  rw [hbackslash]
  rfl

omit hbound in
theorem plain_bytes {r : TextRule}
    (hr : r ∈ [.range 0x00 0x09, .range 0x0B 0x21, .range 0x23 0x5B, .range 0x5D 0xFF]) :
    IsByte r := by
  simp only [List.mem_cons, List.not_mem_nil, or_false] at hr
  rcases hr with rfl | rfl | rfl | rfl
  all_goals exact .range _ _

omit hbound in
theorem plain_calm (budget : Nat) :
    Calm bound ends (plain.evaluate grammar budget : Step input Builder) :=
  Rule.evaluate_calm fun less _ ↦ bytes_calm (fun _ hr ↦ plain_bytes hr) _ less

theorem plain_tidy (budget : Nat) :
    Tidy bound ends (plain.evaluate grammar budget : Step input Builder) :=
  Rule.evaluate_tidy fun less _ ↦ bytes_tidy hbound.lt (fun _ hr ↦ plain_bytes hr) _ less

/-- The bytes of a quoted string, one at a time, up to the quote: neither alternative gets
anywhere there, and which one matches a byte is plain from the byte. -/
theorem quotedBytes_tidy (budget : Nat) :
    Tidy bound (· = some 0x22) ((Rule.anyOf [escapePair, plain]).repeatedOrNone.flat.evaluate
      grammar budget : Step input Builder) := by
  have hescape (less : Nat) {b : UInt8} (hb : b ≠ 0x5C) :
      Calm bound (· = some b) (escapePair.evaluate grammar less : Step input Builder) :=
    Rule.evaluate_calm_of_refusal (escapePair_refusal hb) less
  have hplain : plain.refusal grammar 0x5C wordHeight = some .fail := by decide
  have hcalm (less : Nat) : Calm bound (· = some 0x22) (fromHere (Evaluate.choice
      (Rule.evaluate grammar less) none [escapePair, plain]) : Step input Builder) := by
    refine Evaluate.choice_calm (fun r hr ↦ ?_) none
    rcases List.mem_cons.1 hr with rfl | hr
    · exact hescape less (by decide)
    · rw [List.mem_singleton.1 hr]
      exact plain_calm less
  have htidy (less : Nat) : Tidy bound anything (fromHere (Evaluate.choice
      (Rule.evaluate grammar less) none [escapePair, plain]) : Step input Builder) := by
    refine Evaluate.choice_tidy hbound.lt (fun r hr ↦ ?_) (fun b ↦ ?_) none
    · rcases List.mem_cons.1 hr with rfl | hr
      · exact escapePair_tidy less
      · rw [List.mem_singleton.1 hr]
        exact plain_tidy hbound less
    · refine List.pairwise_cons.2 ⟨fun r hr ↦ ?_, List.pairwise_singleton _ _⟩
      rw [List.mem_singleton.1 hr]
      by_cases hb : b = 0x5C
      · rw [hb]
        exact .inr (Rule.evaluate_bars_of_refusal hplain less)
      · exact .inl (hescape less hb)
  exact Rule.evaluate_tidy fun less _ ↦ Evaluate.flat_tidy <|
    Evaluate.optional_tidy (Evaluate.repeated_tidy (htidy less) (hcalm less))
      (Evaluate.repeated_calm (hcalm less))

omit hbound in
/-- A quoted string does not end but with its closing quote. -/
theorem quotedEnd_peek {budget : Nat} {outcome outcome' : Outcome} {s s' : State input Builder}
    (h : Evaluate.inOrder (Rule.evaluate grammar budget) [act quotedEnd] outcome s =
      some (outcome', s')) (hne : outcome' ≠ .fail) : s.peek = some 0x22 := by
  obtain ⟨o, s₁, hmatch, hfail, -⟩ := Evaluate.inOrder_cons_inv h
  have ho : o ≠ .fail := fun ho ↦ hne (hfail ho).1
  obtain ⟨entered, left, hreply, hsame, -, -⟩ := act_inv hmatch
  have hpeek : entered.peek = s.peek := by rw [State.peek, hsame.cursor_eq, State.peek]
  rw [quotedEnd, hpeek] at hreply
  rcases hbyte : s.peek with _ | b
  all_goals simp only [hbyte] at hreply
  · cases hreply
    exact absurd rfl ho
  split_ifs at hreply with hquote
  · rw [hquote]
  · cases hreply
    exact absurd rfl ho
  · cases hreply
    exact absurd rfl ho

theorem quotedString_tidy (budget : Nat) :
    Tidy bound ends (quotedString.evaluate grammar budget : Step input Builder) := by
  refine after_tidy (fun less _ ↦ Rule.evaluate_tidy fun less _ ↦ ?_)
    (words_plain isNumberLike).keepUnescaped
  have hclosed (outcome : Outcome) : Tidy bound anything (Evaluate.inOrder
      (Rule.evaluate grammar less) [(Rule.anyOf [escapePair, plain]).repeatedOrNone.flat,
        act quotedEnd] outcome : Step input Builder) :=
    Evaluate.inOrder_cons_tidy (quotedBytes_tidy hbound less)
      (fun _ _ _ _ h hne _ ↦ quotedEnd_peek h hne)
      (Evaluate.inOrder_singleton_tidy (act_tidy quotedEnd_plain less)) outcome
  have hquote : Tidy bound anything
      ((Rule.byte 0x22).lookahead.evaluate grammar less : Step input Builder) :=
    lookahead_byte_tidy 0x22 less
  exact Evaluate.inOrder_cons_tidy hquote (fun _ _ _ _ _ _ _ ↦ trivial) hclosed .noMatch

omit hbound in
theorem fence_tidy (budget : Nat) :
    Tidy bound ends ((Rule.literal fence).lookahead.evaluate grammar budget :
      Step input Builder) := by
  have hfence : Tidy bound ends (fromHere fun start s ↦ some (Evaluate.literal fence start s) :
      Step input Builder) := by
    intro s outcome s' hreply
    have hplain : PlainTo (fun _ ↦ true) s (Evaluate.literal fence s.position s) :=
      Evaluate.literal_plain s rfl s.position
    rw [Option.some.inj hreply] at hplain
    exact hplain.tidied
  have hlookahead := Evaluate.lookahead_tidy hfence
  exact Rule.evaluate_tidy fun _ _ ↦ hlookahead

omit hbound in
theorem blockString_tidy (budget : Nat) :
    Tidy bound ends (blockString.evaluate grammar budget : Step input Builder) := by
  refine after_tidy (fun less _ ↦ allOf_tidy fun less _ r hr ↦ ?_)
    (words_plain isNumberLike).keepRaw
  rcases List.mem_cons.1 hr with rfl | hr
  · exact fence_tidy less
  · rw [List.mem_singleton.1 hr]
    exact act_tidy blockBody_plain less

omit hbound in
theorem blockString_refusal {b : UInt8} (hb : b ≠ 0x60) :
    blockString.refusal grammar b wordHeight = some .fail := by
  have hfence (depth : Nat) :
      (Rule.literal fence).lookahead.refusal grammar b (depth + 1) = some .fail := by
    show Option.map _ (if (0x60 : UInt8) = b then none else some Outcome.fail) = _
    rw [if_neg hb.symm]
    rfl
  show Option.map _ (Option.map _ (firstRefusal (Rule.refusal grammar b _ _ :: _))) = _
  rw [hfence]
  rfl

/-- A block string does not begin with a quote, nor a quoted one with a backtick. -/
theorem string_tidy (budget : Nat) :
    Tidy bound ends (string.evaluate grammar budget : Step input Builder) := by
  have hidentifier (less : Nat) :
      Wordlike bound (identifier.evaluate grammar less : Step input Builder) :=
    word_wordlike hbound (words_plain _).identifier (tokens_fit _ (by simp)) less
  refine Rule.evaluate_tidy fun less _ ↦ Evaluate.choice_tidy hbound.lt (fun r hr ↦ ?_)
    (fun b ↦ ?_) _
  · simp only [List.mem_cons, List.not_mem_nil, or_false] at hr
    rcases hr with rfl | rfl | rfl
    · exact (hidentifier less).tidy
    · exact quotedString_tidy hbound less
    · exact blockString_tidy less
  · refine List.pairwise_cons.2 ⟨fun _ _ ↦ .inl (hidentifier less).calm,
      List.pairwise_cons.2 ⟨fun r hr ↦ ?_, List.pairwise_singleton _ _⟩⟩
    rw [List.mem_singleton.1 hr]
    have hquoted : quotedString.refusal grammar 0x60 wordHeight = some .fail := by decide
    exact Evaluate.calm_or_bars 0x60 (Rule.evaluate_calm_of_refusal hquoted less)
      (fun b hb ↦ Rule.evaluate_bars_of_refusal (blockString_refusal hb) less) b

/-! ## Items -/

omit hbound in
/-- **Items end before the closing bracket**, where an item fails at once. -/
theorem items_tidy {item : TextRule} {c : UInt8} {budget : Nat}
    (htidy : ∀ less < budget, Tidy bound anything (item.evaluate grammar less : Step input Builder))
    (hbars : ∀ less < budget, Bars c (item.evaluate grammar less : Step input Builder))
    (hcalm : ∀ less < budget,
      Calm bound (· = some c) (item.evaluate grammar less : Step input Builder)) :
    Tidy bound (· = some c)
      ((thenFluff item).repeatedOrNone.evaluate grammar budget : Step input Builder) := by
  refine Rule.evaluate_tidy fun less hless ↦ ?_
  have hround : Tidy bound anything (fromHere (Evaluate.kind grammar (Rule.evaluate grammar less)
      none (.allOf [item, act Fluff.skip])) : Step input Builder) := by
    refine Evaluate.inOrder_tidy (fun r hr ↦ ?_) .noMatch
    rcases List.mem_cons.1 hr with rfl | hr
    · exact htidy less hless
    · rw [List.mem_singleton.1 hr]
      exact act_tidy skip_plain less
  have hlast : Calm bound (· = some c) (fromHere (Evaluate.kind grammar
      (Rule.evaluate grammar less) none (.allOf [item, act Fluff.skip])) : Step input Builder) :=
    Evaluate.inOrder_cons_calm_at (hbars less hless) (hcalm less hless) .noMatch
  exact Evaluate.optional_tidy (Evaluate.repeated_tidy hround hlast) (Evaluate.repeated_calm hlast)

theorem vector_tidy (budget : Nat) :
    Tidy bound ends (vector.evaluate grammar budget : Step input Builder) := by
  have hactions := words_plain isNumberLike
  have hnumber (less : Nat) :
      Wordlike bound (vectorNumber.evaluate grammar less : Step input Builder) :=
    word_wordlike hbound (r := vectorNumber) ⟨hactions.delimited hactions.decimalAny,
      hactions.delimited hactions.signedAny, hactions.malformedNumber, trivial⟩
      (tokens_fit _ (by simp)) less
  have hrefused : vectorNumber.refusal grammar 0x29 wordHeight = some .fail := by decide
  have hitems (less : Nat) : Tidy bound (· = some 0x29)
      ((thenFluff vectorNumber).repeatedOrNone.evaluate grammar less : Step input Builder) :=
    items_tidy (fun less _ ↦ (hnumber less).tidy)
      (fun less _ ↦ Rule.evaluate_bars_of_refusal hrefused less)
      fun less _ ↦ Rule.evaluate_calm_of_refusal hrefused less
  have hinside (less : Nat) : Tidy bound (· = some 0x29)
      ((Rule.allOf [act Fluff.skip, (thenFluff vectorNumber).repeatedOrNone]).evaluate grammar
        less :
        Step input Builder) := by
    refine Rule.evaluate_tidy fun less _ ↦ ?_
    have hskip : Tidy bound anything ((act Fluff.skip).evaluate grammar less :
        Step input Builder) :=
      act_tidy skip_plain less
    exact Evaluate.inOrder_cons_tidy hskip (fun _ _ _ _ _ _ _ ↦ trivial)
      (Evaluate.inOrder_singleton_tidy (hitems less)) .noMatch
  have hbrackets (less : Nat) : Tidy bound anything ((Rule.bounded 0x28 0x29
      (.allOf [act Fluff.skip, (thenFluff vectorNumber).repeatedOrNone])).evaluate grammar less :
        Step input Builder) := by
    refine Rule.evaluate_tidy fun less _ ↦ ?_
    exact Evaluate.bounded_tidy (hinside less)
  refine Rule.evaluate_tidy fun less _ ↦ ?_
  have hvector : Tidy bound ends (fromHere (Evaluate.kind grammar (Rule.evaluate grammar less)
      (some "vector") (.closing (.bounded 0x28 0x29
        (.allOf [act Fluff.skip, (thenFluff vectorNumber).repeatedOrNone]))
          (DirectAction.toAction emitVector))) : Step input Builder) :=
    Evaluate.closing_tidy (hbrackets less) hactions.emitVector _
  exact hvector

/-! ## Collections -/

section

variable (form : Form) {budget : Nat}

omit hbound in
theorem scope_eq_fail {b : UInt8} {s s' : State input Builder} {outcome : Outcome}
    (hreply : fromHere (Evaluate.kind grammar (Rule.evaluate grammar budget) none
      (.leaf (scope form))) s = some (outcome, s')) (hpeek : s.peek = some b)
    (hb : b ≠ opener form) : s.fail (.expectedByte (opener form)) = (outcome, s') := by
  have hne : ¬ s.peek = some (opener form) := by
    rw [hpeek]
    exact fun h ↦ hb (Option.some.inj h)
  simp only [fromHere, Evaluate.kind, scope, if_neg hne, Program.run] at hreply
  exact Option.some.inj hreply

omit hbound in
theorem scope_bars {b : UInt8} (hb : b ≠ opener form) :
    Bars b ((Rule.leaf (scope form)).evaluate grammar budget : Step input Builder) :=
  Rule.evaluate_bars fun less _ s outcome s' hreply hpeek ↦ by
    cases scope_eq_fail form hreply hpeek hb
    rfl

omit hbound in
theorem scope_calm {b : UInt8} (hb : b ≠ opener form) :
    Calm bound (· = some b)
      ((Rule.leaf (scope form)).evaluate grammar budget : Step input Builder) :=
  Rule.evaluate_calm fun less _ s outcome s' hreply _ hpeek hs hw ↦ by
    cases scope_eq_fail form hreply hpeek hb
    exact hw.failAt hs _

omit hbound in
theorem scope_tidy (hbody : ∀ less < budget, Tidy bound anything
      ((grammar (bodyOf form)).evaluate grammar less : Step input Builder)) :
    Tidy bound ends ((Rule.leaf (scope form)).evaluate grammar budget : Step input Builder) := by
  refine Rule.evaluate_tidy fun less hless s outcome s' hreply ↦ ?_
  change (scope form s s.position).run (fun n ↦ (grammar n).evaluate grammar less) =
    some (outcome, s') at hreply
  unfold scope at hreply
  split at hreply
  · rcases hmatch : (grammar (bodyOf form)).evaluate grammar less
        { s with user := s.user.openBranch form } with _ | ⟨o, s₁⟩
    all_goals simp only [Program.run, hmatch] at hreply
    · cases hreply
    · cases hreply
      obtain ⟨hheeds, hcursor⟩ := hbody less hless hmatch
      exact ⟨fun hne _ ↦ ⟨(hheeds hne trivial).cursor_le, (hheeds hne trivial).within⟩, hcursor⟩
  · cases hreply
    exact .fail

omit hbound in
/-- A collection does not end but with its closing bracket. -/
theorem collectionEnd_peek {outcome outcome' : Outcome} {s s' : State input Builder}
    (h : Evaluate.inOrder (Rule.evaluate grammar budget) [act (collectionEnd form)] outcome s =
      some (outcome', s')) (hne : outcome' ≠ .fail) : s.peek = some (closer form) := by
  obtain ⟨o, s₁, hmatch, hfail, -⟩ := Evaluate.inOrder_cons_inv h
  have ho : o ≠ .fail := fun ho ↦ hne (hfail ho).1
  obtain ⟨entered, left, hreply, hsame, -, -⟩ := act_inv hmatch
  rw [State.peek, ← hsame.cursor_eq]
  simp only [collectionEnd, State.peek] at hreply
  split at hreply
  · next b hpeek =>
    split at hreply
    · next hb => rw [hpeek, hb]
    · cases hreply
      exact absurd rfl ho
  · cases hreply
    exact absurd rfl ho

omit hbound in
/-- Behind the items of a collection there is its closing bracket. -/
theorem body_tidy {item : Symbol}
    (hitems : ∀ less < budget, Tidy bound (· = some (closer form))
      ((thenFluff (.symbol item)).repeatedOrNone.evaluate grammar less : Step input Builder)) :
    Tidy bound ends ((body form item).evaluate grammar budget : Step input Builder) := by
  have hclosed (less : Nat) (hless : less < budget) (outcome : Outcome) :
      Tidy bound ends (Evaluate.inOrder (Rule.evaluate grammar less)
        [(thenFluff (.symbol item)).repeatedOrNone, act (collectionEnd form)] outcome :
          Step input Builder) :=
    Evaluate.inOrder_cons_tidy (hitems less hless)
      (fun _ _ _ _ h hne _ ↦ collectionEnd_peek form h hne)
      (Evaluate.inOrder_singleton_tidy (act_tidy (collectionEnd_plain form) less)) outcome
  have hopened (less : Nat) : ∀ r ∈ [(Rule.byte (opener form)).lookahead, act Fluff.skip],
      Tidy bound anything (r.evaluate grammar less : Step input Builder) := by
    intro r hr
    rcases List.mem_cons.1 hr with rfl | hr
    · exact lookahead_byte_tidy (opener form) less
    · rw [List.mem_singleton.1 hr]
      exact act_tidy skip_plain less
  exact Rule.evaluate_tidy fun less hless ↦
    Evaluate.inOrder_append_tidy (hopened less) (hclosed less hless) .noMatch

end

/-! ## Members and values -/

theorem spaceMaybe_tidy (budget : Nat) :
    Tidy bound ends (Leaf.spaceMaybe.evaluate grammar budget : Step input Builder) := by
  have hbytes : ∀ r ∈ [(Rule.byte 0x20 : TextRule), .byte 0x09], IsByte r := by
    intro r hr
    simp only [List.mem_cons, List.not_mem_nil, or_false] at hr
    rcases hr with rfl | rfl
    all_goals exact .byte _
  have hcalm (less : Nat) : Calm bound anything (fromHere (Evaluate.choice
      (Rule.evaluate grammar less) (some "space") [(Rule.byte 0x20 : TextRule), .byte 0x09]) :
        Step input Builder) :=
    bytes_calm hbytes _ less
  exact Rule.evaluate_tidy fun less _ ↦ Tidy.of_anything <| Evaluate.optional_tidy
    (Evaluate.lookahead_tidy (Evaluate.repeated_tidy (bytes_tidy hbound.lt hbytes _ less)
      (hcalm less))) (Evaluate.lookahead_calm (Evaluate.repeated_calm (hcalm less)))

theorem memberName_tidy (budget : Nat) :
    Tidy bound ends (memberName.evaluate grammar budget : Step input Builder) := by
  have hparts (less : Nat) : Tidy bound anything
      ((Rule.allOf [string, Leaf.spaceMaybe, (Rule.byte 0x3D).lookahead]).evaluate grammar less :
        Step input Builder) := by
    refine allOf_tidy fun less _ r hr ↦ ?_
    simp only [List.mem_cons, List.not_mem_nil, or_false] at hr
    rcases hr with rfl | rfl | rfl
    · exact string_tidy hbound less
    · exact spaceMaybe_tidy hbound less
    · exact lookahead_byte_tidy 0x3D less
  refine Rule.evaluate_tidy fun less _ ↦ ?_
  have hname : Tidy bound ends (fromHere (Evaluate.kind grammar (Rule.evaluate grammar less)
      (some "name") (.closing (.allOf [string, Leaf.spaceMaybe, (Rule.byte 0x3D).lookahead])
        (DirectAction.toAction setName))) : Step input Builder) :=
    Evaluate.closing_tidy (hparts less) (words_plain isNumberLike).setName _
  exact hname

omit hbound in
theorem symbol_tidy (n : Symbol) {budget : Nat}
    (h : ∀ less < budget,
      Tidy bound ends ((grammar n).evaluate grammar less : Step input Builder)) :
    Tidy bound ends ((Rule.symbol n).evaluate grammar budget : Step input Builder) :=
  Rule.evaluate_tidy h

theorem member_tidy {budget : Nat}
    (hvalue : ∀ less < budget,
      Tidy bound anything (value.evaluate grammar less : Step input Builder)) :
    Tidy bound ends (member.evaluate grammar budget : Step input Builder) := by
  refine Rule.evaluate_tidy fun less hless ↦ Evaluate.inOrder_tidy (fun r hr ↦ ?_) .noMatch
  simp only [List.mem_cons, List.not_mem_nil, or_false] at hr
  rcases hr with rfl | rfl | rfl
  · exact memberName_tidy hbound less
  · exact act_tidy skip_plain less
  · exact symbol_tidy .value fun less' hless' ↦ hvalue less' (Nat.lt_trans hless' hless)

omit hbound in
/-- A member begins with no closing bracket. -/
theorem member_refusal {c : UInt8} (hc : closesNothing c = false) :
    (Rule.symbol .member : TextRule).refusal grammar c wordHeight = some .fail := by
  rcases Direct.closesNothing_cases hc with rfl | rfl | rfl
  all_goals decide

/-- The alternatives of a value, in their order. -/
def alternatives : List TextRule :=
  [scalar, malformedNumber, after string emitString, vector, .leaf (scope .array),
    .leaf (scope .node)]

omit hbound in
theorem word_refusal {c : UInt8} (hc : closesNothing c = false) :
    ∀ r ∈ [scalar, malformedNumber, after string emitString, vector],
      r.refusal grammar c wordHeight = some .fail := by
  rcases Direct.closesNothing_cases hc with rfl | rfl | rfl
  all_goals decide

omit hbound in
/-- Nor does a value. -/
theorem value_refused {c : UInt8} (hc : closesNothing c = false) (budget : Nat) :
    Bars c (value.evaluate grammar budget : Step input Builder) ∧
      ∀ bound, Calm bound (· = some c) (value.evaluate grammar budget : Step input Builder) := by
  have hopener (form : Form) : c ≠ opener form := by
    rintro rfl
    cases form with
    | array => cases hc
    | node => cases hc
  have hrefused (less : Nat) (r : TextRule) (hr : r ∈ alternatives) :
      Bars c (r.evaluate grammar less : Step input Builder) ∧
        ∀ bound, Calm bound (· = some c) (r.evaluate grammar less : Step input Builder) := by
    rcases List.mem_append.1
      (show r ∈ [scalar, malformedNumber, after string emitString, vector] ++
        [.leaf (scope .array), .leaf (scope .node)] from hr) with hr | hr
    · exact ⟨Rule.evaluate_bars_of_refusal (word_refusal hc r hr) less,
        fun _ ↦ Rule.evaluate_calm_of_refusal (word_refusal hc r hr) less⟩
    · rcases List.mem_cons.1 hr with rfl | hr
      · exact ⟨scope_bars .array (hopener .array), fun _ ↦ scope_calm .array (hopener .array)⟩
      · rw [List.mem_singleton.1 hr]
        exact ⟨scope_bars .node (hopener .node), fun _ ↦ scope_calm .node (hopener .node)⟩
  exact ⟨Rule.evaluate_bars fun less _ ↦
      Evaluate.choice_bars (fun r hr ↦ (hrefused less r hr).1) _,
    fun bound ↦ Rule.evaluate_calm fun less _ ↦
      Evaluate.choice_calm (fun r hr ↦ (hrefused less r hr).2 bound) _⟩

theorem emitString_tidy (budget : Nat) :
    Tidy bound ends ((after string emitString).evaluate grammar budget : Step input Builder) :=
  after_tidy (fun less _ ↦ string_tidy hbound less) (words_plain isNumberLike).emitString

omit hbound in
theorem vector_refusal {b : UInt8} (hb : b ≠ 0x28) :
    vector.refusal grammar b wordHeight = some .fail := by
  show Option.map _ (Option.map _ (if (0x28 : UInt8) = b then none else some Outcome.fail)) = _
  rw [if_neg hb.symm]
  rfl

omit hbound in
theorem string_refusal (form : Form) :
    (after string emitString).refusal grammar (opener form) wordHeight = some .fail := by
  cases form <;> decide

theorem scalar_wordlike (budget : Nat) :
    Wordlike bound (scalar.evaluate grammar budget : Step input Builder) :=
  word_wordlike hbound (words_plain _).scalar (tokens_fit _ (by simp)) budget

theorem malformedNumber_wordlike (budget : Nat) :
    Wordlike bound (malformedNumber.evaluate grammar budget : Step input Builder) :=
  word_wordlike hbound (words_plain _).malformedNumber (tokens_fit _ (by simp)) budget

/-- Of any two alternatives of a value the first one is calm, or the second one fails: words are
calm, and the others have their first bytes. -/
theorem alternatives_pairwise (budget : Nat) (b : UInt8) :
    alternatives.Pairwise fun r r' ↦
      Calm bound (· = some b) (r.evaluate grammar budget : Step input Builder) ∨
        Bars b (r'.evaluate grammar budget : Step input Builder) := by
  have hscope (form : Form) {r : TextRule}
      (hr : Calm bound (· = some (opener form)) (r.evaluate grammar budget : Step input Builder)) :
      Calm bound (· = some b) (r.evaluate grammar budget : Step input Builder) ∨
        Bars b ((Rule.leaf (scope form)).evaluate grammar budget : Step input Builder) :=
    Evaluate.calm_or_bars (opener form) hr (fun b hb ↦ scope_bars form hb) b
  have hstring (form : Form) : Calm bound (· = some (opener form))
      ((after string emitString).evaluate grammar budget : Step input Builder) :=
    Rule.evaluate_calm_of_refusal (string_refusal form) budget
  have hvector (form : Form) : Calm bound (· = some (opener form))
      (vector.evaluate grammar budget : Step input Builder) :=
    Rule.evaluate_calm_of_refusal (vector_refusal (by cases form <;> decide)) budget
  have hparen : (after string emitString).refusal grammar 0x28 wordHeight = some .fail := by
    decide
  refine .cons (fun r _ ↦ .inl (scalar_wordlike hbound budget).calm) <|
    .cons (fun r _ ↦ .inl (malformedNumber_wordlike hbound budget).calm) <|
    .cons (fun r hr ↦ ?_) <| .cons (fun r hr ↦ ?_) <| .cons (fun r hr ↦ ?_)
      (List.pairwise_singleton _ _)
  · simp only [List.mem_cons, List.not_mem_nil, or_false] at hr
    rcases hr with rfl | rfl | rfl
    · exact Evaluate.calm_or_bars 0x28 (Rule.evaluate_calm_of_refusal hparen budget)
        (fun b hb ↦ Rule.evaluate_bars_of_refusal (vector_refusal hb) budget) b
    · exact hscope .array (hstring .array)
    · exact hscope .node (hstring .node)
  · rcases List.mem_cons.1 hr with rfl | hr
    · exact hscope .array (hvector .array)
    · rw [List.mem_singleton.1 hr]
      exact hscope .node (hvector .node)
  · rw [List.mem_singleton.1 hr]
    exact hscope .node (scope_calm .array (by decide))

/-- **Values are tidy**, by induction on the budget. -/
theorem value_tidy (budget : Nat) :
    Tidy bound ends (value.evaluate grammar budget : Step input Builder) := by
  induction budget using Nat.strongRecOn generalizing ends with
  | ind budget ih =>
    refine Rule.evaluate_tidy fun less hless ↦ Evaluate.choice_tidy hbound.lt (fun r hr ↦ ?_)
      (alternatives_pairwise hbound less) _
    simp only [alternatives, List.mem_cons, List.not_mem_nil, or_false] at hr
    rcases hr with rfl | rfl | rfl | rfl | rfl | rfl
    · exact (scalar_wordlike hbound less).tidy
    · exact (malformedNumber_wordlike hbound less).tidy
    · exact emitString_tidy hbound less
    · exact vector_tidy hbound less
    · refine scope_tidy .array fun less₁ h₁ ↦ body_tidy .array fun less₂ h₂ ↦ ?_
      exact items_tidy (fun less₃ h₃ ↦ symbol_tidy .value fun less₄ h₄ ↦ ih less₄ (by omega))
        (fun less₃ _ ↦ Rule.evaluate_bars fun less₄ _ ↦ (value_refused rfl less₄).1)
        fun less₃ _ ↦ Rule.evaluate_calm fun less₄ _ ↦ (value_refused rfl less₄).2 bound
    · refine scope_tidy .node fun less₁ h₁ ↦ body_tidy .node fun less₂ h₂ ↦ ?_
      exact items_tidy (fun less₃ h₃ ↦ symbol_tidy .member fun less₄ h₄ ↦
          member_tidy hbound fun less₅ h₅ ↦ ih less₅ (by omega))
        (fun less₃ _ ↦ Rule.evaluate_bars_of_refusal (member_refusal rfl) less₃)
        fun less₃ _ ↦ Rule.evaluate_calm_of_refusal (member_refusal rfl) less₃

/-- **Members end before a closing bracket** and leave no failure behind it. -/
theorem members_tidy {c : UInt8} (hc : closesNothing c = false) (budget : Nat) :
    Tidy bound (· = some c)
      ((thenFluff (.symbol .member)).repeatedOrNone.evaluate grammar budget : Step input Builder) :=
  items_tidy
    (fun _ _ ↦ symbol_tidy .member fun _ _ ↦ member_tidy hbound fun less _ ↦ value_tidy hbound less)
    (fun less _ ↦ Rule.evaluate_bars_of_refusal (member_refusal hc) less)
    fun less _ ↦ Rule.evaluate_calm_of_refusal (member_refusal hc) less

end

end TextGrammar
end DocGrammar
