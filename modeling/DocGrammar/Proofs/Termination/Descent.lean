import DocGrammar.Doc.Grammar
import DocGrammar.Proofs.Termination.Steady

/-!
# The recursion of the grammar of documents

A member contains a value, and a value may contain members and values.  It does so in one place
only, behind a byte that it consumes itself: behind its name and the equals sign, or behind the
bracket that opens a collection.  So every level of the recursion has fewer bytes left than the one
around it, and the rules come to an end by induction on the bytes that are left.

What the rules keep besides is a parameter, as for finite rules.  But a recursive rule may keep more
on the inside than one can tell of it from the outside, so there are two relations:
`Descends` says how one leads to the other.
-/

set_option autoImplicit false

namespace DocGrammar

variable {N U : Type} {input : Array UInt8}

/-! ## Moving on or failing -/

/-- A piece of evaluation that consumes something if it succeeds, and is never left out. -/
def Moves (step : Step input U) : Prop :=
  ∀ ⦃s : State input U⦄ ⦃outcome s'⦄, step s = some (outcome, s') →
    outcome ≠ .noMatch ∧ (outcome = .ok → s.cursor < s'.cursor)

namespace Moves

theorem inOrder {inert : String → Bool} {fits : UInt8 → Bool}
    {R : State input U → State input U → Prop} (hR : Steady inert fits R)
    {eval : Rule N U → Step input U} {before : List (Rule N U)} {last : Rule N U}
    (hbefore : ∀ r ∈ before, ∀ n, Sure R n (eval r)) (hlast : Moves (eval last))
    (outcome : Outcome) : Moves (Evaluate.inOrder eval (before ++ [last]) outcome) := by
  intro s o t h
  induction before generalizing outcome s with
  | nil =>
    rcases hmatch : eval last s with _ | ⟨o₁, s₁⟩
    all_goals simp only [List.nil_append, Evaluate.inOrder, hmatch] at h
    · cases h
    · obtain ⟨hmatched, hcursor⟩ := hlast hmatch
      rcases o₁ with _ | _ | _
      · cases h
        exact ⟨by decide, hcursor⟩
      · cases h
        exact ⟨by decide, fun h ↦ by cases h⟩
      · exact absurd rfl hmatched
  | cons r rest ih =>
    obtain ⟨o₁, s₁, hmatch, h₁⟩ := hbefore r List.mem_cons_self _ s (Nat.le_refl _)
    have hcursor := hR.cursor_le h₁
    have hrest (outcome : Outcome) (h : Evaluate.inOrder eval (rest ++ [last]) outcome s₁ =
        some (o, t)) : o ≠ .noMatch ∧ (o = .ok → s.cursor < t.cursor) := by
      obtain ⟨hmatched, hlt⟩ := ih (fun r hr ↦ hbefore r (List.mem_cons_of_mem _ hr)) outcome h
      exact ⟨hmatched, fun ho ↦ Nat.lt_of_le_of_lt hcursor (hlt ho)⟩
    simp only [List.cons_append, Evaluate.inOrder, hmatch] at h
    rcases o₁ with _ | _ | _
    · exact hrest .ok h
    · cases h
      exact ⟨by decide, fun h ↦ by cases h⟩
    · exact hrest outcome h

theorem closing {g : Grammar N U} {eval : Rule N U → Step input U} {inner : Rule N U}
    {action : Action N U} {fits : UInt8 → Bool} (hinner : Moves (eval inner))
    (haction : PlainAction fits @action) (name : Option String) (start : Position) :
    Moves (Evaluate.kind g eval name (.closing inner action) start) := by
  intro s outcome s' h
  rcases hmatch : eval inner s with _ | ⟨o, s₁⟩
  · simp only [Evaluate.kind, hmatch] at h
    cases h
  obtain ⟨hmatched, hcursor⟩ := hinner hmatch
  rcases o with _ | _ | _
  all_goals simp only [Evaluate.kind, hmatch] at h
  · have hlt := hcursor rfl
    split at h
    · obtain ⟨reply, hreply, s₂, hforward, rfl | ⟨reason, rfl⟩⟩ := haction s₁ start
      · rw [hreply] at h
        cases h
        exact ⟨by decide, fun _ ↦ Nat.lt_of_lt_of_le hlt hforward.cursor_le⟩
      · rw [hreply] at h
        cases h
        exact ⟨by decide, fun h ↦ by cases h⟩
    · cases h
      exact ⟨by decide, fun _ ↦ hlt⟩
  · cases h
    exact ⟨by decide, fun h ↦ by cases h⟩
  · exact absurd rfl hmatched

theorem byte {g : Grammar N U} {eval : Rule N U → Step input U} (name : Option String) (b : UInt8)
    (start : Position) : Moves (Evaluate.kind g eval name (.byte b) start) := by
  intro s outcome s' h
  rcases hpeek : s.peek with _ | c
  · simp only [Evaluate.kind, Evaluate.oneByte, hpeek] at h
    cases h
    exact ⟨by decide, fun h ↦ by cases h⟩
  · have hlt : s.cursor < input.size := (Array.getElem?_eq_some_iff.1 hpeek).1
    simp only [Evaluate.kind, Evaluate.oneByte, hpeek] at h
    split at h
    · cases h
      refine ⟨by decide, fun _ ↦ ?_⟩
      rw [State.push_cursor]
      exact Nat.lt_min.2 ⟨Nat.lt_succ_self _, hlt⟩
    · cases h
      exact ⟨by decide, fun h ↦ by cases h⟩

theorem lookahead {body : Position → Step input U} {start : Position} (hbody : Moves (body start)) :
    Moves (Evaluate.lookahead body start) := by
  intro s outcome s' h
  rcases hmatch : body start s.silenceResults with _ | ⟨o, s₁⟩
  all_goals simp only [Evaluate.lookahead, hmatch] at h
  · cases h
  · cases h
    have hmoved := hbody hmatch
    exact hmoved

/-- One level of evaluation. -/
theorem step {g : Grammar N U} {eval : Rule N U → Step input U} {r : Rule N U}
    (hbody : ∀ start, Moves (Evaluate.modified r.modifiers (Evaluate.kind g eval r.name r.kind)
      start)) : Moves (r.step g eval) := by
  intro s outcome s' h
  simp only [Rule.step] at h
  split at h
  · cases h
  · next reply hreply =>
    obtain ⟨o, s₁⟩ := reply
    obtain ⟨hmatched, hcursor⟩ := hbody _ hreply
    rcases o with _ | _ | _
    · cases h
      refine ⟨by simp [Rule.settle], fun _ ↦ ?_⟩
      rw [State.noted_cursor, ← s.noted_cursor]
      exact hcursor rfl
    · cases h
      exact ⟨by simp [Rule.settle], by simp [Rule.settle]⟩
    · exact absurd rfl hmatched

end Moves

/-! ## Two relations -/

/-- The engine keeps both relations, the first one for whole rules and the second one inside rules
that are not inert. -/
structure Descends (inert : String → Bool) (R₀ R₁ : State input U → State input U → Prop) :
    Prop where
  outer : Steady inert (fun _ ↦ true) R₀
  inner : Steady inert (fun _ ↦ true) R₁
  /-- Behind a byte that has been consumed, the first relation is enough for the second. -/
  behind : ∀ {s s' s''}, R₁ s s' → s.cursor < s'.cursor → R₀ s' s'' → R₁ s s''
  /-- What is the second relation inside a rule is the first one outside. -/
  enclosed : ∀ {label}, inert label = false → ∀ {s s'},
    R₁ (s.noted fun _ ↦ .enter label s.cursor) s' → ∀ offset outcome,
      R₀ s (s'.noted fun _ ↦ .leave label offset outcome)

namespace Descends

variable {inert : String → Bool} {R₀ R₁ : State input U → State input U → Prop}
  (hR : Descends inert R₀ R₁) {n : Nat}

include hR

/-- A sequence whose first rule consumes something keeps the second relation if the others keep the
first one, and they have fewer bytes left. -/
theorem inOrder_sure {eval : Rule N U → Step input U} {head : Rule N U} {rest : List (Rule N U)}
    (hhead : Sure R₁ n (eval head)) (hmoves : Moves (eval head))
    (hrest : ∀ m < n, ∀ r ∈ rest, Sure R₀ m (eval r)) (outcome : Outcome) :
    Sure R₁ n (Evaluate.inOrder eval (head :: rest) outcome) := by
  intro s hs
  obtain ⟨o, s₁, hfirst, h₁⟩ := hhead s hs
  obtain ⟨hmatched, hcursor⟩ := hmoves hfirst
  simp only [Evaluate.inOrder, hfirst]
  rcases o with _ | _ | _
  · have hlt := hcursor rfl
    have hle := s₁.cursor_le
    obtain ⟨o', s₂, hreply, h₂⟩ := Evaluate.inOrder_sure hR.outer
      (hrest (n - 1) (by omega)) .ok s₁ (by omega)
    exact ⟨o', s₂, hreply, hR.behind h₁ hlt h₂⟩
  · exact ⟨.fail, s₁, rfl, h₁⟩
  · exact absurd rfl hmatched

/-- One level of a rule that is not inert. -/
theorem step_sure {g : Grammar N U} {eval : Rule N U → Step input U} {r : Rule N U}
    (hlabel : inert (r.label g) = false)
    (hbody : SureFrom R₁ n (Evaluate.kind g eval r.name r.kind)) : Sure R₀ n (r.step g eval) := by
  intro s hs
  obtain ⟨outcome, s', hinside, hstep⟩ := Rule.step_goes hR.inner hbody s hs
  exact ⟨_, _, hstep, hR.enclosed hlabel hinside _ _⟩

end Descends

/-! ## The rules of the grammar -/

namespace TextGrammar

/-- The labels of all rules that do not lead back to themselves. -/
def isInert (label : String) : Bool := label != "value" && label != "member"

/-- No rule for words is as high as this. -/
def wordHeight : Nat := 13

/-- The rules for words, whole: they do not lead to values. -/
def words : List TextRule :=
  [scalar, malformedNumber, after string emitString, vector, string, memberName]

theorem words_fit :
    ∀ r ∈ words, r.fitsWithin grammar isInert (fun _ ↦ true) wordHeight = true := by
  decide +kernel

section

variable {R : State input Builder → State input Builder → Prop}
  (hR : Steady isInert (fun _ ↦ true) R)

include hR

theorem finite_sure {r : TextRule} (hactions : r.Every (PlainAction fun _ ↦ true))
    (hr : r.fitsWithin grammar isInert (fun _ ↦ true) wordHeight = true) {budget : Nat}
    (hbudget : wordHeight ≤ budget) (n : Nat) : Sure R n (r.evaluate grammar budget) :=
  Rule.evaluate_sure hR hr (hactions.imp fun _ h ↦ h.steady hR) hbudget n

theorem skip_sure {budget : Nat} (hbudget : wordHeight ≤ budget) (n : Nat) :
    Sure R n ((act Fluff.skip).evaluate grammar budget) :=
  finite_sure hR (r := act Fluff.skip) actions_plain.skip (by decide) hbudget n

end

theorem byte_moves (b : UInt8) (budget : Nat) :
    Moves ((Rule.byte b).lookahead.evaluate grammar budget : Step input Builder) := by
  rcases budget with _ | budget
  · intro s outcome s' h
    cases h
  · have hbyte (start : Position) : Moves (Evaluate.kind grammar (Rule.evaluate grammar budget) none
        (.byte b) start : Step input Builder) :=
      .byte none b start
    exact .step fun start ↦ .lookahead (hbyte start)

/-- There is an equals sign behind a name, if nothing else. -/
theorem memberName_moves {R : State input Builder → State input Builder → Prop}
    (hR : Steady isInert (fun _ ↦ true) R) {budget : Nat} (hbudget : wordHeight + 2 ≤ budget) :
    Moves (memberName.evaluate grammar budget : Step input Builder) := by
  obtain ⟨budget, rfl⟩ : ∃ b, budget = b + 2 := ⟨budget - 2, by omega⟩
  have hparts : Moves ((Rule.allOf [string, Leaf.spaceMaybe, (Rule.byte 0x3D).lookahead]).evaluate
      grammar (budget + 1) : Step input Builder) := by
    have hbefore : ∀ r ∈ [string, Leaf.spaceMaybe], ∀ n,
        Sure R n (r.evaluate grammar budget) := by
      intro r hr n
      rcases List.mem_cons.1 hr with rfl | hr
      · exact finite_sure hR actions_plain.string (words_fit _ (by simp [words])) (by omega) n
      · rw [List.mem_singleton.1 hr]
        exact finite_sure hR (r := Leaf.spaceMaybe) ⟨trivial, trivial, trivial⟩ (by decide)
          (by omega) n
    exact .step fun start ↦ .inOrder hR hbefore (byte_moves 0x3D budget) .noMatch
  exact .step fun start ↦ .closing hparts actions_plain.setName (some "name") start

section

variable {R₀ R₁ : State input Builder → State input Builder → Prop} (hR : Descends isInert R₀ R₁)

include hR

/-- The rule for an item and the fluff behind it, repeated. -/
theorem items_sure {item : Symbol} {n budget : Nat} (hbudget : wordHeight ≤ budget)
    (hitem : Sure R₀ n ((grammar item).evaluate grammar budget)) :
    Sure R₀ n ((thenFluff (.symbol item)).repeatedOrNone.evaluate grammar (budget + 2)) := by
  have hsymbol : Sure R₀ n ((Rule.symbol item).evaluate grammar (budget + 1)) :=
    Rule.step_sure hR.outer (by cases item <;> decide) fun _ s _ hs ↦ hitem s hs
  refine Rule.step_sure hR.outer (by cases item <;> decide) fun start s hstart hs ↦ ?_
  refine Evaluate.inOrder_sure hR.outer (fun r hr ↦ ?_) .noMatch s hs
  rcases List.mem_cons.1 hr with rfl | hr
  · exact hsymbol
  · rw [List.mem_singleton.1 hr]
    exact skip_sure hR.outer (Nat.le_succ_of_le hbudget) n

/-- The body of a collection. -/
theorem body_sure (form : Form) (item : Symbol) {n budget : Nat} (hbudget : wordHeight ≤ budget)
    (hitem : ∀ m < n, Sure R₀ m ((grammar item).evaluate grammar budget)) :
    Sure R₁ n ((body form item).evaluate grammar (budget + 3)) := by
  have hopener : Sure R₁ n ((Rule.byte (opener form)).lookahead.evaluate grammar (budget + 2)) :=
    finite_sure hR.inner (r := (Rule.byte (opener form)).lookahead) trivial
      (by cases form <;> decide) (by omega) n
  refine Rule.step_sure hR.inner (by cases form <;> cases item <;> decide)
    fun start s _ hs ↦ ?_
  refine hR.inOrder_sure hopener (byte_moves _ _) (fun m hm r hr ↦ ?_) .noMatch s hs
  simp only [List.mem_cons, List.not_mem_nil, or_false] at hr
  rcases hr with rfl | rfl | rfl
  · exact skip_sure hR.outer (by omega) m
  · exact items_sure hR hbudget (hitem m hm)
  · exact finite_sure hR.outer (r := act (collectionEnd form)) (actions_plain.collectionEnd form)
      (by cases form <;> decide) (by omega) m

/-- A name and the value behind it. -/
theorem member_sure {n budget : Nat} (hbudget : wordHeight + 1 ≤ budget)
    (hvalue : ∀ m < n, Sure R₀ m (value.evaluate grammar budget)) :
    Sure R₀ n (member.evaluate grammar (budget + 2)) := by
  refine hR.step_sure (by decide) fun start s _ hs ↦ ?_
  have hname : Sure R₁ n (memberName.evaluate grammar (budget + 1)) :=
    finite_sure hR.inner actions_plain.memberName (words_fit _ (by simp [words])) (by omega) n
  refine hR.inOrder_sure hname (memberName_moves hR.inner (by omega)) (fun m hm r hr ↦ ?_) .noMatch
    s hs
  simp only [List.mem_cons, List.not_mem_nil, or_false] at hr
  rcases hr with rfl | rfl
  · exact skip_sure hR.outer (by omega) m
  · exact Rule.step_sure hR.outer (by decide) fun _ s _ hs ↦ hvalue m hm s hs

/-- The action that has the body of a collection matched. -/
theorem scope_sure (form : Form) {n budget : Nat}
    (hbody : Sure R₁ n ((grammar (bodyOf form)).evaluate grammar budget)) :
    Sure R₁ n ((Rule.leaf (scope form)).evaluate grammar (budget + 1)) := by
  refine Rule.step_sure hR.inner (by cases form <;> decide) fun start s _ hs ↦ ?_
  show Goes R₁ s ((scope form s start).run fun n ↦ (grammar n).evaluate grammar budget)
  unfold scope
  split
  · have hopened : s.Quiet { s with user := s.user.openBranch form } :=
      ⟨rfl, rfl, rfl, rfl, rfl, rfl⟩
    obtain ⟨outcome, s₁, hreply, h₁⟩ := hbody { s with user := s.user.openBranch form } hs
    have hclosed (change : Builder → Builder) : s₁.Quiet { s₁ with user := change s₁.user } :=
      ⟨rfl, rfl, rfl, rfl, rfl, rfl⟩
    simp only [Program.run, hreply]
    exact ⟨_, _, rfl, hR.inner.trans (hR.inner.still hopened rfl)
      (hR.inner.trans h₁ (hR.inner.still (hclosed _) rfl))⟩
  · exact hR.inner.fail_reply s _

/-- **Values come to an end**, by induction on the bytes that are left. -/
theorem value_sure (n : Nat) {budget : Nat} (hbudget : 7 * n + wordHeight + 5 ≤ budget) :
    Sure R₀ n (value.evaluate grammar budget) := by
  induction n using Nat.strongRecOn generalizing budget with
  | ind n ih =>
    obtain ⟨budget, rfl⟩ : ∃ b, budget = b + 5 := ⟨budget - 5, by omega⟩
    have harray : Sure R₁ n ((Rule.leaf (scope .array)).evaluate grammar (budget + 4)) :=
      scope_sure hR .array (body_sure hR .array .value (by omega)
        fun m hm ↦ ih m hm (by omega))
    have hnode : Sure R₁ n ((Rule.leaf (scope .node)).evaluate grammar (budget + 4)) := by
      refine scope_sure hR .node (body_sure hR .node .member (by omega) fun m hm ↦ ?_)
      obtain ⟨budget, rfl⟩ : ∃ b, budget = b + 2 := ⟨budget - 2, by omega⟩
      exact member_sure hR (by omega) fun k hk ↦ ih k (Nat.lt_trans hk hm) (by omega)
    refine hR.step_sure (by decide) (Evaluate.choice_sure hR.inner (fun r hr ↦ ?_) _)
    simp only [List.mem_cons, List.not_mem_nil, or_false] at hr
    have hwords {r : TextRule} (hactions : r.Every (PlainAction fun _ ↦ true)) (hr : r ∈ words) :
        Sure R₁ n (r.evaluate grammar (budget + 4)) :=
      finite_sure hR.inner hactions (words_fit r hr) (by omega) n
    rcases hr with rfl | rfl | rfl | rfl | rfl | rfl
    · exact hwords actions_plain.scalar (by simp [words])
    · exact hwords actions_plain.malformedNumber (by simp [words])
    · exact hwords ⟨actions_plain.string, actions_plain.emitString⟩ (by simp [words])
    · exact hwords actions_plain.vector (by simp [words])
    · exact harray
    · exact hnode

/-- **Documents come to an end** in a budget linear in the bytes that are left. -/
theorem document_sure (n : Nat) {budget : Nat} (hbudget : 7 * n + wordHeight + 6 ≤ budget) :
    Sure R₀ n (document.evaluate grammar budget) := by
  obtain ⟨budget, rfl⟩ : ∃ b, budget = b + 5 := ⟨budget - 5, by omega⟩
  refine Rule.step_sure hR.outer (by decide) fun start s _ hs ↦ ?_
  refine Evaluate.inOrder_sure hR.outer (fun r hr ↦ ?_) .noMatch s hs
  simp only [List.mem_cons, List.not_mem_nil, or_false] at hr
  rcases hr with rfl | rfl | rfl
  · exact skip_sure hR.outer (by omega) n
  · exact items_sure hR (by omega) (member_sure hR (by omega)
      fun m hm ↦ value_sure hR m (by omega))
  · exact finite_sure hR.outer (r := act documentEnd) actions_plain.documentEnd
      (by decide) (by omega) n

end

end TextGrammar
end DocGrammar
