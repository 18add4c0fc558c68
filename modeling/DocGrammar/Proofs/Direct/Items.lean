import DocGrammar.Proofs.Children.Collections
import DocGrammar.Proofs.Direct.Scalars

/-!
# Items of a collection

A collection is read by repeating the rule for an item and the fluff behind it.  The repetition ends
where the item does not match, and then the closing bracket has to be there.  So two things have to
be known of an item: it does not begin with the closing bracket, and there it fails without touching
the builder.  Where an item fails elsewhere, or the fluff behind it does, the builder may be
left with a part of the item; but then the closing bracket is not there either, and the whole
collection fails.
-/

set_option autoImplicit false

namespace DocGrammar
namespace Direct

open TextGrammar (TextRule grammar)

variable {input : Array UInt8}

/-! ## Adding to the builder -/

/-- Adds a finished child to the innermost open collection. -/
def add (d : Doc) (b : Builder) : Builder := { b with current := b.current.push d }

/-- Adds children one by one. -/
def addAll (docs : List Doc) (b : Builder) : Builder := docs.foldl (fun b d ↦ add d b) b

/-- No name and no string is waiting to be used. -/
structure Idle (b : Builder) : Prop where
  pending_eq : b.pending = none
  scratch_eq : b.scratch = ""

theorem Idle.add {b : Builder} (h : Idle b) (d : Doc) : Idle (Direct.add d b) :=
  ⟨h.pending_eq, h.scratch_eq⟩

theorem addAll_current (docs : List Doc) (b : Builder) :
    addAll docs b =
      { b with current := { b.current with
        children := docs.foldl Collection.push b.current.children } } := by
  induction docs generalizing b with
  | nil => rfl
  | cons d docs ih =>
    rw [addAll, List.foldl_cons, ← addAll, ih]
    rfl

/-! ## Repeating an item -/

/-- What has become of a state when items were read up to a closing byte, or no further than that
would have been. -/
def Gathered (s : State input Builder) (closer : Option UInt8)
    (found : Option (List Doc × List UInt8)) (s' : State input Builder) : Prop :=
  match found with
  | some (docs, left) => ∃ token rest, s.Took token rest [] (addAll docs s.user) s' ∧
      rest.head? = closer ∧ rest.drop 1 = left
  | none => s.Extends s' ∧ s'.rest.head? ≠ closer

namespace Gathered

variable {s s₁ s' : State input Builder} {closer : Option UInt8}
  {found : Option (List Doc × List UInt8)}

theorem unsilenceErrors (h : Gathered s.silenceErrors closer found s') :
    Gathered s closer found s'.unsilenceErrors := by
  cases found with
  | none => exact ⟨h.1.unsilenceErrors, h.2⟩
  | some found =>
    obtain ⟨token, rest, ht, hrest⟩ := h
    exact ⟨token, rest, ht.unsilenceErrors, hrest⟩

theorem of_same (hs : s.Same s₁) (h : Gathered s₁ closer found s') :
    Gathered s closer found s' := by
  cases found with
  | none => exact ⟨hs.beyond.toExtends.trans h.1, h.2⟩
  | some found =>
    obtain ⟨token, rest, ht, hrest⟩ := h
    exact ⟨token, rest, hs.trans_took (hs.user_eq ▸ ht), hrest⟩

theorem trans_same (h : Gathered s closer found s₁) (hs : s₁.Same s') :
    Gathered s closer found s' := by
  cases found with
  | none => exact ⟨h.1.trans hs.beyond.toExtends, hs.rest_eq ▸ h.2⟩
  | some found =>
    obtain ⟨token, rest, ht, hrest⟩ := h
    exact ⟨token, rest, ht.trans_same hs, hrest⟩

/-- What is gathered behind an item. -/
theorem after {d : Doc} {token rest : List UInt8} (ht : s.Took token rest [] (add d s.user) s₁)
    (h : Gathered s₁ closer found s') :
    Gathered s closer (found.map fun (docs, left) ↦ (d :: docs, left)) s' := by
  cases found with
  | none => exact ⟨ht.extends.trans h.1, h.2⟩
  | some found =>
    obtain ⟨token', rest', ht', hrest'⟩ := h
    rw [ht.user_eq] at ht'
    exact ⟨token ++ token', rest', ht.trans ht', hrest'⟩

/-- Nothing is gathered before the closing byte, -/
theorem of_closer (hs : s.Same s') (hhead : s.rest.head? = closer) :
    Gathered s closer (some ([], s.rest.drop 1)) s' :=
  ⟨[], s.rest, (State.Took.refl s).trans_same hs, hhead, rfl⟩

/-- nor where there is something else that is no item. -/
theorem of_undone (hs : s.Undone s') (hhead : s.rest.head? ≠ closer) : Gathered s closer none s' :=
  ⟨hs.extends, by rwa [State.rest_eq_of_cursor_eq hs.cursor_eq]⟩

end Gathered

section

variable {read : List UInt8 → Option (Doc × List UInt8)} {closer : Option UInt8} {n : Nat}
  {body : Position → Step input Builder}

/-- One round.  Either nothing more is gathered and the round goes back, or an item is, and what is
gathered behind it is what the direct reader reads there. -/
theorem round_gathered (hread : Shortens read)
    (hcloser : ∀ bytes, bytes.head? = closer → read bytes = none)
    (hbody : BuildsFrom body (withFluff read) add (fun b bytes ↦ Idle b ∧ bytes.length ≤ n)
      (·.head? = closer)) (rounds : Nat) (s : State input Builder) (hs : s.resultsSilenced = 0)
    (hidle : Idle s.user) (hn : s.rest.length ≤ n) :
    ∃ outcome s₁, body s.position s = some (outcome, s₁) ∧
      (outcome = .fail ∧ s.Undone (s₁.restore s.position) ∧
          Gathered s closer (items read closer (rounds + 1) s.rest) (s₁.restore s.position) ∨
        outcome = .ok ∧ ∃ d token rest, s.Took token rest [] (add d s.user) s₁ ∧
          rest.length < s.rest.length ∧
          items read closer (rounds + 1) s.rest =
            (items read closer rounds rest).map fun (docs, left) ↦ (d :: docs, left)) := by
  obtain ⟨⟨outcome, s₁⟩, hreply, hbuilt⟩ := hbody s hs ⟨hidle, hn⟩
  refine ⟨outcome, s₁, hreply, ?_⟩
  rw [items]
  by_cases hhead : s.rest.head? = closer
  · rw [withFluff, hcloser _ hhead, Option.bind_none] at hbuilt
    cases hbuilt with
    | fail hlost =>
      have hback := hlost.dropped_restore
      rw [if_pos hhead]
      exact .inl ⟨rfl, hback.toUndone, .of_closer (hback.same hhead) hhead⟩
  · rw [if_neg hhead]
    cases hfound : withFluff read s.rest with
    | none =>
      rw [hfound] at hbuilt
      cases hbuilt with
      | fail hlost =>
        have hback := hlost.dropped_restore.toUndone
        exact .inl ⟨rfl, hback, .of_undone hback hhead⟩
    | some found =>
      obtain ⟨d, rest⟩ := found
      rw [hfound] at hbuilt
      cases hbuilt with
      | ok ht => exact .inr ⟨rfl, d, _, rest, ht, withFluff_shortens hread hfound, rfl⟩

theorem again_gathered (hread : Shortens read)
    (hcloser : ∀ bytes, bytes.head? = closer → read bytes = none)
    (hbody : BuildsFrom body (withFluff read) add (fun b bytes ↦ Idle b ∧ bytes.length ≤ n)
      (·.head? = closer)) :
    ∀ (rounds : Nat) (s : State input Builder), s.resultsSilenced = 0 → Idle s.user →
      s.rest.length ≤ n → s.rest.length < rounds →
        ∃ s', Evaluate.again body rounds s = some s' ∧
          Gathered s closer (items read closer rounds s.rest) s'
  | 0, _, _, _, _, h => absurd h (Nat.not_lt_zero _)
  | rounds + 1, s, hs, hidle, hn, h => by
    obtain ⟨outcome, s₁, hreply, ⟨rfl, -, hgathered⟩ | ⟨rfl, d, token, rest, ht, hshort, heq⟩⟩ :=
      round_gathered hread hcloser hbody rounds s hs hidle hn
    · rw [Evaluate.again, hreply]
      exact ⟨_, rfl, hgathered⟩
    · have hcursor : s.cursor < s₁.cursor := by
        have hlength := congrArg List.length ht.input_eq
        rw [List.length_append] at hlength
        have := ht.cursor_eq
        omega
      obtain ⟨s', hagain, hgathered⟩ := again_gathered hread hcloser hbody rounds s₁
        (ht.resultsSilenced_eq.trans hs) (ht.user_eq ▸ hidle.add _) (by rw [ht.rest_eq]; omega)
        (by rw [ht.rest_eq]; omega)
      rw [ht.rest_eq] at hgathered
      rw [Evaluate.again, hreply, heq]
      dsimp only
      rw [if_pos hcursor]
      exact ⟨s', hagain, hgathered.after ht⟩

/-- The same for a repetition that may match nothing: it fails in no case. -/
theorem optional_gathered (hread : Shortens read)
    (hcloser : ∀ bytes, bytes.head? = closer → read bytes = none)
    (hbody : BuildsFrom body (withFluff read) add (fun b bytes ↦ Idle b ∧ bytes.length ≤ n)
      (·.head? = closer)) (s : State input Builder) (hs : s.resultsSilenced = 0)
    (hidle : Idle s.user) (hn : s.rest.length ≤ n) :
    ∃ outcome s', Evaluate.optional (Evaluate.repeated body) s.position s = some (outcome, s') ∧
      (outcome = .ok ∨ outcome = .noMatch ∧ s.Undone s') ∧
      Gathered s closer (items read closer (s.rest.length + 1) s.rest) s' := by
  obtain ⟨outcome, s₁, hreply, hround⟩ := round_gathered hread hcloser hbody s.rest.length
    s.silenceErrors hs hidle hn
  change body s.position s.silenceErrors = _ at hreply
  rw [Evaluate.optional, Evaluate.repeated, hreply]
  rcases hround with ⟨rfl, hback, hgathered⟩ | ⟨rfl, d, token, rest, ht, hshort, heq⟩
  · have hundone : s.Undone (s₁.unsilenceErrors.restore s.position) :=
      ⟨hback.cursor_eq, hback.results_eq, congrArg (· - 1) hback.errorsSilenced_eq,
        hback.resultsSilenced_eq⟩
    exact ⟨_, _, rfl, .inr ⟨rfl, hundone⟩, hgathered.unsilenceErrors⟩
  · have hrest : s₁.silenceErrors.rest = rest := ht.rest_eq
    have hlength : rest.length = input.size - s₁.cursor := ht.rest_eq ▸ s₁.length_rest
    change rest.length < s.rest.length at hshort
    change items read closer (s.rest.length + 1) s.rest = _ at heq
    have hcursor := s₁.cursor_le
    obtain ⟨s', hagain, hgathered⟩ := again_gathered hread hcloser hbody
      (input.size + 1 - s₁.cursor) s₁.silenceErrors (ht.resultsSilenced_eq.trans hs)
      (ht.user_eq ▸ hidle.add _) (by rw [hrest]; omega) (by rw [hrest, hlength]; omega)
    rw [hrest, items_eq_of_lt hread closer (by omega) hshort] at hgathered
    simp only [hagain]
    rw [heq]
    exact ⟨_, _, rfl, .inl rfl, (hgathered.unsilenceErrors.after ht).unsilenceErrors⟩

end

/-! ## As a rule -/

theorem fluffScanner_skips : Scanner.Skips fluffScanner fluff := by
  intro bytes
  rw [fluffScanner]
  cases hfluff : fluff bytes with
  | none => rfl
  | some rest => exact ⟨rfl, rfl⟩

/-- Fluff leaves the builder alone. -/
theorem skip_builds : (TextGrammar.act Fluff.skip).Builds 1 (fun bytes ↦ (fluff bytes).map ((), ·))
    (fun _ b ↦ b) (fun _ _ ↦ True) fun _ ↦ True :=
  .of_skips skip_reads fluffScanner_skips

theorem skip_length_le {bytes rest : List UInt8} {x : Unit}
    (h : (fluff bytes).map ((), ·) = some (x, rest)) : rest.length ≤ bytes.length := by
  obtain ⟨left, hfluff, heq⟩ := Option.map_eq_some_iff.1 h
  cases heq
  exact fluff_length_le hfluff

/-- A rule and the fluff behind it. -/
theorem thenFluff_buildsFrom {α : Type} {r : TextRule} {depth : Nat} {name : Option String}
    {read : List UInt8 → Option (α × List UInt8)} {change : α → Builder → Builder}
    {ready : Builder → List UInt8 → Prop} {clean : List UInt8 → Prop}
    (h : r.Builds depth read change ready clean) (hclean : ∀ bytes, clean bytes → read bytes = none)
    {budget : Nat} (hbudget : depth ≤ budget) (hpos : 1 ≤ budget) :
    BuildsFrom (Evaluate.kind grammar (Rule.evaluate grammar budget) name
      (.allOf [r, TextGrammar.act Fluff.skip]) : Position → Step input Builder) (withFluff read)
      change ready clean := by
  have hboth : SequenceBuilds .noMatch budget [r, TextGrammar.act Fluff.skip] _ change ready _ :=
    .cons (fun x _ ↦ x) (h.mono hbudget) (.single (skip_builds.mono hpos))
      (fun _ _ _ _ _ _ ↦ trivial) fun _ _ _ _ _ ↦ rfl
  refine (hboth.imp (fun _ bytes _ ↦ ?_) fun bytes hc ↦ ⟨hc, hclean bytes hc⟩).buildsFrom
    (Nat.le_refl _) name
  rw [withFluff]
  cases read bytes with
  | none => rfl
  | some found => exact Option.map_map _ _ _

/-- **Items of a collection.**  The rule that repeats an item gathers what the direct reader reads,
up to the closing byte. -/
theorem items_gathered {item : Symbol} {depth n : Nat}
    {read : List UInt8 → Option (Doc × List UInt8)} {closer : Option UInt8}
    (hread : Shortens read) (hcloser : ∀ bytes, bytes.head? = closer → read bytes = none)
    (hitem : (Rule.symbol item).Builds depth read add (fun b bytes ↦ Idle b ∧ bytes.length ≤ n)
      (·.head? = closer))
    (input : Array UInt8) {budget : Nat} (hbudget : depth + 1 ≤ budget) (hpos : 2 ≤ budget)
    (s : State input Builder) (hs : s.resultsSilenced = 0) (hidle : Idle s.user)
    (hn : s.rest.length ≤ n) :
    ∃ outcome s', (TextGrammar.thenFluff (.symbol item)).repeatedOrNone.evaluate grammar budget s =
        some (outcome, s') ∧ outcome ≠ .fail ∧
      Gathered s closer (items read closer (s.rest.length + 1) s.rest) s' := by
  obtain ⟨budget, rfl⟩ : ∃ b, budget = b + 1 := ⟨budget - 1, by omega⟩
  obtain ⟨entered, hentered, hstep⟩ := Rule.step_eq grammar (Rule.evaluate grammar budget)
    (TextGrammar.thenFluff (.symbol item)).repeatedOrNone s
  obtain ⟨outcome, left, hreply, houtcome, hgathered⟩ := optional_gathered hread hcloser
    (thenFluff_buildsFrom hitem hcloser (show depth ≤ budget by omega) (show 1 ≤ budget by omega))
    entered
    (hentered.resultsSilenced_eq.trans hs) (hentered.user_eq ▸ hidle) (by rwa [hentered.rest_eq])
  obtain ⟨s', hreply', hsame⟩ := hstep _ hreply
  rw [hentered.rest_eq] at hgathered
  refine ⟨_, s', hreply', ?_, ?_⟩
  · rcases houtcome with rfl | ⟨rfl, -⟩ <;> nofun
  · rcases houtcome with rfl | ⟨rfl, hundone⟩
    · exact (hgathered.of_same hentered).trans_same hsame
    · have hback := Evaluate.restore_same (State.Same.refl left)
      rw [hundone.position_eq] at hback
      exact (hgathered.of_same hentered).trans_same (hback.trans hsame)

end Direct

namespace Doc

/-! ## Children taken in one by one -/

theorem push_items (c : Collection Doc) (d : Doc) : (c.push d).items = c.items ++ [d] := by
  rw [Collection.push, Collection.append_items, Collection.ensureSpace_items]

theorem foldl_push_items (docs : List Doc) (c : Collection Doc) :
    (docs.foldl Collection.push c).items = c.items ++ docs := by
  induction docs generalizing c with
  | nil => exact (List.append_nil c.items).symm
  | cons d docs ih =>
    rw [List.foldl_cons, ih, push_items, List.append_assoc, List.singleton_append]

theorem gather_items (docs : List Doc) : (Direct.gather docs).items = docs :=
  foldl_push_items docs {}

end Doc
end DocGrammar
