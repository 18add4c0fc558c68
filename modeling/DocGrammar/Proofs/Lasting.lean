import DocGrammar.Grammar.Evaluate
import DocGrammar.Proofs.Actions

/-!
# What lasts through a run

Many things that hold of the engine are about one run, and compare the state before it with the
state after: the results that were there are still there, the cursor has not gone back.  The engine
does few things to a state, and does them in a few ways; so a relation between states that survives
each of them survives the whole, and none of them has to be looked at again for the next relation.

`Lasting` says what is asked of the relation, one field for each thing that the engine does.  Some
relations survive only as long as a rule does not go too far: `Guarded` asks less of them, and its
two parameters say of which rules the conclusion is drawn, namely which labels may be written down
and which bytes consumed.

`Leads` is the conclusion for a piece of evaluation that comes to a reply.  There is one lemma for
each combinator of the evaluator; the last ones, `Rule.step_guarded` and `Rule.step_lasts`, are
about one level of evaluation.  What an action has to do for it is left to whoever uses these
lemmas: it is run in a state that has been led to from the position it is given.
-/

set_option autoImplicit false

namespace DocGrammar

variable {N U : Type} {input : Array UInt8}

/-! ## Bytes that fit -/

/-- The bytes that a kind of rule consumes itself all fit. -/
def Kind.fits (fits : UInt8 → Bool) : Kind N U (Rule N U) → Bool
  | .byte b => fits b
  | .range low high =>
    (List.range 256).all fun n ↦
      !(low ≤ UInt8.ofNat n && UInt8.ofNat n ≤ high) || fits (UInt8.ofNat n)
  | .literal bytes => bytes.all fits
  | .bounded opener closer _ => fits opener && fits closer
  | _ => true

theorem Kind.fits_range {fits : UInt8 → Bool} {low high b : UInt8}
    (h : Kind.fits (N := N) (U := U) fits (.range low high) = true)
    (hb : (low ≤ b && b ≤ high) = true) : fits b = true := by
  have hall := List.all_eq_true.1 h b.toNat (List.mem_range.2 b.toNat_lt)
  rw [UInt8.ofNat_toNat, hb] at hall
  exact hall

/-- Where everything fits, every kind of rule does. -/
theorem Kind.fits_all (k : Kind N U (Rule N U)) : k.fits (fun _ ↦ true) = true := by
  cases k <;> simp [fits]

namespace State

/-- The bytes between two offsets all fit. -/
def FitsBetween (input : Array UInt8) (fits : UInt8 → Bool) (low high : Nat) : Prop :=
  ∀ ⦃i : Nat⦄ ⦃b : UInt8⦄, low ≤ i → i < high → input[i]? = some b → fits b = true

theorem advance_one_fits {fits : UInt8 → Bool} {s : State input U} {b : UInt8}
    (hpeek : s.peek = some b) (hb : fits b = true) :
    FitsBetween input fits s.cursor (s.advance 1).cursor := by
  have hcursor : (s.advance 1).cursor ≤ s.cursor + 1 := Nat.min_le_left _ _
  intro i c hlow hhigh hc
  obtain rfl : i = s.cursor := by omega
  obtain rfl : b = c := Option.some.inj (hpeek.symm.trans hc)
  exact hb

/-- What stands in the input where a byte string does is one of its bytes. -/
theorem mem_of_holdsAt {bytes : List UInt8} {offset i : Nat} {b : UInt8}
    (hholds : holdsAt input offset bytes = true) (hlow : offset ≤ i)
    (hhigh : i < offset + bytes.length) (hb : input[i]? = some b) : b ∈ bytes := by
  induction bytes generalizing offset with
  | nil =>
    simp only [List.length_nil] at hhigh
    omega
  | cons c bytes ih =>
    simp only [holdsAt, Bool.and_eq_true, beq_iff_eq] at hholds
    by_cases hi : i = offset
    · rw [hi, hholds.1] at hb
      exact Option.some.inj hb ▸ List.mem_cons_self
    · simp only [List.length_cons] at hhigh
      exact List.mem_cons_of_mem c (ih hholds.2 (by omega) (by omega))

theorem advance_fits {fits : UInt8 → Bool} {s : State input U} {bytes : List UInt8}
    (hholds : holdsAt input s.cursor bytes = true) (hbytes : bytes.all fits = true) :
    FitsBetween input fits s.cursor (s.advance bytes.length).cursor := by
  have hcursor : (s.advance bytes.length).cursor ≤ s.cursor + bytes.length := Nat.min_le_left _ _
  intro i b hlow hhigh hb
  exact List.all_eq_true.1 hbytes b (mem_of_holdsAt hholds hlow (by omega) hb)

end State

/-! ## Relations that last -/

/-- Whatever the engine does, the relation between the state before and the state after lasts. -/
structure Lasting (R : State input U → State input U → Prop) : Prop where
  refl : ∀ s, R s s
  trans : ∀ {s s' s''}, R s s' → R s' s'' → R s s''
  /-- An event may be written down, -/
  noted : ∀ s event, R s (s.noted event)
  /-- a failure be recorded, -/
  failAt : ∀ s offset reason, R s (State.failAt s offset reason).2
  /-- or committed that was recorded before, -/
  commit : ∀ s f, R s (State.commitUnlessSilenced s f)
  /-- bytes be consumed, -/
  advance : ∀ s n, R s (State.advance s n)
  /-- and a result be added. -/
  push : ∀ s value, R s (State.push s value)
  /-- The engine may go back to where it was, -/
  back : ∀ {s s'}, R s s' → R s (s'.restore s.position)
  /-- do something in silence, -/
  silently : ∀ {s s'}, R s.silenceErrors s' → R s s'.unsilenceErrors
  /-- or without results, -/
  unheard : ∀ {s s'}, R s.silenceResults s' → R s s'.unsilenceResults
  /-- and make the attempts of a choice. -/
  rejoin : ∀ {s ended}, R { s.silenceErrors with furthest := none } ended →
    R s (Evaluate.rejoin s.furthest ended.unsilenceErrors)

theorem Lasting.fail {R : State input U → State input U → Prop} (hR : Lasting R)
    (s : State input U) (reason : Reason) : R s (s.fail reason).2 :=
  hR.failAt s s.cursor reason

/-- A reason that the engine gives by itself.  Those of actions are messages. -/
def Reason.isEngines : Reason → Bool
  | .message _ => false
  | _ => true

/-- The relation between the state before and the state after lasts as long as the engine enters
rules with `inert` labels only, and consumes bytes that fit. -/
structure Guarded (inert : String → Bool) (fits : UInt8 → Bool)
    (R : State input U → State input U → Prop) : Prop where
  refl : ∀ s, R s s
  trans : ∀ {s s' s''}, R s s' → R s' s'' → R s s''
  /-- It may be written down that a rule is entered, -/
  entered : ∀ s {label}, inert label = true → R s (s.noted fun _ ↦ .enter label s.cursor)
  /-- and that it is left. -/
  left : ∀ s {label}, inert label = true → ∀ outcome,
    R s (s.noted fun _ ↦ .leave label s.cursor outcome)
  /-- A failure may be recorded, for a reason of the engine's own, -/
  failAt : ∀ s offset {reason}, reason.isEngines = true →
    R s (State.failAt s offset reason).2
  /-- and bytes be consumed that fit. -/
  advance : ∀ s n, State.FitsBetween input fits s.cursor (State.advance s n).cursor →
    R s (State.advance s n)
  /-- A byte may be added to the results, -/
  push : ∀ s b, R s (State.push s (.char b))
  /-- or the span that has been consumed. -/
  span : ∀ {s s'}, R s s' → R s (s'.push (.slice (s'.matched s.position)))
  /-- The engine may go back to where it was, -/
  back : ∀ {s s'}, R s s' → R s (s'.restore s.position)
  /-- do something in silence, -/
  silently : ∀ {s s'}, R s.silenceErrors s' → R s s'.unsilenceErrors
  /-- or without results, -/
  unheard : ∀ {s s'}, R s.silenceResults s' → R s s'.unsilenceResults
  /-- make the attempts of a choice, -/
  rejoin : ∀ {s ended}, R { s.silenceErrors with furthest := none } ended →
    R s (Evaluate.rejoin s.furthest ended.unsilenceErrors)
  /-- and commit the furthest failure of these. -/
  commit : ∀ {s ended f}, R { s.silenceErrors with furthest := none } ended →
    ended.furthest = some f →
    R s ((Evaluate.rejoin s.furthest ended.unsilenceErrors).commitUnlessSilenced f)

/-- What lasts whatever the engine does needs no guard. -/
theorem Lasting.guarded {R : State input U → State input U → Prop} (hR : Lasting R) :
    Guarded (fun _ ↦ true) (fun _ ↦ true) R where
  refl := hR.refl
  trans := hR.trans
  entered s _ _ := hR.noted s _
  left s _ _ _ := hR.noted s _
  failAt s offset reason _ := hR.failAt s offset reason
  advance s n _ := hR.advance s n
  push s _ := hR.push s _
  span h := hR.trans h (hR.push _ _)
  back := hR.back
  silently := hR.silently
  unheard := hR.unheard
  rejoin := hR.rejoin
  commit h _ := hR.trans (hR.rejoin h) (hR.commit _ _)

/-- Whenever a piece of evaluation comes to a reply, the relation has lasted. -/
def Leads (R : State input U → State input U → Prop) (step : Step input U) : Prop :=
  ∀ s reply, step s = some reply → R s reply.2

/-- The same of the body of a rule, which is given the position it starts from. -/
def LeadsFrom (R : State input U → State input U → Prop) (body : Position → Step input U) : Prop :=
  ∀ s reply, body s.position s = some reply → R s reply.2

section

variable {inert : String → Bool} {fits : UInt8 → Bool} {R : State input U → State input U → Prop}
  (hR : Guarded inert fits R)

include hR

theorem Guarded.fail (s : State input U) {reason : Reason}
    (hreason : reason.isEngines = true) : R s (s.fail reason).2 :=
  hR.failAt s s.cursor hreason

/-! ## Sequences and choices -/

namespace Evaluate

theorem inOrder_lasts {eval : Rule N U → Step input U} :
    ∀ {rules : List (Rule N U)} (outcome : Outcome), (∀ r ∈ rules, Leads R (eval r)) →
      Leads R (inOrder eval rules outcome)
  | [], _, _, s, reply, h => by
    cases h
    exact hR.refl s
  | rule :: rest, outcome, heval, s, reply, h => by
    have hrule := heval rule List.mem_cons_self
    have hrest (o : Outcome) : Leads R (inOrder eval rest o) :=
      inOrder_lasts o fun r hr ↦ heval r (List.mem_cons_of_mem _ hr)
    rw [inOrder] at h
    split at h
    · cases h
    · next s₁ h₁ => exact hR.trans (hrule s _ h₁) (hrest .ok s₁ reply h)
    · next s₁ h₁ => exact hR.trans (hrule s _ h₁) (hrest outcome s₁ reply h)
    · next s₁ h₁ =>
      cases h
      exact hrule s _ h₁

/-- Every attempt of a choice begins where the choice has begun. -/
theorem firstOf_lasts {eval : Rule N U → Step input U} {s : State input U} :
    ∀ {rules : List (Rule N U)}, (∀ r ∈ rules, Leads R (eval r)) →
      ∀ s₁ reply, R s s₁ → firstOf eval s.position rules s₁ = some reply → R s reply.2
  | [], _, s₁, reply, hs₁, h => by
    cases h
    exact hs₁
  | rule :: rest, heval, s₁, reply, hs₁, h => by
    have hrule := heval rule List.mem_cons_self
    rw [firstOf] at h
    split at h
    · cases h
    · next s₂ h₂ =>
      cases h
      exact hR.trans hs₁ (hrule s₁ _ h₂)
    · next o s₂ _ h₂ =>
      have hback := hR.back (hR.trans hs₁ (hrule s₁ _ h₂))
      exact firstOf_lasts (fun r hr ↦ heval r (List.mem_cons_of_mem _ hr)) _ reply hback h

theorem choice_lasts {eval : Rule N U → Step input U} {rules : List (Rule N U)}
    (heval : ∀ r ∈ rules, Leads R (eval r)) (name : Option String) :
    LeadsFrom R (choice eval name rules) := by
  intro s reply h
  rw [choice] at h
  split at h
  · cases h
  · next o ended hattempts =>
    have hended := firstOf_lasts hR heval { s.silenceErrors with furthest := none } _ (hR.refl _)
      hattempts
    have htried := hR.rejoin hended
    split at h
    · cases h
      exact htried
    · split at h
      · next inner hinner =>
        split at h
        · cases h
          exact hR.commit hended hinner
        · cases h
          exact hR.trans htried (hR.failAt _ _ rfl)
      · cases h
        exact hR.trans htried (hR.failAt _ _ rfl)

/-! ## Kinds -/

theorem oneByte_lasts {accepts : UInt8 → Bool} (haccepts : ∀ b, accepts b = true → fits b = true)
    {reason : Reason} (hreason : reason.isEngines = true) (s : State input U) :
    R s (oneByte accepts reason s).2 := by
  rw [oneByte]
  split
  · next b hpeek =>
    split
    · next hb =>
      have hadvanced := hR.advance s 1 (State.advance_one_fits hpeek (haccepts b hb))
      exact hR.trans hadvanced (hR.push _ b)
    · exact hR.fail s hreason
  · exact hR.fail s hreason

theorem given_lasts (condition : Bool) {reason : Reason}
    (hreason : reason.isEngines = true) (s : State input U) :
    R s (given condition reason s).2 := by
  cases condition with
  | true => exact hR.refl s
  | false => exact hR.fail s hreason

theorem literal_lasts {bytes : List UInt8} (hbytes : bytes.all fits = true) (s : State input U) :
    R s (literal bytes s.position s).2 := by
  rw [literal]
  split
  · next hholds => exact hR.span (hR.advance s _ (State.advance_fits hholds hbytes))
  · exact hR.fail s rfl

theorem bounded_lasts {inside : Step input U} (hinside : Leads R inside) {opener closer : UInt8}
    (hopener : fits opener = true) (hcloser : fits closer = true) :
    Leads R (bounded opener closer inside) := by
  intro s reply h
  rw [bounded] at h
  split at h
  · next hpeek =>
    have hopened := hR.advance s 1 (State.advance_one_fits hpeek hopener)
    split at h
    · cases h
    · next s₁ h₁ =>
      cases h
      exact hR.trans hopened (hinside _ _ h₁)
    · next s₁ _ h₁ =>
      have hclosing := hR.trans hopened (hinside _ _ h₁)
      split at h
      · next hpeek₁ =>
        cases h
        exact hR.trans hclosing (hR.advance s₁ 1 (State.advance_one_fits hpeek₁ hcloser))
      · cases h
        exact hR.trans hclosing (hR.fail s₁ rfl)
  · cases h
    exact hR.fail s rfl

/-- A kind of rule whose inner rules keep up the relation, and whose action does, in whatever state
it is run. -/
theorem kind_lasts {g : Grammar N U} {eval : Rule N U → Step input U} {k : Kind N U (Rule N U)}
    (hfits : k.fits fits = true) (hinner : ∀ r ∈ k.inner g, Leads R (eval r))
    (hruns : ∀ action : Action N U, k.Runs @action → ∀ s s₁ reply, R s s₁ →
      (action s₁ s.position).run (fun n ↦ eval (g n)) = some reply → R s reply.2)
    (name : Option String) : LeadsFrom R (kind g eval name k) := by
  intro s reply h
  cases k with
  | nothing => cases h; exact hR.refl s
  | atStart => cases h; exact given_lasts hR _ rfl s
  | atEnd => cases h; exact given_lasts hR _ rfl s
  | emptyInput => cases h; exact given_lasts hR _ rfl s
  | byte b =>
    cases h
    exact oneByte_lasts hR (fun c hc ↦ by rwa [eq_of_beq hc]) rfl s
  | range low high =>
    cases h
    exact oneByte_lasts hR (fun c hc ↦ Kind.fits_range hfits hc) rfl s
  | literal bytes =>
    cases h
    exact literal_lasts hR hfits s
  | bounded opener closer rule =>
    obtain ⟨hopener, hcloser⟩ := Bool.and_eq_true_iff.1 hfits
    exact bounded_lasts hR (hinner rule List.mem_cons_self) hopener hcloser s reply h
  | anyOf rules => exact choice_lasts hR hinner name s reply h
  | allOf rules => exact inOrder_lasts hR .noMatch hinner s reply h
  | reference rule => exact hinner rule List.mem_cons_self s reply h
  | symbol n => exact hinner (g n) List.mem_cons_self s reply h
  | leaf action => exact hruns action rfl s s reply (hR.refl s) h
  | closing rule action =>
    have hrule := hinner rule List.mem_cons_self s
    simp only [kind] at h
    split at h
    · cases h
    · next s₁ h₁ =>
      split at h
      · exact hruns action rfl s s₁ reply (hrule _ h₁) h
      · cases h
        exact hrule _ h₁
    · cases h
      exact hrule _ (by assumption)

/-! ## Repetition and modifiers

A body is a rule without some of its modifiers.  It is given the position it starts from, and it
need not go back there itself. -/

variable {body : Position → Step input U}

theorem again_lasts (hbody : LeadsFrom R body) :
    ∀ (rounds : Nat) (s s' : State input U), again body rounds s = some s' → R s s'
  | 0, s, s', h => by
    cases h
    exact hR.refl s
  | rounds + 1, s, s', h => by
    rw [again] at h
    split at h
    · cases h
    · next s₁ h₁ =>
      have hround := hbody s _ h₁
      split at h
      · exact hR.trans hround (again_lasts hbody rounds s₁ s' h)
      · cases h
        exact hround
    · next o s₁ _ h₁ =>
      cases h
      exact hR.back (hbody s _ h₁)

theorem repeated_lasts (hbody : LeadsFrom R body) : LeadsFrom R (repeated body) := by
  intro s reply h
  rw [repeated] at h
  split at h
  · cases h
  · next s₁ h₁ =>
    split at h
    · cases h
    · next s₂ h₂ =>
      cases h
      exact hR.trans (hbody s _ h₁) (hR.silently (again_lasts hR hbody _ _ _ h₂))
  · cases h
    exact hbody s _ (by assumption)

theorem optional_lasts (hbody : LeadsFrom R body) : LeadsFrom R (optional body) := by
  intro s reply h
  rw [optional] at h
  split at h
  · cases h
  · next s₁ h₁ =>
    cases h
    exact hR.back (hR.silently (hbody s.silenceErrors _ h₁))
  · next o s₁ _ h₁ =>
    cases h
    exact hR.silently (hbody s.silenceErrors _ h₁)

theorem lookahead_lasts (hbody : LeadsFrom R body) : LeadsFrom R (lookahead body) := by
  intro s reply h
  rw [lookahead] at h
  split at h
  · cases h
  · next o s₁ h₁ =>
    cases h
    exact hR.unheard (hbody s.silenceResults _ h₁)

theorem flat_lasts (hbody : LeadsFrom R body) : LeadsFrom R (flat body) := by
  intro s reply h
  have hbody := lookahead_lasts hR hbody s
  rw [flat] at h
  split at h
  · cases h
  · next s₁ h₁ =>
    cases h
    exact hR.span (hbody _ h₁)
  · cases h
    exact hbody _ (by assumption)

omit hR in
theorem wrapIf_lasts {wrapper : (Position → Step input U) → Position → Step input U}
    (hwrapper : ∀ {body}, LeadsFrom R body → LeadsFrom R (wrapper body)) (wanted : Bool)
    (hbody : LeadsFrom R body) : LeadsFrom R (wrapIf wanted wrapper body) := by
  cases wanted with
  | false => exact hbody
  | true => exact hwrapper hbody

theorem modified_lasts (m : Modifiers) (hbody : LeadsFrom R body) : LeadsFrom R (modified m body) :=
  wrapIf_lasts (optional_lasts hR) _ <|
  wrapIf_lasts (lookahead_lasts hR) _ <|
  wrapIf_lasts (flat_lasts hR) _ <|
  wrapIf_lasts (optional_lasts hR) _ <|
  wrapIf_lasts (repeated_lasts hR) _ hbody

end Evaluate

/-! ## Whole rules -/

namespace Rule

theorem settle_lasts {s : State input U} {reply : Reply input U} (h : R s reply.2) :
    R s (settle s.position reply).2 := by
  obtain ⟨outcome, s'⟩ := reply
  cases outcome with
  | ok => exact h
  | fail => exact hR.back h
  | noMatch => exact hR.back h

/-- **The relation lasts through one level of evaluation** if it does through the rules inside, and
through what the rule's own action does. -/
theorem step_guarded {g : Grammar N U} {eval : Rule N U → Step input U} {r : Rule N U}
    (hlabel : inert (r.label g) = true) (hfits : r.kind.fits fits = true)
    (hinner : ∀ rule ∈ r.kind.inner g, Leads R (eval rule))
    (hruns : ∀ action : Action N U, r.kind.Runs @action → ∀ s s₁ reply, R s s₁ →
      (action s₁ s.position).run (fun n ↦ eval (g n)) = some reply → R s reply.2) :
    Leads R (r.step g eval) := by
  intro s reply h
  have hentered : R s (s.noted fun _ ↦ .enter (r.label g) s.position.offset) :=
    hR.entered s hlabel
  have hposition :
      (s.noted fun _ ↦ .enter (r.label g) s.position.offset).position = s.position := by
    simp only [State.position, State.noted_cursor, State.noted_results]
  rw [step] at h
  generalize s.noted _ = entered at h hentered hposition
  split at h
  · cases h
  · next reply₁ hbody =>
    rw [← hposition] at hbody h
    have hkind := Evaluate.kind_lasts hR hfits hinner hruns r.name
    have hreply := Evaluate.modified_lasts hR r.modifiers hkind entered reply₁ hbody
    have hsettled := hR.trans hentered (settle_lasts hR hreply)
    generalize settle entered.position reply₁ = settled at h hsettled
    obtain ⟨outcome, left⟩ := settled
    cases h
    exact hR.trans hsettled (hR.left left hlabel outcome)

omit hR in
theorem step_lasts (hR : Lasting R) {g : Grammar N U} {eval : Rule N U → Step input U}
    {r : Rule N U} (hinner : ∀ rule ∈ r.kind.inner g, Leads R (eval rule))
    (hruns : ∀ action : Action N U, r.kind.Runs @action → ∀ s s₁ reply, R s s₁ →
      (action s₁ s.position).run (fun n ↦ eval (g n)) = some reply → R s reply.2) :
    Leads R (r.step g eval) :=
  step_guarded hR.guarded rfl r.kind.fits_all hinner hruns

end Rule
end
end DocGrammar
