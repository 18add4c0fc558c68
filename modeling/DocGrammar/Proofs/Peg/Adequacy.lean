import DocGrammar.Proofs.Peg.Interpreter
import DocGrammar.Proofs.Scan.Rest

/-!
# The engine implements parsing expressions

The engine matches with a state that it changes and puts back, and the interpreter of
`Proofs.Peg.Interpreter` without one.  For a rule that uses no actions the two come to the same:
they run out of their budget together, and otherwise the outcome, the cursor and the results that
are left are those of the interpreter's verdict.

* `State.Reached` is what a match does to a state: the cursor is where the verdict says, and the
  values are the newest results, unless results are silenced.
* `Agrees` compares a reply with a verdict.  What a body leaves behind when it does not match is of
  no account, because the rule around it goes back (`State.Extends`); a rule leaves everything as it
  was (`State.Undone`).
* `Realizes` and `RealizesFrom` say so of rules and of bodies.

For each combinator of the engine there is a lemma that it realizes the interpreter's.  That
silenced results are the values that a lookahead drops, and that going back from a failed round
forgets exactly what the round did, are the points where the two differ in more than form.
-/

set_option autoImplicit false

namespace DocGrammar

variable {N U : Type} {input : Array UInt8}

/-! ## Bytes at an offset -/

theorem byteAt_eq_some {offset next : Offset input} {b : UInt8}
    (h : byteAt offset = some (b, next)) :
    input[offset.val]? = some b ∧ next.val = offset.val + 1 := by
  rw [byteAt] at h
  split at h
  · next hoffset =>
    cases h
    exact ⟨Array.getElem?_eq_getElem hoffset, rfl⟩
  · cases h

theorem byteAt_eq_none {offset : Offset input} (h : byteAt offset = none) :
    input[offset.val]? = none := by
  rw [byteAt] at h
  split at h
  · cases h
  · next hoffset => exact Array.getElem?_eq_none (Nat.not_lt.1 hoffset)

/-- A byte string stands where the offset behind it says. -/
theorem holdsAt_of_behind : ∀ {bytes : List UInt8} {offset stop : Offset input},
    behind bytes offset = some stop →
      State.holdsAt input offset bytes = true ∧ stop.val = offset.val + bytes.length
  | [], offset, stop, h => by
    cases h
    exact ⟨rfl, rfl⟩
  | b :: bytes, offset, stop, h => by
    rw [behind] at h
    split at h
    · next c next hnext =>
      obtain ⟨hbyte, hoffset⟩ := byteAt_eq_some hnext
      split at h
      · next hc =>
        obtain ⟨hrest, hstop⟩ := holdsAt_of_behind h
        rw [hoffset] at hrest hstop
        rw [State.holdsAt, hbyte, hc, hrest, hstop, List.length_cons]
        exact ⟨by simp, by omega⟩
      · cases h
    · cases h

theorem not_holdsAt_of_behind : ∀ {bytes : List UInt8} {offset : Offset input},
    behind bytes offset = none → State.holdsAt input offset bytes = false
  | [], offset, h => nomatch h
  | b :: bytes, offset, h => by
    rw [behind] at h
    rw [State.holdsAt, Bool.and_eq_false_iff]
    split at h
    · next c next hnext =>
      obtain ⟨hbyte, hoffset⟩ := byteAt_eq_some hnext
      split at h
      · rw [← hoffset]
        exact .inr (not_holdsAt_of_behind h)
      · next hc => exact .inl (by simpa [hbyte] using hc)
    · next hnext => exact .inl (by simp [byteAt_eq_none hnext])

/-! ## What a match does to a state -/

/-- The cursor as an offset. -/
def State.offset (s : State input U) : Offset input := ⟨s.cursor, Nat.lt_succ_of_le s.cursor_le⟩

/-- The second state is reached from the first by matching up to an offset, with the values as the
newest results. -/
structure State.Reached (s : State input U) (stop : Offset input) (values : List Value)
    (s' : State input U) : Prop extends Extends s s' where
  /-- The cursor is where the match stops. -/
  offset_eq : s'.offset = stop
  /-- The values are the newest results. -/
  results_eq : s'.results = s.results ++ s.heard values

namespace State

variable {s s' s'' : State input U} {stop stop' : Offset input} {values values' : List Value}

theorem offset_eq_of_cursor_eq (h : s'.cursor = s.cursor) : s'.offset = s.offset := Fin.ext h

theorem Undone.heard_eq (h : s.Undone s') (values : List Value) :
    s'.heard values = s.heard values := by
  rw [heard, heard, h.resultsSilenced_eq]

theorem Undone.offset_eq (h : s.Undone s') : s'.offset = s.offset :=
  offset_eq_of_cursor_eq h.cursor_eq

theorem Reached.refl (s : State input U) : s.Reached s.offset [] s :=
  ⟨Extends.refl s, rfl, by simp⟩

theorem Reached.trans (h : s.Reached stop values s') (h' : s'.Reached stop' values' s'') :
    s.Reached stop' (values ++ values') s'' where
  toExtends := h.toExtends.trans h'.toExtends
  offset_eq := h'.offset_eq
  results_eq := by
    rw [h'.results_eq, h.results_eq, heard, heard, heard, h.resultsSilenced_eq, List.append_assoc]
    split <;> simp

theorem Reached.trans_undone (h : s.Reached stop values s') (h' : s'.Undone s'') :
    s.Reached stop values s'' :=
  ⟨h.toExtends.trans h'.extends, h'.offset_eq.trans h.offset_eq,
    h'.results_eq.trans h.results_eq⟩

theorem Undone.trans_reached (h : s.Undone s') (h' : s'.Reached stop values s'') :
    s.Reached stop values s'' :=
  ⟨h.extends.trans h'.toExtends, h'.offset_eq, by rw [h'.results_eq, h.results_eq, h.heard_eq]⟩

theorem Reached.unsilenceErrors (h : s.silenceErrors.Reached stop values s') :
    s.Reached stop values s'.unsilenceErrors :=
  ⟨h.toExtends.unsilenceErrors, h.offset_eq, h.results_eq⟩

/-- Where results were silenced there are no values. -/
theorem Reached.unsilenceResults (h : s.silenceResults.Reached stop values s') :
    s.Reached stop [] s'.unsilenceResults :=
  ⟨h.toExtends.unsilenceResults, h.offset_eq, by
    rw [heard_nil]
    exact h.results_eq⟩

theorem push_reached (s : State input U) (value : Value) :
    s.Reached s.offset [value] (s.push value) := by
  have htook := s.push_took value
  exact ⟨htook.extends, offset_eq_of_cursor_eq htook.cursor_eq, htook.results_eq⟩

/-- What has been consumed since the start of a match is the input up to where it stops. -/
theorem Reached.matched_eq (h : s.Reached stop values s') :
    s'.matched s.position = between input s.offset stop := by
  rw [matched, ← h.offset_eq]
  exact congrArg (between input · s'.cursor) (Nat.min_eq_left h.cursor_le)

/-- A byte string that is taken without a value. -/
theorem advance_reached_behind {bytes : List UInt8}
    {stop : Offset input} (h : behind bytes s.offset = some stop) :
    s.Reached stop [] (s.advance bytes.length) := by
  obtain ⟨-, hstop⟩ := holdsAt_of_behind h
  refine ⟨s.advance_extends _, Fin.ext ?_, by simp [advance, moveTo]⟩
  have hle := stop.isLt
  show min (s.cursor + bytes.length) input.size = stop
  rw [hstop] at hle ⊢
  exact Nat.min_eq_left (Nat.le_of_lt_succ hle)

/-- A byte that is taken without a value. -/
theorem advance_reached {b : UInt8} {next : Offset input} (h : byteAt s.offset = some (b, next)) :
    s.Reached next [] (s.advance 1) := by
  have hbehind : behind [b] s.offset = some next := by
    rw [behind, h]
    exact if_pos rfl
  exact advance_reached_behind hbehind

end State

/-! ## A reply agrees with a verdict -/

/-- A reply is what a verdict says, when the evaluation started in the state `s`.  What is left by
a rule that does not match is described by `left`. -/
inductive Agrees (s : State input U) (left : State input U → Prop) :
    Verdict input → Reply input U → Prop
  | ok {stop : Offset input} {values : List Value} {s' : State input U}
      (h : s.Reached stop values s') : Agrees s left (.ok stop values) (.ok, s')
  | fail {s' : State input U} (h : left s') : Agrees s left .fail (.fail, s')
  | noMatch {s' : State input U} (h : left s') : Agrees s left .noMatch (.noMatch, s')

/-- A piece of evaluation does what a function of the offset says, and undoes everything if it does
not match.  They run out of their budget together. -/
def Realizes (step : Step input U) (p : Peg input) : Prop :=
  ∀ s, Option.Rel (Agrees s s.Undone) (p s.offset) (step s)

/-- A body does what a function of the offset says. -/
def RealizesFrom (body : Position → Step input U) (p : Peg input) : Prop :=
  ∀ s, Option.Rel (Agrees s s.Extends) (p s.offset) (body s.position s)

namespace Agrees

variable {s s₁ s' : State input U} {verdict : Verdict input} {outcome : Outcome}
  {reply : Reply input U}

/-- What a rule leaves extends the state. -/
theorem toExtends (h : Agrees s s.Undone verdict reply) : Agrees s s.Extends verdict reply := by
  cases h with
  | ok h => exact .ok h
  | fail h => exact .fail h.extends
  | noMatch h => exact .noMatch h.extends

theorem of_undone (hs : s.Undone s₁) (h : Agrees s₁ s₁.Extends verdict reply) :
    Agrees s s.Extends verdict reply := by
  cases h with
  | ok h => exact .ok (hs.trans_reached h)
  | fail h => exact .fail (hs.extends.trans h)
  | noMatch h => exact .noMatch (hs.extends.trans h)

theorem trans_undone (h : Agrees s s.Extends verdict (outcome, s₁)) (hs : s₁.Undone s') :
    Agrees s s.Extends verdict (outcome, s') := by
  cases h with
  | ok h => exact .ok (h.trans_undone hs)
  | fail h => exact .fail (h.trans hs.extends)
  | noMatch h => exact .noMatch (h.trans hs.extends)

theorem unsilenceErrors (h : Agrees s.silenceErrors s.silenceErrors.Extends verdict (outcome, s')) :
    Agrees s s.Extends verdict (outcome, s'.unsilenceErrors) := by
  cases h with
  | ok h => exact .ok h.unsilenceErrors
  | fail h => exact .fail h.unsilenceErrors
  | noMatch h => exact .noMatch h.unsilenceErrors

theorem noted (h : Agrees s s.Undone verdict reply) (event : Unit → Event) :
    Agrees s s.Undone verdict (reply.1, reply.2.noted event) := by
  have hnoted := State.noted_undone reply.2 event
  cases h with
  | ok h => exact .ok (h.trans_undone hnoted)
  | fail h => exact .fail (h.trans hnoted)
  | noMatch h => exact .noMatch (h.trans hnoted)

end Agrees

/-- A rule inside another is a body of its own. -/
theorem Realizes.realizesFrom {step : Step input U} {p : Peg input} (h : Realizes step p) :
    RealizesFrom (fun _ ↦ step) p := by
  intro s
  have hrule := h s
  dsimp only
  generalize p s.offset = verdict? at hrule ⊢
  generalize step s = reply? at hrule ⊢
  cases hrule with
  | none => exact .none
  | some hagrees => exact .some hagrees.toExtends

namespace Evaluate

/-! ## Sequences and choices -/

/-- What a sequence comes to when `outcome` is the outcome of the part before it. -/
def Continues (s : State input U) (outcome : Outcome) (verdict : Verdict input)
    (reply : Reply input U) : Prop :=
  match verdict with
  | .noMatch => reply.1 = outcome ∧ s.Undone reply.2
  | verdict => Agrees s s.Extends verdict reply

theorem inOrder_continues {eval : Rule N U → Step input U} {interpret : Rule N U → Peg input} :
    ∀ {rules : List (Rule N U)}, (∀ r ∈ rules, Realizes (eval r) (interpret r)) →
      ∀ (outcome : Outcome) (s : State input U),
        Option.Rel (Continues s outcome) (Peg.inOrder (rules.map interpret) s.offset)
          (inOrder eval rules outcome s)
  | [], _, outcome, s => .some ⟨rfl, State.Undone.refl s⟩
  | rule :: rules, h, outcome, s => by
    have hrest := inOrder_continues fun r hr ↦ h r (List.mem_cons_of_mem _ hr)
    have hrule := h rule List.mem_cons_self s
    rw [List.map_cons, Peg.inOrder, inOrder]
    generalize interpret rule s.offset = verdict? at hrule ⊢
    generalize eval rule s = reply? at hrule ⊢
    cases hrule with
    | none => exact .none
    | some hagrees =>
      cases hagrees with
      | @ok stop values s₁ hreached =>
        have hnext := hrest .ok s₁
        rw [hreached.offset_eq] at hnext
        dsimp only
        generalize Peg.inOrder _ stop = verdict? at hnext ⊢
        generalize inOrder eval rules .ok s₁ = reply? at hnext ⊢
        cases hnext with
        | none => exact .none
        | @some verdict reply hcontinues =>
          obtain ⟨outcome', s₂⟩ := reply
          refine .some ?_
          cases verdict with
          | ok stop' values' =>
            cases hcontinues with
            | ok h => exact .ok (hreached.trans h)
          | fail =>
            cases hcontinues with
            | fail h => exact .fail (hreached.toExtends.trans h)
          | noMatch =>
            obtain ⟨rfl, hundone⟩ := hcontinues
            exact .ok (hreached.trans_undone hundone)
      | fail hundone => exact .some (.fail hundone.extends)
      | @noMatch s₁ hundone =>
        have hnext := hrest outcome s₁
        rw [hundone.offset_eq] at hnext
        dsimp only
        generalize Peg.inOrder _ s.offset = verdict? at hnext ⊢
        generalize inOrder eval rules outcome s₁ = reply? at hnext ⊢
        cases hnext with
        | none => exact .none
        | @some verdict reply hcontinues =>
          refine .some ?_
          cases verdict with
          | ok stop' values' => exact hcontinues.of_undone hundone
          | fail => exact hcontinues.of_undone hundone
          | noMatch => exact ⟨hcontinues.1, hundone.trans hcontinues.2⟩

theorem inOrder_realizes {eval : Rule N U → Step input U} {interpret : Rule N U → Peg input}
    {rules : List (Rule N U)} (h : ∀ r ∈ rules, Realizes (eval r) (interpret r)) :
    RealizesFrom (fun _ ↦ inOrder eval rules .noMatch) (Peg.inOrder (rules.map interpret)) := by
  intro s
  have hcontinues := inOrder_continues h .noMatch s
  dsimp only
  generalize Peg.inOrder _ s.offset = verdict? at hcontinues ⊢
  generalize inOrder eval rules .noMatch s = reply? at hcontinues ⊢
  cases hcontinues with
  | none => exact .none
  | @some verdict reply hcontinues =>
    refine .some ?_
    cases verdict with
    | ok stop values => exact hcontinues
    | fail => exact hcontinues
    | noMatch =>
      obtain ⟨outcome, s'⟩ := reply
      obtain ⟨rfl, hundone⟩ := hcontinues
      exact .noMatch hundone.extends

theorem firstOf_realizes {eval : Rule N U → Step input U} {interpret : Rule N U → Peg input} :
    ∀ {rules : List (Rule N U)}, (∀ r ∈ rules, Realizes (eval r) (interpret r)) →
      RealizesFrom (fun start ↦ firstOf eval start rules) (Peg.firstOf (rules.map interpret))
  | [], _, s => .some (.fail (State.Extends.refl s))
  | rule :: rules, h, s => by
    have hrest := firstOf_realizes fun r hr ↦ h r (List.mem_cons_of_mem _ hr)
    -- an attempt that is given up leaves everything as it was
    have hnext {s₁ : State input U} (hundone : s.Undone s₁) :
        Option.Rel (Agrees s s.Extends) (Peg.firstOf (rules.map interpret) s.offset)
          (firstOf eval s.position rules (s₁.restore s.position)) := by
      have hback := hundone.extends.undone_restore rfl
      have hattempt := hrest (s₁.restore s.position)
      dsimp only at hattempt
      rw [hback.offset_eq, hback.position_eq] at hattempt
      generalize Peg.firstOf _ s.offset = verdict? at hattempt ⊢
      generalize firstOf eval _ rules _ = reply? at hattempt ⊢
      cases hattempt with
      | none => exact .none
      | some hagrees => exact .some (hagrees.of_undone hback)
    have hrule := h rule List.mem_cons_self s
    dsimp only
    rw [List.map_cons, Peg.firstOf, firstOf]
    generalize interpret rule s.offset = verdict? at hrule ⊢
    generalize eval rule s = reply? at hrule ⊢
    cases hrule with
    | none => exact .none
    | some hagrees =>
      cases hagrees with
      | ok hreached => exact .some (.ok hreached)
      | fail hundone => exact hnext hundone
      | noMatch hundone => exact hnext hundone

/-- A choice is the first of its attempts, but for diagnostics. -/
theorem choice_realizes {eval : Rule N U → Step input U} {interpret : Rule N U → Peg input}
    (name : Option String) {rules : List (Rule N U)}
    (h : ∀ r ∈ rules, Realizes (eval r) (interpret r)) :
    RealizesFrom (choice eval name rules) (Peg.firstOf (rules.map interpret)) := by
  intro s
  have hentered : s.silenceErrors.Undone { s.silenceErrors with furthest := none } :=
    ⟨rfl, rfl, rfl, rfl⟩
  have hattempts : Option.Rel (Agrees { s.silenceErrors with furthest := none } _)
      (Peg.firstOf (rules.map interpret) s.offset)
      (firstOf eval s.position rules { s.silenceErrors with furthest := none }) :=
    firstOf_realizes h _
  generalize Peg.firstOf _ s.offset = verdict? at hattempts ⊢
  generalize hfirst : firstOf eval s.position rules _ = reply? at hattempts
  cases hattempts with
  | none =>
    rw [choice, hfirst]
    exact .none
  | @some verdict reply hagrees =>
    obtain ⟨outcome, ended⟩ := reply
    obtain ⟨s', hchoice, hsame⟩ := choice_eq name hfirst
    rw [hchoice]
    exact .some ((hagrees.of_undone hentered).unsilenceErrors.trans_undone hsame.toUndone)

/-! ## Kinds -/

theorem agrees_failAt (s : State input U) (offset : Nat) (reason : Reason) :
    Agrees s s.Extends .fail (s.failAt offset reason) :=
  .fail (s.failAt_undone offset reason).extends

theorem given_agrees (s : State input U) (condition : Bool) (reason : Reason) :
    Agrees s s.Extends (if condition then .ok s.offset [] else .fail)
      (given condition reason s) := by
  rw [given]
  cases condition with
  | true => exact .ok (State.Reached.refl s)
  | false => exact agrees_failAt s _ _

theorem oneByte_realizes (accepts : UInt8 → Bool) (reason : Reason) :
    RealizesFrom (fun _ s ↦ some (oneByte accepts reason s : Reply input U))
      (Peg.oneByte accepts) := by
  intro s
  dsimp only
  rw [oneByte, Peg.oneByte]
  cases h : byteAt s.offset with
  | none =>
    have hpeek : s.peek = none := byteAt_eq_none h
    rw [hpeek]
    exact .some (agrees_failAt s _ _)
  | some found =>
    obtain ⟨b, next⟩ := found
    have hpeek : s.peek = some b := (byteAt_eq_some h).1
    rw [hpeek]
    dsimp only
    refine .some ?_
    cases accepts b with
    | true =>
      have hreached := (State.advance_reached h).trans (State.push_reached _ (.char b))
      rw [(State.advance_reached h).offset_eq] at hreached
      exact .ok hreached
    | false => exact agrees_failAt s _ _

theorem literal_realizes (bytes : List UInt8) :
    RealizesFrom (fun start s ↦ some (literal bytes start s : Reply input U))
      (Peg.literal bytes) := by
  intro s
  dsimp only
  rw [literal, Peg.literal]
  cases h : behind bytes s.offset with
  | none =>
    have hholds : State.holdsAt input s.cursor bytes = false := not_holdsAt_of_behind h
    rw [if_neg (Bool.eq_false_iff.1 hholds)]
    exact .some (agrees_failAt s _ _)
  | some stop =>
    have hholds : State.holdsAt input s.cursor bytes = true := (holdsAt_of_behind h).1
    have hadvance := State.advance_reached_behind h
    rw [if_pos hholds]
    have hmatched : (s.advance bytes.length).matched s.position = bytes := by
      obtain ⟨rest, hrest⟩ := List.isPrefixOf_iff_prefix.1
        ((State.holdsAt_eq input bytes s.cursor).symm.trans hholds)
      rw [← s.rest_eq] at hrest
      exact (State.advance_took hrest.symm).matched_eq
    have hreached := hadvance.trans (State.push_reached _ (.slice bytes))
    rw [hadvance.offset_eq] at hreached
    dsimp only
    rw [hmatched]
    exact .some (.ok hreached)

/-- A byte stands at the cursor just in case there is an offset behind it. -/
theorem peek_eq_some_iff (s : State input U) (b : UInt8) :
    s.peek = some b ↔ ∃ stop, behind [b] s.offset = some stop := by
  cases h : behind [b] s.offset with
  | none =>
    have hholds := not_holdsAt_of_behind h
    simpa [State.holdsAt, State.offset, State.peek] using hholds
  | some stop =>
    have hholds := (holdsAt_of_behind h).1
    simpa [State.holdsAt, State.offset, State.peek] using hholds

/-- What is left to do when the inside of brackets has been matched. -/
theorem closed_agrees {s s₁ : State input U} {stop : Offset input} {values : List Value}
    (h : s.Reached stop values s₁) (closer : UInt8) :
    Option.Rel (Agrees s s.Extends) (some (Peg.closed closer stop values))
      (if s₁.peek = some closer then some (.ok, s₁.advance 1)
      else some (s₁.fail (.expectedCloser closer))) := by
  rw [Peg.closed, ← h.offset_eq]
  split
  · next last hlast =>
    rw [if_pos ((peek_eq_some_iff s₁ closer).2 ⟨last, hlast⟩)]
    have hreached := h.trans (State.advance_reached_behind hlast)
    rw [List.append_nil] at hreached
    exact .some (.ok hreached)
  · next hlast =>
    have hpeek : ¬ s₁.peek = some closer := by
      rw [peek_eq_some_iff, hlast]
      rintro ⟨last, ⟨⟩⟩
    rw [if_neg hpeek]
    exact .some (.fail (h.toExtends.trans (s₁.failAt_undone _ _).extends))

theorem bounded_realizes {inside : Step input U} {p : Peg input} (hinside : Realizes inside p)
    (opener closer : UInt8) :
    RealizesFrom (fun _ ↦ bounded opener closer inside) (Peg.bounded opener closer p) := by
  intro s
  dsimp only
  rw [bounded, Peg.bounded]
  cases hopened : behind [opener] s.offset with
  | none =>
    have hpeek : ¬ s.peek = some opener := by
      rw [peek_eq_some_iff, hopened]
      rintro ⟨opened, ⟨⟩⟩
    rw [if_neg hpeek]
    exact .some (agrees_failAt s _ _)
  | some opened =>
    rw [if_pos ((peek_eq_some_iff s opener).2 ⟨opened, hopened⟩)]
    have hreached : s.Reached opened [] (s.advance 1) := State.advance_reached_behind hopened
    have hmatch := hinside (s.advance 1)
    rw [hreached.offset_eq] at hmatch
    dsimp only
    generalize p opened = verdict? at hmatch ⊢
    generalize inside (s.advance 1) = reply? at hmatch ⊢
    cases hmatch with
    | none => exact .none
    | some hagrees =>
      cases hagrees with
      | ok h =>
        have hboth := hreached.trans h
        rw [List.nil_append] at hboth
        exact closed_agrees hboth closer
      | fail h => exact .some (.fail (hreached.toExtends.trans h.extends))
      | noMatch h => exact closed_agrees (hreached.trans_undone h) closer

/-- **A kind of rule that runs no action does what the interpreter says**, if the rules inside it
do. -/
theorem kind_realizes {g : Grammar N U} {eval : Rule N U → Step input U}
    {interpret : Rule N U → Peg input} {k : Kind N U (Rule N U)}
    (hinner : ∀ r ∈ k.inner g, Realizes (eval r) (interpret r))
    (hruns : ∀ action : Action N U, ¬ k.Runs @action) (name : Option String) :
    RealizesFrom (kind g eval name k) (k.interpret g interpret) := by
  cases k with
  | nothing => exact fun s ↦ .some (.ok (State.Reached.refl s))
  | atStart => exact fun s ↦ .some (given_agrees s _ _)
  | atEnd => exact fun s ↦ .some (given_agrees s _ _)
  | emptyInput => exact fun s ↦ .some (given_agrees s _ _)
  | byte b => exact oneByte_realizes _ _
  | range low high => exact oneByte_realizes _ _
  | literal bytes => exact literal_realizes bytes
  | bounded opener closer rule =>
    exact bounded_realizes (hinner rule List.mem_cons_self) opener closer
  | anyOf rules => exact choice_realizes name hinner
  | allOf rules => exact inOrder_realizes hinner
  | reference rule => exact (hinner rule List.mem_cons_self).realizesFrom
  | symbol n => exact (hinner (g n) List.mem_cons_self).realizesFrom
  | leaf action => exact absurd rfl (hruns action)
  | closing rule action => exact absurd rfl (hruns action)

/-! ## Repetition and modifiers -/

/-- What going on with a match comes to: it ends where the interpreter says, with what it says. -/
theorem again_realizes {body : Position → Step input U} {p : Peg input}
    (hbody : RealizesFrom body p) : ∀ (rounds : Nat) (s : State input U),
      input.size + 1 - s.cursor ≤ rounds →
        Option.Rel (fun found s' ↦ s.Reached found.1 found.2 s') (Peg.greedy p s.offset)
          (again body rounds s)
  | 0, s, h => by
    have := s.cursor_le
    omega
  | rounds + 1, s, h => by
    have hround := hbody s
    rw [Peg.greedy, again]
    generalize p s.offset = verdict? at hround ⊢
    generalize body s.position s = reply? at hround ⊢
    cases hround with
    | none => exact .none
    | some hagrees =>
      cases hagrees with
      | @ok next values s₁ hreached =>
        have hiff : s.offset.val < next.val ↔ s.cursor < s₁.cursor := by
          rw [← hreached.offset_eq]
          rfl
        dsimp only
        by_cases hlt : s.cursor < s₁.cursor
        · rw [if_pos hlt, if_pos (hiff.2 hlt)]
          have hmore := again_realizes hbody rounds s₁ (by omega)
          rw [hreached.offset_eq] at hmore
          generalize Peg.greedy p next = found? at hmore ⊢
          generalize again body rounds s₁ = s? at hmore ⊢
          cases hmore with
          | none => exact .none
          | some h => exact .some (hreached.trans h)
        · rw [if_neg hlt, if_neg (mt hiff.1 hlt)]
          exact .some hreached
      | fail h =>
        exact .some ((State.Reached.refl s).trans_undone (h.undone_restore rfl))
      | noMatch h =>
        exact .some ((State.Reached.refl s).trans_undone (h.undone_restore rfl))

theorem repeated_realizes {body : Position → Step input U} {p : Peg input}
    (hbody : RealizesFrom body p) : RealizesFrom (repeated body) (Peg.repeated p) := by
  intro s
  have hfirst := hbody s
  rw [repeated, Peg.repeated]
  generalize p s.offset = verdict? at hfirst ⊢
  generalize body s.position s = reply? at hfirst ⊢
  cases hfirst with
  | none => exact .none
  | some hagrees =>
    cases hagrees with
    | @ok next values s₁ hreached =>
      have hmore : Option.Rel _ (Peg.greedy p s₁.offset) _ :=
        again_realizes hbody (input.size + 1 - s₁.cursor) s₁.silenceErrors (Nat.le_refl _)
      rw [hreached.offset_eq] at hmore
      dsimp only
      generalize Peg.greedy p next = found? at hmore ⊢
      generalize again body _ s₁.silenceErrors = s? at hmore ⊢
      cases hmore with
      | none => exact .none
      | some h => exact .some (.ok (hreached.trans h.unsilenceErrors))
    | fail h => exact .some (.fail h)
    | noMatch h => exact .some (.noMatch h)

theorem optional_realizes {body : Position → Step input U} {p : Peg input}
    (hbody : RealizesFrom body p) : RealizesFrom (optional body) (Peg.optional p) := by
  intro s
  have hmatch : Option.Rel (Agrees s.silenceErrors _) (p s.offset)
    (body s.position s.silenceErrors) := hbody s.silenceErrors
  rw [optional, Peg.optional]
  generalize p s.offset = verdict? at hmatch ⊢
  generalize body s.position s.silenceErrors = reply? at hmatch ⊢
  cases hmatch with
  | none => exact .none
  | some hagrees =>
    cases hagrees with
    | ok h => exact .some (.ok h.unsilenceErrors)
    | fail h => exact .some (.noMatch (h.unsilenceErrors.undone_restore rfl).extends)
    | noMatch h => exact .some (.noMatch h.unsilenceErrors)

/-- Where results are silenced, every value is dropped. -/
theorem lookahead_realizes {body : Position → Step input U} {p : Peg input}
    (hbody : RealizesFrom body p) : RealizesFrom (lookahead body) (Peg.lookahead p) := by
  intro s
  have hmatch : Option.Rel (Agrees s.silenceResults _) (p s.offset)
    (body s.position s.silenceResults) := hbody s.silenceResults
  rw [lookahead, Peg.lookahead]
  generalize p s.offset = verdict? at hmatch ⊢
  generalize body s.position s.silenceResults = reply? at hmatch ⊢
  cases hmatch with
  | none => exact .none
  | some hagrees =>
    cases hagrees with
    | ok h => exact .some (.ok h.unsilenceResults)
    | fail h => exact .some (.fail h.unsilenceResults)
    | noMatch h => exact .some (.noMatch h.unsilenceResults)

theorem flat_realizes {body : Position → Step input U} {p : Peg input}
    (hbody : RealizesFrom body p) : RealizesFrom (flat body) (Peg.flat p) := by
  intro s
  have hmatch := lookahead_realizes hbody s
  rw [Peg.lookahead] at hmatch
  rw [flat, Peg.flat]
  generalize p s.offset = verdict? at hmatch ⊢
  generalize lookahead body s.position s = reply? at hmatch ⊢
  cases verdict? with
  | none =>
    cases hmatch
    exact .none
  | some verdict =>
    cases verdict with
    | ok stop values =>
      cases hmatch with
      | some hagrees =>
        cases hagrees with
        | @ok _ _ s₁ hreached =>
          have hboth := hreached.trans (State.push_reached s₁ (.slice (s₁.matched s.position)))
          rw [hreached.offset_eq, hreached.matched_eq] at hboth
          dsimp only
          rw [hreached.matched_eq]
          exact .some (.ok hboth)
    | fail =>
      cases hmatch with
      | some hagrees =>
        cases hagrees with
        | fail h => exact .some (.fail h)
    | noMatch =>
      cases hmatch with
      | some hagrees =>
        cases hagrees with
        | noMatch h => exact .some (.noMatch h)

theorem wrapIf_realizes {wrapper : (Position → Step input U) → Position → Step input U}
    {wrapper' : Peg input → Peg input}
    (hwrapper : ∀ {body p}, RealizesFrom body p → RealizesFrom (wrapper body) (wrapper' p))
    (wanted : Bool) {body : Position → Step input U} {p : Peg input}
    (hbody : RealizesFrom body p) :
    RealizesFrom (wrapIf wanted wrapper body) (Peg.wrapIf wanted wrapper' p) := by
  cases wanted with
  | false => exact hbody
  | true => exact hwrapper hbody

theorem modified_realizes (m : Modifiers) {body : Position → Step input U} {p : Peg input}
    (hbody : RealizesFrom body p) : RealizesFrom (modified m body) (Peg.modified m p) :=
  wrapIf_realizes optional_realizes _ <|
  wrapIf_realizes lookahead_realizes _ <|
  wrapIf_realizes flat_realizes _ <|
  wrapIf_realizes optional_realizes _ <|
  wrapIf_realizes repeated_realizes _ hbody

end Evaluate

/-! ## Whole rules -/

namespace Rule

/-- What a body leaves is cut back to what the rule leaves. -/
theorem settle_agrees {s : State input U} {verdict : Verdict input} {reply : Reply input U}
    (h : Agrees s s.Extends verdict reply) :
    Agrees s s.Undone verdict (settle s.position reply) := by
  cases h with
  | ok h => exact .ok h
  | fail h => exact .fail (h.undone_restore rfl)
  | noMatch h => exact .noMatch (h.undone_restore rfl)

/-- **One level of evaluation does what the interpreter says.** -/
theorem step_realizes {g : Grammar N U} {eval : Rule N U → Step input U}
    {interpret : Rule N U → Peg input} {r : Rule N U}
    (hinner : ∀ rule ∈ r.kind.inner g, Realizes (eval rule) (interpret rule))
    (hruns : ∀ action : Action N U, ¬ r.kind.Runs @action) :
    Realizes (r.step g eval) (Peg.modified r.modifiers (r.kind.interpret g interpret)) := by
  intro s
  have hentered := State.noted_undone s fun _ ↦ .enter (r.label g) s.position.offset
  rw [step]
  generalize s.noted _ = entered at hentered ⊢
  have hbody := Evaluate.modified_realizes r.modifiers
    (Evaluate.kind_realizes hinner hruns r.name) entered
  rw [hentered.offset_eq, hentered.position_eq] at hbody
  generalize Peg.modified _ _ s.offset = verdict? at hbody ⊢
  dsimp only
  generalize Evaluate.modified _ _ _ entered = reply? at hbody ⊢
  cases hbody with
  | none => exact .none
  | some hagrees => exact .some ((settle_agrees (hagrees.of_undone hentered)).noted _)

/-- Evaluation does what the interpreter says, by induction on the budget. -/
theorem evaluate_realizes {g : Grammar N U} :
    ∀ (budget : Nat) (r : Rule N U), (∀ action : Action N U, ¬ r.Uses g @action) →
      Realizes (r.evaluate g budget : Step input U) (r.interpret g budget)
  | 0, _, _ => fun _ ↦ .none
  | budget + 1, _, h =>
    step_realizes
      (fun rule hrule ↦ evaluate_realizes budget rule
        fun action hused ↦ h @action (.within hrule hused))
      (fun action hruns ↦ h @action (.here hruns))

/-- **The engine implements parsing expressions.**  For a rule that uses no actions, from a state in
which results are not silenced, the evaluator and the interpreter run out of a budget together;
and otherwise the evaluator's outcome is that of the interpreter's verdict, its cursor is where the
verdict says, and it has added the verdict's values to the results and nothing else. -/
theorem evaluate_eq_interpret (g : Grammar N U) (budget : Nat) (r : Rule N U)
    (hr : ∀ action : Action N U, ¬ r.Uses g @action) (s : State input U)
    (hs : s.resultsSilenced = 0) :
    (r.evaluate g budget s).map (fun (outcome, s') ↦ (outcome, s'.cursor, s'.results)) =
      (r.interpret g budget s.offset).map fun verdict ↦
        (verdict.outcome, (verdict.stop s.offset).val, s.results ++ verdict.values) := by
  have hrealizes := evaluate_realizes budget r hr s
  generalize r.interpret g budget s.offset = verdict? at hrealizes ⊢
  generalize r.evaluate g budget s = reply? at hrealizes ⊢
  cases hrealizes with
  | none => rfl
  | some hagrees =>
    cases hagrees with
    | ok h =>
      have hheard := h.results_eq
      rw [State.heard, if_pos hs] at hheard
      have hcursor := congrArg Fin.val h.offset_eq
      exact congrArg some (Prod.ext rfl (Prod.ext hcursor hheard))
    | fail h =>
      exact congrArg some (Prod.ext rfl (Prod.ext h.cursor_eq
        (h.results_eq.trans (List.append_nil _).symm)))
    | noMatch h =>
      exact congrArg some (Prod.ext rfl (Prod.ext h.cursor_eq
        (h.results_eq.trans (List.append_nil _).symm)))

/-- Words and lists in parentheses, to any depth: each word is a span. -/
def nestedWords : Grammar Unit Unit := fun _ ↦
  bounded 0x28 0x29 (anyOf [symbol (), (range 0x61 0x7A).repeated.flat]).repeatedOrNone

/-- The bytes of `x(ab(c)())y`, with the cursor on the first parenthesis. -/
def beforeNestedWords :
    State #[0x78, 0x28, 0x61, 0x62, 0x28, 0x63, 0x29, 0x28, 0x29, 0x29, 0x79] Unit where
  cursor := 1
  cursor_le := by decide
  results := [.null]
  user := ()

/-- The interpreter finds the words of a list at any depth, because the engine does. -/
theorem interpret_nestedWords :
    (∀ action : Action Unit Unit, ¬ (symbol ()).Uses nestedWords @action) ∧
      beforeNestedWords.resultsSilenced = 0 ∧
      ((symbol ()).interpret nestedWords 12 beforeNestedWords.offset).map (fun verdict ↦
        (verdict.outcome, (verdict.stop beforeNestedWords.offset).val, verdict.values)) =
      some (.ok, 10, [.slice [0x61, 0x62], .slice [0x63]]) := by
  have hunused (action : Action Unit Unit) : ¬ (symbol ()).Uses nestedWords @action :=
    Every.of_uses (P := fun _ ↦ False) (fun _ ↦ by simp [nestedWords]) (every_symbol ())
  have heval : ((symbol ()).evaluate nestedWords 12 beforeNestedWords).map
      (fun (outcome, s') ↦ (outcome, s'.cursor, s'.results)) =
        some (.ok, 10, [.null, .slice [0x61, 0x62], .slice [0x63]]) := by decide +kernel
  rw [evaluate_eq_interpret nestedWords 12 _ hunused beforeNestedWords rfl] at heval
  obtain ⟨verdict, hverdict, hanswer⟩ := Option.map_eq_some_iff.1 heval
  rw [hverdict]
  exact ⟨hunused, rfl, by simpa [beforeNestedWords] using hanswer⟩

end Rule
end DocGrammar
