import DocGrammar.Proofs.Diagnostics.Accounts
import DocGrammar.Proofs.GrammarActions

/-!
# Plain actions

Nearly all actions do the same simple thing as far as the engine is concerned: they move the cursor
on, or leave it where it is, change results and data, and then succeed, or fail at the place they
have come to.  A `PlainAction` is one that does; a parameter says which bytes it may move over.
All direct actions of the grammar of documents are plain, and those on words move over nothing.

Whatever is plain is honest, so documents are among the languages whose diagnostics are exact.
-/

set_option autoImplicit false

namespace DocGrammar

variable {N U : Type} {input : Array UInt8} {fits : UInt8 → Bool}

/-! ## Moving on -/

namespace State

/-- The second state is no less far on, the bytes between fit, and the diagnostics are the same. -/
structure Forward (fits : UInt8 → Bool) (s s' : State input U) : Prop extends s.Quiet s' where
  /-- The cursor does not go back. -/
  cursor_le : s.cursor ≤ s'.cursor
  /-- The bytes that were consumed fit. -/
  fits_between : ∀ ⦃i : Nat⦄ ⦃b : UInt8⦄, s.cursor ≤ i → i < s'.cursor → input[i]? = some b →
    fits b = true

variable {s s' s'' : State input U}

/-- What changes in place need not fit. -/
theorem Quiet.forward (h : s.Quiet s') (hcursor : s'.cursor = s.cursor) : s.Forward fits s' :=
  ⟨h, Nat.le_of_eq hcursor.symm, fun _ _ hlow hhigh ↦
    absurd (hcursor ▸ hhigh) (Nat.not_lt.2 hlow)⟩

/-- Where everything fits, so does whatever is moved over. -/
theorem moveTo_forward {offset : Nat} (h : s.cursor ≤ offset) :
    s.Forward (fun _ ↦ true) (s.moveTo offset) :=
  ⟨s.moveTo_quiet offset, Nat.le_min.2 ⟨h, s.cursor_le⟩, fun _ _ _ _ _ ↦ rfl⟩

theorem Forward.trans_quiet (h : s.Forward fits s') (h' : s'.Quiet s'')
    (hcursor : s''.cursor = s'.cursor) : s.Forward fits s'' :=
  ⟨h.toQuiet.trans h', hcursor ▸ h.cursor_le, fun _ _ hlow hhigh ↦
    h.fits_between hlow (hcursor ▸ hhigh)⟩

@[simp] theorem push_cursor (s : State input U) (value : Value) :
    (s.push value).cursor = s.cursor := by
  unfold push
  split <;> rfl

theorem advance_one_forward {b : UInt8} (hpeek : s.peek = some b) (hb : fits b = true) :
    s.Forward fits (s.advance 1) :=
  ⟨s.advance_quiet 1, Nat.le_min.2 ⟨Nat.le_succ _, s.cursor_le⟩, advance_one_fits hpeek hb⟩

theorem advance_forward {bytes : List UInt8} (hholds : holdsAt input s.cursor bytes = true)
    (hbytes : bytes.all fits = true) : s.Forward fits (s.advance bytes.length) :=
  ⟨s.advance_quiet _, Nat.le_min.2 ⟨Nat.le_add_right _ _, s.cursor_le⟩,
    advance_fits hholds hbytes⟩

end State

/-! ## Replies and actions -/

/-- A reply that succeeds or fails at the place that was moved to. -/
def PlainTo (fits : UInt8 → Bool) (s : State input U) (reply : Reply input U) : Prop :=
  ∃ s', s.Forward fits s' ∧ (reply = (.ok, s') ∨ ∃ reason, reply = s'.fail reason)

/-- A direct action that moves on, and succeeds or fails where it has come to. -/
def PlainReply (fits : UInt8 → Bool) (act : DirectAction U) : Prop :=
  ∀ ⦃input : Array UInt8⦄ (s : State input U) (start : Position), PlainTo fits s (act s start)

/-- An action that asks for nothing, moves on, and succeeds or fails where it has come to. -/
def PlainAction (fits : UInt8 → Bool) (action : Action N U) : Prop :=
  ∀ ⦃input : Array UInt8⦄ (s : State input U) (start : Position),
    ∃ reply, action s start = .done reply ∧ PlainTo fits s reply

theorem PlainReply.toAction {act : DirectAction U} (h : PlainReply fits @act) :
    PlainAction (N := N) fits (DirectAction.toAction @act) :=
  fun _ s start ↦ ⟨_, rfl, h s start⟩

namespace PlainTo

variable {s s' : State input U}

theorem ok (h : s.Forward fits s') : PlainTo fits s (.ok, s') := ⟨s', h, .inl rfl⟩

theorem fail (h : s.Forward fits s') (reason : Reason) : PlainTo fits s (s'.fail reason) :=
  ⟨s', h, .inr ⟨reason, rfl⟩⟩

theorem ok_still (h : s.Quiet s') (hcursor : s'.cursor = s.cursor) : PlainTo fits s (.ok, s') :=
  ok (h.forward hcursor)

theorem fail_still (s : State input U) (reason : Reason) : PlainTo fits s (s.fail reason) :=
  fail ((State.Quiet.refl s).forward rfl) reason

theorem okWith (s : State input U) (value : Value) : PlainTo fits s (s.okWith value) :=
  ok_still (s.push_quiet value) (s.push_cursor value)

theorem okReplace (s : State input U) (start : Position) (value : Value) :
    PlainTo fits s (s.okReplace start value) :=
  ok_still ((s.truncate_quiet start).trans (State.push_quiet _ value)) (State.push_cursor _ value)

/-- What is plain is honest. -/
theorem honest {reply : Reply input U} (h : PlainTo fits s reply) : HonestTo s reply := by
  obtain ⟨s', hforward, rfl | ⟨reason, rfl⟩⟩ := h
  · exact .of_quiet hforward.toQuiet (by decide)
  · exact .fail_of_quiet hforward.toQuiet reason

end PlainTo

namespace Evaluate

theorem given_plain (s : State input U) (condition : Bool) (reason : Reason) :
    PlainTo fits s (given condition reason s) := by
  cases condition with
  | true => exact .ok_still (.refl s) rfl
  | false => exact .fail_still s reason

theorem oneByte_plain (s : State input U) {accepts : UInt8 → Bool}
    (haccepts : ∀ b, accepts b = true → fits b = true) (reason : Reason) :
    PlainTo fits s (oneByte accepts reason s) := by
  unfold oneByte
  split
  · next b hpeek =>
    split
    · next hb =>
      exact .ok ((State.advance_one_forward hpeek (haccepts b hb)).trans_quiet
        (State.push_quiet _ _) (State.push_cursor _ _))
    · exact .fail_still s reason
  · exact .fail_still s reason

theorem literal_plain (s : State input U) {bytes : List UInt8} (hbytes : bytes.all fits = true)
    (start : Position) : PlainTo fits s (literal bytes start s) := by
  unfold literal
  split
  · next hholds =>
    exact .ok ((State.advance_forward hholds hbytes).trans_quiet (State.push_quiet _ _)
      (State.push_cursor _ _))
  · exact .fail_still s _

end Evaluate

theorem PlainAction.honest {action : Action N U} (h : PlainAction fits @action) :
    HonestAction @action := by
  intro input s start
  obtain ⟨reply, hreply, hplain⟩ := h s start
  rw [hreply]
  exact hplain.honest.done

/-! ## Numbers -/

theorem closeUnsigned_plain (radix : Nat) :
    PlainReply fits (Leaf.closeUnsigned (U := U) radix) := by
  intro input s start
  dsimp only [Leaf.closeUnsigned]
  split
  · exact .okReplace s start _
  · exact .fail_still s _

theorem closeSigned_plain : PlainReply fits (Leaf.closeSigned (U := U)) := by
  intro input s start
  dsimp only [Leaf.closeSigned]
  split
  · exact .fail_still s _
  · split
    · exact .okReplace s start _
    · exact .fail_still s _

theorem closeDecimal_plain : PlainReply fits (Leaf.closeDecimal (U := U)) := by
  intro input s start
  dsimp only [Leaf.closeDecimal]
  split
  · exact .fail_still s _
  · split
    · exact .okReplace s start _
    · exact .fail_still s _

/-! ## Fluff -/

theorem Fluff.le_scan (rounds : Nat) (mode : Fluff.Mode) (offset : Nat) :
    offset ≤ (Fluff.scan input rounds mode offset).2 := by
  fun_induction Fluff.scan input rounds mode offset <;> grind

theorem skip_plain : PlainReply (fun _ ↦ true) (Fluff.skip (U := U)) := by
  intro input s start
  have hle : s.cursor ≤ (Fluff.scan input (input.size - s.cursor) .between s.cursor).2 :=
    Fluff.le_scan _ _ _
  dsimp only [Fluff.skip]
  generalize Fluff.scan input (input.size - s.cursor) .between s.cursor = found at hle ⊢
  obtain ⟨ending, offset⟩ := found
  have hforward : s.Forward (fun _ ↦ true) (s.moveTo offset) := State.moveTo_forward hle
  cases ending with
  | clean => exact .ok hforward
  | straySlash => exact .fail hforward _
  | unclosed => exact .fail hforward _

/-! ## The actions of the grammar of documents -/

namespace TextGrammar

theorem delimiter_plain : PlainReply fits delimiter := by
  intro input s start
  dsimp only [delimiter]
  split
  · split
    · exact .fail_still s _
    · exact .ok_still (.refl s) rfl
  · exact .ok_still (.refl s) rfl

theorem rejectNumber_plain : PlainReply fits rejectNumber := by
  intro input s start
  dsimp only [rejectNumber]
  split
  · split
    · exact .fail_still s _
    · exact .fail_still s _
  · exact .fail_still s _

theorem built_plain (s : State input Builder) (start : Position) (change : Builder → Builder) :
    PlainTo fits s (built s start change) :=
  .ok_still ⟨rfl, rfl, rfl, rfl, rfl, rfl⟩ rfl

theorem keepText_plain (text : Option String) (s : State input Builder) (start : Position) :
    PlainTo fits s (keepText text s start) := by
  cases text with
  | none => exact .fail_still s _
  | some text => exact built_plain s start fun b ↦ { b with scratch := text }

theorem emitScalar_plain : PlainReply fits emitScalar := by
  intro input s start
  dsimp only [emitScalar]
  split
  · exact built_plain s start _
  · exact .fail_still s _

theorem emitVector_plain : PlainReply fits emitVector := by
  intro input s start
  dsimp only [emitVector]
  split
  · split
    · exact built_plain s start _
    · exact .fail_still s _
  · split
    · exact .fail_still s _
    · exact .fail_still s _

theorem documentEnd_plain : PlainReply fits documentEnd := by
  intro input s start
  dsimp only [documentEnd]
  split
  · exact .ok_still (.refl s) rfl
  · split
    · exact .fail_still s _
    · split
      · exact .fail_still s _
      · split
        · exact .fail_still s _
        · exact .fail_still s _

theorem quotedEnd_plain : PlainReply (fun _ ↦ true) quotedEnd := by
  intro input s start
  dsimp only [quotedEnd]
  split
  · next hpeek =>
    split
    · exact .ok (State.advance_one_forward hpeek rfl)
    · split
      · exact .fail_still s _
      · exact .fail_still s _
  · exact .fail_still s _

theorem blockBody_plain : PlainReply (fun _ ↦ true) blockBody := by
  intro input s start
  dsimp only [blockBody]
  split
  · exact .ok ((State.moveTo_forward (Nat.le_add_right _ _)).trans_quiet (State.push_quiet _ _)
      (State.push_cursor _ _))
  · exact .fail (State.moveTo_forward s.cursor_le) _

theorem collectionEnd_plain (form : Form) :
    PlainReply (fun _ ↦ true) (collectionEnd form) := by
  intro input s start
  dsimp only [collectionEnd]
  split
  · next hpeek =>
    split
    · exact .ok (State.advance_one_forward hpeek rfl)
    · exact .fail_still s _
  · exact .fail_still s _

theorem words_plain (fits : UInt8 → Bool) : WordActions (PlainAction fits) where
  okWith value _ := PlainReply.toAction fun _ s _ ↦ .okWith s value
  closeDecimal := closeDecimal_plain.toAction
  closeUnsigned radix := (closeUnsigned_plain radix).toAction
  closeSigned := closeSigned_plain.toAction
  delimiter := delimiter_plain.toAction
  rejectNumber := rejectNumber_plain.toAction
  keepRaw := PlainReply.toAction fun _ s start ↦ keepText_plain _ s start
  keepUnescaped := PlainReply.toAction fun _ s start ↦ keepText_plain _ s start
  emitScalar := emitScalar_plain.toAction
  emitString := PlainReply.toAction fun _ s start ↦ built_plain s start _
  emitVector := emitVector_plain.toAction
  setName := PlainReply.toAction fun _ s start ↦ built_plain s start _
  documentEnd := documentEnd_plain.toAction

theorem actions_plain : DirectActions (PlainAction fun _ ↦ true) where
  toWordActions := words_plain _
  skip := skip_plain.toAction
  quotedEnd := quotedEnd_plain.toAction
  blockBody := blockBody_plain.toAction
  collectionEnd form := (collectionEnd_plain form).toAction

end TextGrammar
end DocGrammar
