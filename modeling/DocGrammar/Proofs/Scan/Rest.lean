import DocGrammar.Proofs.Backtracking

/-!
# The rest of the input

Matching reads from the cursor on, so what a rule does is best said in terms of the rest of the
input: it takes a *token* off the rest, and adds values to the result stack.  `State.Took` says so
of two states, and `State.rest_eq` and the lemmas after it turn what the engine asks about offsets
into what that means for the rest.

Diagnostics never show in any of this.  `State.Same` relates states that differ in nothing else,
and the last section of the file shows that a choice and the going back of a rule do what they do
to the rest of the state without regard to diagnostics.
-/

set_option autoImplicit false

namespace DocGrammar

variable {N U : Type} {input : Array UInt8}

namespace State

/-! ## Offsets and the rest -/

theorem between_eq (input : Array UInt8) (low high : Nat) :
    between input low high = (input.toList.drop low).take (high - low) := by
  rw [between, Array.toList_extract, List.extract_eq_take_drop]

theorem rest_eq (s : State input U) : s.rest = input.toList.drop s.cursor := by
  rw [rest, between_eq, List.take_of_length_le (by simp)]

theorem length_rest (s : State input U) : s.rest.length = input.size - s.cursor := by
  rw [rest_eq, List.length_drop, Array.length_toList]

theorem rest_eq_of_cursor_eq {s s' : State input U} (h : s'.cursor = s.cursor) :
    s'.rest = s.rest := by
  rw [rest_eq, rest_eq, h]

theorem peekAt_eq (s : State input U) (ahead : Nat) : s.peekAt ahead = s.rest[ahead]? := by
  rw [peekAt, rest_eq, List.getElem?_drop, Array.getElem?_toList]

theorem peek_eq (s : State input U) : s.peek = s.rest.head? := by
  rw [List.head?_eq_getElem?, ← peekAt_eq]
  rfl

theorem getElem?_of_drop_eq_nil {input : Array UInt8} {offset : Nat}
    (h : input.toList.drop offset = []) : input[offset]? = none := by
  rw [List.drop_eq_nil_iff] at h
  rw [← Array.getElem?_toList, List.getElem?_eq_none h]

theorem getElem?_of_drop_eq_cons {input : Array UInt8} {offset : Nat} {b : UInt8}
    {rest : List UInt8} (h : input.toList.drop offset = b :: rest) :
    input[offset]? = some b ∧ input.toList.drop (offset + 1) = rest := by
  constructor
  · rw [← Array.getElem?_toList, ← List.head?_drop, h, List.head?_cons]
  · rw [← List.drop_drop, h, List.drop_one, List.tail_cons]

theorem getElem?_succ_of_drop {input : Array UInt8} {offset : Nat} {b : UInt8} {rest : List UInt8}
    (h : input.toList.drop offset = b :: rest) : input[offset + 1]? = rest.head? := by
  rw [← (getElem?_of_drop_eq_cons h).2, List.head?_drop, Array.getElem?_toList]

theorem holdsAt_eq (input : Array UInt8) : ∀ (bytes : List UInt8) (offset : Nat),
    holdsAt input offset bytes = bytes.isPrefixOf (input.toList.drop offset)
  | [], _ => by rw [holdsAt, List.isPrefixOf]
  | b :: bytes, offset => by
    rw [holdsAt, holdsAt_eq input bytes]
    cases h : input.toList.drop offset with
    | nil =>
      rw [getElem?_of_drop_eq_nil h]
      rfl
    | cons c rest =>
      obtain ⟨hc, hrest⟩ := getElem?_of_drop_eq_cons h
      rw [hc, hrest, List.isPrefixOf, Option.some_beq_some, BEq.comm]

/-! ## Taking a token -/

/-- What becomes of new values: nothing, where results are silenced. -/
def heard (s : State input U) (values : List Value) : List Value :=
  if s.resultsSilenced = 0 then values else []

@[simp] theorem heard_nil (s : State input U) : s.heard [] = [] := ite_self _

/-- The second state is reached from the first by taking a token off the rest of the input, adding
values to the results, and making the grammar's data what is given. -/
structure Took (s : State input U) (token rest : List UInt8) (values : List Value) (user : U)
    (s' : State input U) : Prop where
  /-- The input is the token and what is left. -/
  input_eq : s.rest = token ++ rest
  /-- The cursor is behind the token. -/
  cursor_eq : s'.cursor = s.cursor + token.length
  /-- The values are the newest results. -/
  results_eq : s'.results = s.results ++ s.heard values
  /-- Failures are silenced as before. -/
  errorsSilenced_eq : s'.errorsSilenced = s.errorsSilenced
  /-- Results are silenced as before. -/
  resultsSilenced_eq : s'.resultsSilenced = s.resultsSilenced
  /-- The grammar's data is as given. -/
  user_eq : s'.user = user

/-- The two states differ in nothing but diagnostics. -/
structure Same (s s' : State input U) : Prop extends Undone s s' where
  /-- The grammar's data is the same. -/
  user_eq : s'.user = s.user

/-- The second state extends the first, and has the same data. -/
structure Beyond (s s' : State input U) : Prop extends Extends s s' where
  /-- The grammar's data is the same. -/
  user_eq : s'.user = s.user

section

variable {s s' s'' : State input U} {token rest token' rest' : List UInt8}
  {values values' : List Value} {user user' : U}

theorem Same.refl (s : State input U) : s.Same s := ⟨Undone.refl s, rfl⟩

theorem Same.trans (h : s.Same s') (h' : s'.Same s'') : s.Same s'' :=
  ⟨h.toUndone.trans h'.toUndone, h'.user_eq.trans h.user_eq⟩

theorem Same.beyond (h : s.Same s') : s.Beyond s' := ⟨h.toUndone.extends, h.user_eq⟩

theorem Same.rest_eq (h : s.Same s') : s'.rest = s.rest := rest_eq_of_cursor_eq h.cursor_eq

theorem Beyond.trans (h : s.Beyond s') (h' : s'.Beyond s'') : s.Beyond s'' :=
  ⟨h.toExtends.trans h'.toExtends, h'.user_eq.trans h.user_eq⟩

theorem Beyond.same_restore (h : s.Beyond s') : s.Same (s'.restore s.position) :=
  ⟨h.toExtends.undone_restore rfl, h.user_eq⟩

theorem failAt_same (s : State input U) (offset : Nat) (reason : Reason) :
    s.Same (s.failAt offset reason).2 :=
  ⟨s.failAt_undone offset reason, failAt_user s offset reason⟩

theorem noted_same (s : State input U) (event : Unit → Event) : s.Same (s.noted event) :=
  ⟨s.noted_undone event, noted_user s event⟩

/-- Taking the empty token and adding nothing. -/
theorem Took.refl (s : State input U) : s.Took [] s.rest [] s.user s :=
  ⟨rfl, rfl, by simp, rfl, rfl, rfl⟩

theorem Took.rest_eq (h : s.Took token rest values user s') : s'.rest = rest := by
  rw [State.rest_eq, h.cursor_eq, ← List.drop_drop, ← State.rest_eq, h.input_eq,
    List.drop_left]

theorem Took.heard_eq (h : s.Took token rest values user s') (values' : List Value) :
    s'.heard values' = s.heard values' := by
  rw [heard, heard, h.resultsSilenced_eq]

theorem Took.trans (h : s.Took token rest values user s')
    (h' : s'.Took token' rest' values' user' s'') :
    s.Took (token ++ token') rest' (values ++ values') user' s'' where
  input_eq := by rw [h.input_eq, ← h.rest_eq, h'.input_eq, List.append_assoc]
  cursor_eq := by rw [h'.cursor_eq, h.cursor_eq, List.length_append, Nat.add_assoc]
  results_eq := by
    rw [h'.results_eq, h.results_eq, h.heard_eq, List.append_assoc]
    unfold heard
    split <;> simp
  errorsSilenced_eq := h'.errorsSilenced_eq.trans h.errorsSilenced_eq
  resultsSilenced_eq := h'.resultsSilenced_eq.trans h.resultsSilenced_eq
  user_eq := h'.user_eq

theorem Took.trans_same (h : s.Took token rest values user s') (h' : s'.Same s'') :
    s.Took token rest values user s'' :=
  ⟨h.input_eq, h'.cursor_eq.trans h.cursor_eq, h'.results_eq.trans h.results_eq,
    h'.errorsSilenced_eq.trans h.errorsSilenced_eq,
    h'.resultsSilenced_eq.trans h.resultsSilenced_eq, h'.user_eq.trans h.user_eq⟩

theorem Same.trans_took (h : s.Same s') (h' : s'.Took token rest values user s'') :
    s.Took token rest values user s'' where
  input_eq := h.rest_eq ▸ h'.input_eq
  cursor_eq := by rw [h'.cursor_eq, h.cursor_eq]
  results_eq := by rw [h'.results_eq, h.results_eq, heard, heard, h.resultsSilenced_eq]
  errorsSilenced_eq := h'.errorsSilenced_eq.trans h.errorsSilenced_eq
  resultsSilenced_eq := h'.resultsSilenced_eq.trans h.resultsSilenced_eq
  user_eq := h'.user_eq

theorem Took.extends (h : s.Took token rest values user s') : s.Extends s' :=
  ⟨h.cursor_eq ▸ Nat.le_add_right _ _, h.results_eq ▸ List.prefix_append _ _,
    h.errorsSilenced_eq, h.resultsSilenced_eq⟩

theorem Took.beyond (h : s.Took token rest values s.user s') : s.Beyond s' :=
  ⟨h.extends, h.user_eq⟩

theorem Took.unsilenceErrors (h : s.silenceErrors.Took token rest values user s') :
    s.Took token rest values user s'.unsilenceErrors :=
  ⟨h.input_eq, h.cursor_eq, h.results_eq, h.extends.unsilenceErrors.errorsSilenced_eq,
    h.resultsSilenced_eq, h.user_eq⟩

/-- What was consumed since the position at which a token was taken is the token. -/
theorem Took.matched_eq (h : s.Took token rest values user s') :
    s'.matched s.position = token := by
  have hmin : min s.cursor s'.cursor = s.cursor :=
    Nat.min_eq_left (h.cursor_eq ▸ Nat.le_add_right _ _)
  rw [matched, position, hmin, between_eq, h.cursor_eq, Nat.add_sub_cancel_left, ← State.rest_eq,
    h.input_eq, List.take_left]

/-- The results since that position are the values, where results are heard. -/
theorem Took.resultsSince_eq (h : s.Took token rest values user s') (hs : s.resultsSilenced = 0) :
    s'.resultsSince s.position = values := by
  rw [resultsSince, h.results_eq, position, List.drop_left, heard, if_pos hs]

theorem advance_took {token rest : List UInt8} (h : s.rest = token ++ rest) :
    s.Took token rest [] s.user (s.advance token.length) := by
  have hlength : token.length ≤ s.rest.length := h ▸ List.length_append ▸ Nat.le_add_right _ _
  have hcursor : min (s.cursor + token.length) input.size = s.cursor + token.length := by
    have := s.length_rest
    have := s.cursor_le
    omega
  exact ⟨h, hcursor, by simp [advance, moveTo], rfl, rfl, rfl⟩

theorem moveTo_took (s : State input U) {offset : Nat} (h : s.cursor ≤ offset)
    (hsize : offset ≤ input.size) :
    s.Took (s.rest.take (offset - s.cursor)) (input.toList.drop offset) [] s.user
      (s.moveTo offset) := by
  have hcursor : min offset input.size = offset := Nat.min_eq_left hsize
  refine ⟨?_, ?_, by simp [moveTo], rfl, rfl, rfl⟩
  · have hdrop : s.rest.drop (offset - s.cursor) = input.toList.drop offset := by
      rw [rest_eq, List.drop_drop, Nat.add_sub_cancel' h]
    rw [← hdrop, List.take_append_drop]
  · show min offset input.size = _
    rw [hcursor, List.length_take, length_rest]
    omega

theorem push_took (s : State input U) (value : Value) :
    s.Took [] s.rest [value] s.user (s.push value) := by
  unfold push
  split
  · next hs => exact ⟨rfl, rfl, by simp [heard, hs], rfl, rfl, rfl⟩
  · next hs => exact ⟨rfl, rfl, by simp [heard, hs], rfl, rfl, rfl⟩

/-- A token and a value. -/
theorem advance_push_took {token rest : List UInt8} (h : s.rest = token ++ rest) (value : Value) :
    s.Took token rest [value] s.user ((s.advance token.length).push value) := by
  have hadvance := advance_took h
  have hboth := hadvance.trans ((s.advance token.length).push_took value)
  rwa [List.append_nil, List.nil_append, hadvance.rest_eq, hadvance.user_eq] at hboth

end
end State

/-! ## Choices and going back, without diagnostics -/

namespace Evaluate

theorem firstOf_outcome {eval : Rule N U → Step input U} {start : Position} :
    ∀ {rules : List (Rule N U)} {s : State input U} {reply : Reply input U},
      firstOf eval start rules s = some reply → reply.1 = .ok ∨ reply.1 = .fail
  | [], _, _, h => by
    cases h
    exact .inr rfl
  | rule :: rest, s, reply, h => by
    rw [firstOf] at h
    split at h
    · cases h
    · cases h
      exact .inl rfl
    · exact firstOf_outcome h

theorem rejoin_same (outer : Option Failure) (s : State input U) : s.Same (rejoin outer s) := by
  refine ⟨rejoin_undone outer s, ?_⟩
  unfold rejoin
  split <;> rfl

/-- A choice is the first of its attempts, but for diagnostics. -/
theorem choice_eq {eval : Rule N U → Step input U} (name : Option String)
    {rules : List (Rule N U)} {start : Position} {s ended : State input U} {outcome : Outcome}
    (h : firstOf eval start rules { s.silenceErrors with furthest := none } =
      some (outcome, ended)) :
    ∃ s', choice eval name rules start s = some (outcome, s') ∧ ended.unsilenceErrors.Same s' := by
  have hrejoin := rejoin_same s.furthest ended.unsilenceErrors
  rw [choice, h]
  rcases firstOf_outcome h with rfl | rfl
  · exact ⟨_, rfl, hrejoin⟩
  · simp only [reduceCtorEq, if_false]
    split
    · next inner _ =>
      split
      · exact ⟨_, rfl, hrejoin.trans ⟨by constructor <;> simp, by simp⟩⟩
      · exact ⟨_, rfl, hrejoin.trans (State.failAt_same _ _ _)⟩
    · exact ⟨_, rfl, hrejoin.trans (State.failAt_same _ _ _)⟩

end Evaluate

/-- A rule is its body from the current position, and going back unless that succeeds, but for
diagnostics. -/
theorem Rule.step_eq (g : Grammar N U) (eval : Rule N U → Step input U) (r : Rule N U)
    (s : State input U) :
    ∃ entered, s.Same entered ∧ ∀ reply,
      Evaluate.modified r.modifiers (Evaluate.kind g eval r.name r.kind) entered.position entered =
        some reply →
      ∃ s', r.step g eval s = some ((settle entered.position reply).1, s') ∧
        (settle entered.position reply).2.Same s' := by
  have hentered := State.noted_same s fun _ ↦ .enter (r.label g) s.position.offset
  refine ⟨_, hentered, fun reply h ↦ ?_⟩
  rw [hentered.position_eq] at h ⊢
  rw [step, h]
  exact ⟨_, rfl, State.noted_same _ _⟩

end DocGrammar
