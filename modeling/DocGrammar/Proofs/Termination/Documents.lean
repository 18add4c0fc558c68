import DocGrammar.Proofs.Termination.Descent
import DocGrammar.Proofs.Termination.Loops
import DocGrammar.Proofs.Tracing.Written

/-!
# Reading a document terminates

A traced parse writes down which rule it enters at which offset, and when it leaves it.  `follow`
reads that from left to right and keeps the offsets of the recursive rules that have been entered
and not left; it gives up if one is entered that is not further on than all of these.  The main
result is that `follow` never gives up: each value and each member inside another begins at a
greater offset.  So they cannot be nested deeper than there are bytes, and a budget linear in the
input is enough, whatever the input is.
-/

set_option autoImplicit false

namespace DocGrammar

variable {U : Type} {input : Array UInt8}

/-! ## Following a trace -/

/-- Keeps the offsets of the rules that are open, the innermost first.  A rule that is not inert has
to be entered behind all of them. -/
def Event.follow (inert : String → Bool) (opened : List Nat) : Event → Option (List Nat)
  | .enter label offset =>
    if inert label then some opened
    else if opened.all (· < offset) then some (offset :: opened)
    else none
  | .leave label _ _ =>
    if inert label then some opened
    else
      match opened with
      | [] => none
      | _ :: around => some around
  | .failure _ => some opened
  | .report _ => some opened

/-- Follows events from the first to the last. -/
def follow (inert : String → Bool) (opened : List Nat) (events : List Event) :
    Option (List Nat) :=
  events.foldlM (Event.follow inert) opened

theorem follow_append (inert : String → Bool) (opened : List Nat) (events events' : List Event) :
    follow inert opened (events ++ events') =
      (follow inert opened events).bind fun opened ↦ follow inert opened events' :=
  List.foldlM_append

/-- Failures open nothing. -/
theorem follow_failures (inert : String → Bool) (opened : List Nat) (fs : List Failure) :
    follow inert opened (fs.map .failure) = some opened := by
  induction fs with
  | nil => rfl
  | cons f fs ih => exact ih

/-! ## What has been written down -/

namespace State

variable {s s' s'' : State input U}

/-- The conclusion from a choice writes down a failure at most. -/
theorem conclude_wrote (name : Option String) (offset : Nat) (before : State input U)
    (outcome : Outcome) (ended : State input U) :
    ∃ fs : List Failure,
      ended.Wrote (fs.map .failure) (Evaluate.conclude name offset before outcome ended) := by
  have hrejoin : (Evaluate.rejoin before.furthest ended.unsilenceErrors).trace = ended.trace :=
    rejoin_trace _ _
  unfold Evaluate.conclude
  split
  · exact ⟨[], wrote_nil hrejoin⟩
  · split
    · split
      · exact ⟨[], wrote_nil ((commitUnlessSilenced_trace _ _).trans hrejoin)⟩
      · exact ⟨[_], (wrote_nil hrejoin).trans (failAt_wrote _ _ _)⟩
    · exact ⟨[_], (wrote_nil hrejoin).trans (failAt_wrote _ _ _)⟩

/-- What has been written down since the first state leads back to the rules that were open there,
provided that they were entered before the cursor, or no further than `ahead` bytes behind it. -/
structure Deeper (ahead : Nat) (s s' : State input U) : Prop where
  cursor_le : s.cursor ≤ s'.cursor
  followed : ∃ events, s.Wrote events s' ∧ ∀ opened : List Nat,
    (∀ offset ∈ opened, offset < s.cursor + ahead) →
      follow TextGrammar.isInert opened events = some opened

theorem Deeper.of_trace_eq {ahead : Nat} (hcursor : s.cursor ≤ s'.cursor)
    (h : s'.trace = s.trace) : s.Deeper ahead s' :=
  ⟨hcursor, [], wrote_nil h, fun _ _ ↦ rfl⟩

theorem Deeper.trans_of_le {ahead ahead' : Nat} (h : s.Deeper ahead s')
    (h' : s'.Deeper ahead' s'') (hle : s.cursor + ahead ≤ s'.cursor + ahead') :
    s.Deeper ahead s'' := by
  obtain ⟨hcursor, events, hwrote, hfollow⟩ := h
  obtain ⟨hcursor', events', hwrote', hfollow'⟩ := h'
  refine ⟨Nat.le_trans hcursor hcursor', _, hwrote.trans hwrote', fun opened hopened ↦ ?_⟩
  rw [follow_append, hfollow opened hopened]
  exact hfollow' opened fun offset hoffset ↦ Nat.lt_of_lt_of_le (hopened offset hoffset) hle

theorem Deeper.trans {ahead : Nat} (h : s.Deeper ahead s') (h' : s'.Deeper ahead s'') :
    s.Deeper ahead s'' :=
  h.trans_of_le h' (Nat.add_le_add_right h.cursor_le ahead)

theorem Deeper.failures {ahead : Nat} (h : s.Deeper ahead s') (fs : List Failure)
    (hwrote : s'.Wrote (fs.map .failure) s'') (hcursor : s''.cursor = s'.cursor) :
    s.Deeper ahead s'' :=
  h.trans ⟨Nat.le_of_eq hcursor.symm, _, hwrote, fun opened _ ↦ follow_failures _ opened fs⟩

end State

open State in
/-- What is deeper is a matter of recursive rules only. -/
theorem deeper_steady (ahead : Nat) :
    Steady TextGrammar.isInert (fun _ ↦ true) (Deeper ahead : State input U → State input U → Prop)
    where
  refl s := .of_trace_eq (Nat.le_refl _) rfl
  trans h h' := h.trans h'
  cursor_le h := h.cursor_le
  forward h := .of_trace_eq h.cursor_le h.trace_eq
  fail s reason :=
    (Deeper.of_trace_eq (Nat.le_refl _) rfl).failures [_] (s.failAt_wrote _ reason)
      (failAt_cursor s _ reason)
  restore := by
    intro s s' h start hstart
    obtain ⟨-, events, hwrote, hfollow⟩ := h
    exact ⟨Nat.le_min.2 ⟨Nat.le_of_eq hstart.symm, s.cursor_le⟩, events, hwrote, hfollow⟩
  silently h := ⟨h.cursor_le, h.followed⟩
  conclude := by
    intro s ended h name outcome
    obtain ⟨fs, hwrote⟩ := conclude_wrote name s.cursor s outcome ended
    have hended : s.Deeper ahead ended := ⟨h.cursor_le, h.followed⟩
    exact hended.failures fs hwrote (Evaluate.conclude_same name s.cursor s outcome ended).cursor_eq
  within := by
    intro label hlabel s s' offset h offset' outcome
    obtain ⟨hcursor, events, hwrote, hfollow⟩ := h
    have hwrote' := ((s.noted_wrote fun _ ↦ .enter label offset).trans hwrote).trans
      (s'.noted_wrote fun _ ↦ .leave label offset' outcome)
    rw [noted_cursor] at hcursor hfollow
    refine ⟨by rwa [noted_cursor], _, hwrote', fun opened hopened ↦ ?_⟩
    have henter : follow TextGrammar.isInert opened [.enter label offset] = some opened := by
      simp [follow, Event.follow, hlabel]
    rw [follow_append, follow_append, henter, Option.bind_some, hfollow opened hopened]
    simp [follow, Event.follow, hlabel]

open State in
/-- A byte that is consumed makes room for one more rule to be open. -/
theorem deeper_descends :
    Descends TextGrammar.isInert (Deeper 0 : State input U → State input U → Prop) (Deeper 1) where
  outer := deeper_steady 0
  inner := deeper_steady 1
  behind h hlt h' := h.trans_of_le h' hlt
  enclosed := by
    intro label hlabel s s' h offset outcome
    obtain ⟨hcursor, events, hwrote, hfollow⟩ := h
    have hwrote' := ((s.noted_wrote fun _ ↦ .enter label s.cursor).trans hwrote).trans
      (s'.noted_wrote fun _ ↦ .leave label offset outcome)
    rw [noted_cursor] at hcursor hfollow
    refine ⟨by rwa [noted_cursor], _, hwrote', fun opened hopened ↦ ?_⟩
    have henter : follow TextGrammar.isInert opened [.enter label s.cursor] =
        some (s.cursor :: opened) := by
      simpa [follow, Event.follow, hlabel] using hopened
    have hdeeper : ∀ o ∈ s.cursor :: opened, o < s.cursor + 1 := by
      rintro o (_ | ⟨_, ho⟩)
      · exact Nat.lt_succ_self _
      · exact Nat.lt_succ_of_lt (hopened o ho)
    rw [follow_append, follow_append, henter, Option.bind_some, hfollow _ hdeeper]
    simp [follow, Event.follow, hlabel]

namespace TextGrammar

/-- **Reading a document terminates**, whatever the input is and wherever reading starts.  The
budget of `Doc.read`, which is linear in the bytes that are left, is enough, and every value and
member inside another is entered behind it.  Repetitions and the scan of fluff end by themselves:
without a bound on their rounds they come to the same, and a round that is followed by another has
advanced. -/
theorem document_terminates (input : Array UInt8) :
    (∀ (s : State input Builder) (spare : Nat), ∃ reply events,
      document.evaluate grammar (Doc.readBudget (input.size - s.cursor) + spare) s = some reply ∧
        reply.2.trace = s.trace.map (· ++ events.toArray) ∧
        follow isInert [] events = some []) ∧
    (∀ (body : Position → Step input Builder) (s s' : State input Builder),
      Evaluate.again body (input.size + 1 - s.cursor) s = some s' ↔ Evaluate.Loops body s s') ∧
    ∀ (mode : Fluff.Mode) (offset : Nat),
      Fluff.Rounds input mode offset (Fluff.scan input (input.size - offset) mode offset) := by
  refine ⟨fun s spare ↦ ?_, fun body s s' ↦ ?_, fun mode offset ↦ ?_⟩
  · have hbudget : 7 * (input.size - s.cursor) + wordHeight + 6 ≤
        Doc.readBudget (input.size - s.cursor) + spare := by
      rw [wordHeight, Doc.readBudget]
      omega
    obtain ⟨outcome, s', hreply, hdeeper⟩ :=
      document_sure deeper_descends _ hbudget s (Nat.le_refl _)
    obtain ⟨events, hwrote, hfollow⟩ := hdeeper.followed
    exact ⟨_, events, hreply, hwrote, hfollow [] (by simp)⟩
  · have hcursor := s.cursor_le
    exact Evaluate.again_eq_some_iff (by omega)
  · exact Fluff.scan_rounds mode (by omega)

/-- The recursive rules that are entered in reading `a=b`, and where. -/
example : (document.evaluate grammar 64
    { State.start #[0x61, 0x3D, 0x62] { current := { form := .node } } with
      trace := some #[] }).map (fun reply ↦ (reply.2.trace.getD #[]).toList.filterMap fun
        | .enter label offset => if isInert label then none else some (label, offset)
        | _ => none) =
    some [("member", 0), ("value", 2), ("member", 3)] := by
  decide +kernel

end TextGrammar
end DocGrammar
