import DocGrammar.Proofs.Termination.Steady

/-!
# How far failures lie

To tell which failure of a parse is the furthest, one has to know of all others that they are not
further on.  `State.Within` says so of the failures recorded so far, and `State.Marked` says which
one is the furthest.

A rule that cannot consume the byte at some offset does not get behind that offset, and records no
failure there either, whatever comes of it: that is `State.Tethered`, a relation the engine keeps,
so it holds of every finite rule for a class of bytes that the byte is not in.  If the furthest
failure lies behind that offset, it stays the furthest.  At the end of the input there is no byte at
all, and all of this holds of every rule.

What can consume the byte — a string, a comment, a bracket — may get behind the offset and come
back.  But if it succeeds before it, all is well: that is `State.Heeds`, which follows the cursor
and not the bytes.
-/

set_option autoImplicit false

namespace DocGrammar

variable {N U : Type} {input : Array UInt8}

namespace State

/-- No failure has been recorded beyond the bound. -/
def Within (bound : Nat) (s : State input U) : Prop :=
  ∀ f, s.furthest = some f → f.offset ≤ bound

/-- This is the furthest failure that has been recorded. -/
def Marked (f : Failure) (s : State input U) : Prop := s.furthest = some f

section

variable {bound : Nat} {f : Failure} {s s' : State input U}

theorem Within.congr (h : s.Within bound) (hfurthest : s'.furthest = s.furthest) :
    s'.Within bound := by
  rwa [Within, hfurthest]

theorem within_of_none (h : s.furthest = none) : s.Within bound := by
  intro f hf
  rw [h] at hf
  cases hf

theorem noted_furthest (s : State input U) (event : Unit → Event) :
    (s.noted event).furthest = s.furthest := by
  unfold noted
  split <;> rfl

theorem commitUnlessSilenced_furthest (s : State input U) (f : Failure) :
    (s.commitUnlessSilenced f).furthest = s.furthest := by
  unfold commitUnlessSilenced
  split <;> rfl

theorem failAt_furthest (s : State input U) (offset : Nat) (reason : Reason) :
    (s.failAt offset reason).2.furthest = later s.furthest ⟨offset, input[offset]?, reason⟩ := by
  rw [failAt, commitUnlessSilenced_furthest, record, noted_furthest]

theorem Within.failAt (h : s.Within bound) {offset : Nat} (hoffset : offset ≤ bound)
    (reason : Reason) : (s.failAt offset reason).2.Within bound := by
  intro f hf
  rw [failAt_furthest] at hf
  rcases later_cases s.furthest ⟨offset, input[offset]?, reason⟩ with hlater | hlater
  · rw [hlater] at hf
    cases hf
    exact hoffset
  · exact h f (hlater ▸ hf)

/-- Of failures at the same offset, the last one counts as the furthest. -/
theorem Within.later_eq {f : Failure} (h : s.Within f.offset) : later s.furthest f = some f := by
  rcases hfurthest : s.furthest with _ | e
  · rfl
  · exact if_pos (h e hfurthest)

theorem Within.rejoin {before ended : State input U} (hbefore : before.Within bound)
    (hended : ended.Within bound) :
    (Evaluate.rejoin before.furthest ended.unsilenceErrors).Within bound := by
  intro f hf
  rw [Evaluate.rejoin_furthest] at hf
  rcases hinner : ended.furthest with _ | inner
  · exact hbefore f (by simpa [further, unsilenceErrors, hinner] using hf)
  · have hlater : later before.furthest inner = some f := by
      simpa [further, unsilenceErrors, hinner] using hf
    rcases later_cases before.furthest inner with h | h
    · rw [h] at hlater
      cases hlater
      exact hended _ hinner
    · exact hbefore f (h ▸ hlater)

theorem Within.conclude {before ended : State input U} (hbefore : before.Within bound)
    (hended : ended.Within bound) (name : Option String) {offset : Nat} (hoffset : offset ≤ bound)
    (outcome : Outcome) : (Evaluate.conclude name offset before outcome ended).Within bound := by
  have hrejoined := hbefore.rejoin hended
  unfold Evaluate.conclude
  split
  · exact hrejoined
  · split
    · split
      · exact hrejoined.congr (commitUnlessSilenced_furthest _ _)
      · exact hrejoined.failAt hoffset _
    · exact hrejoined.failAt hoffset _

theorem Marked.congr (h : s.Marked f) (hfurthest : s'.furthest = s.furthest) : s'.Marked f :=
  hfurthest.trans h

/-- What fails where nothing has failed further on is the furthest. -/
theorem Within.marked_fail (h : s.Within s.cursor) (reason : Reason) :
    (s.fail reason).2.Marked ⟨s.cursor, input[s.cursor]?, reason⟩ := by
  rw [Marked, fail_eq, failAt_furthest]
  exact h.later_eq (f := ⟨_, _, _⟩)

/-- What fails before the furthest failure does not count. -/
theorem Marked.later_eq (h : s.Marked f) {e : Failure} (he : e.offset < f.offset) :
    later s.furthest e = some f := by
  rw [h]
  exact if_neg (Nat.not_le.2 he)

theorem Marked.failAt (h : s.Marked f) {offset : Nat} (hoffset : offset < f.offset)
    (reason : Reason) : (s.failAt offset reason).2.Marked f := by
  rw [Marked, failAt_furthest]
  exact h.later_eq hoffset

theorem Marked.fail (h : s.Marked f) (hcursor : s.cursor < f.offset) (reason : Reason) :
    (s.fail reason).2.Marked f :=
  h.failAt hcursor reason

/-- What attempts have recorded before the furthest failure does not count either. -/
theorem Marked.rejoin {before ended : State input U} (h : before.Marked f)
    (hended : ended.Within bound) (hbound : bound < f.offset) :
    (Evaluate.rejoin before.furthest ended.unsilenceErrors).Marked f := by
  rw [Marked, Evaluate.rejoin_furthest]
  show further before.furthest ended.furthest = _
  rcases hinner : ended.furthest with _ | inner
  · exact h
  · exact h.later_eq (Nat.lt_of_le_of_lt (hended _ hinner) hbound)

/-- The furthest failure among attempts is the furthest of all if nothing has failed further on
before. -/
theorem Within.rejoin_marked {before ended : State input U} (h : before.Within f.offset)
    (hended : ended.Marked f) :
    (Evaluate.rejoin before.furthest ended.unsilenceErrors).Marked f := by
  rw [Marked, Evaluate.rejoin_furthest]
  show further before.furthest ended.furthest = _
  rw [hended]
  exact h.later_eq

/-- A choice fails where it began, or where one of its attempts did. -/
theorem Marked.conclude_of_rejoin {before ended : State input U}
    (h : (Evaluate.rejoin before.furthest ended.unsilenceErrors).Marked f) (name : Option String)
    {offset : Nat} (hoffset : offset < f.offset) (outcome : Outcome) :
    (Evaluate.conclude name offset before outcome ended).Marked f := by
  unfold Evaluate.conclude
  split
  · exact h
  · split
    · split
      · exact h.congr (commitUnlessSilenced_furthest _ _)
      · exact h.failAt hoffset _
    · exact h.failAt hoffset _

end

/-! ## Not getting behind a byte -/

/-- If the cursor was not behind an offset, it is not behind it now, and no failure has been
recorded there; and a furthest failure there is still the furthest. -/
structure Tethered (stop : Nat) (s s' : State input U) : Prop where
  cursor_le : s.cursor ≤ s'.cursor
  stays : s.cursor ≤ stop → s'.cursor ≤ stop
  within : s.cursor ≤ stop → ∀ bound, stop ≤ bound → s.Within bound → s'.Within bound
  marked : s.cursor ≤ stop → ∀ f : Failure, stop < f.offset → s.Marked f → s'.Marked f

variable {stop : Nat} {s s' s'' : State input U}

theorem Tethered.refl (s : State input U) : s.Tethered stop s :=
  ⟨Nat.le_refl _, id, fun _ _ _ ↦ id, fun _ _ _ ↦ id⟩

theorem Tethered.trans (h : s.Tethered stop s') (h' : s'.Tethered stop s'') :
    s.Tethered stop s'' :=
  ⟨Nat.le_trans h.cursor_le h'.cursor_le, fun hs ↦ h'.stays (h.stays hs), fun hs bound hbound hw ↦
    h'.within (h.stays hs) bound hbound (h.within hs bound hbound hw), fun hs f hf hm ↦
    h'.marked (h.stays hs) f hf (h.marked hs f hf hm)⟩

theorem Tethered.of_furthest_eq (hcursor : s.cursor ≤ s'.cursor)
    (hstays : s.cursor ≤ stop → s'.cursor ≤ stop) (h : s'.furthest = s.furthest) :
    s.Tethered stop s' :=
  ⟨hcursor, hstays, fun _ _ _ hw ↦ hw.congr h, fun _ _ _ hm ↦ hm.congr h⟩

theorem noted_tethered (s : State input U) (event : Unit → Event) :
    s.Tethered stop (s.noted event) :=
  .of_furthest_eq (Nat.le_of_eq (s.noted_cursor event).symm) (fun hs ↦ (s.noted_cursor event) ▸ hs)
    (s.noted_furthest event)

end State

open State in
/-- Where the byte at an offset does not fit, the engine does not get behind it. -/
theorem tethered_steady {inert : String → Bool} {fits : UInt8 → Bool} {stop : Nat}
    (hstop : ∀ b, input[stop]? = some b → fits b = false) :
    Steady inert fits (Tethered stop : State input U → State input U → Prop) where
  refl := Tethered.refl
  trans h h' := h.trans h'
  cursor_le h := h.cursor_le
  forward := by
    intro s s' h
    refine .of_furthest_eq h.cursor_le (fun hs ↦ Nat.not_lt.1 fun hlt ↦ ?_) h.furthest_eq
    have hsize : stop < input.size := Nat.lt_of_lt_of_le hlt s'.cursor_le
    have hbyte := Array.getElem?_eq_getElem hsize
    have hfits := h.fits_between hs hlt hbyte
    rw [hstop _ hbyte] at hfits
    cases hfits
  fail s reason := by
    refine ⟨Nat.le_of_eq (failAt_cursor s _ reason).symm, fun hs ↦ ?_, fun hs bound hbound hw ↦ ?_,
      fun hs f hf hm ↦ ?_⟩
    · rwa [fail_eq, failAt_cursor]
    · exact hw.failAt (Nat.le_trans hs hbound) reason
    · exact hm.fail (Nat.lt_of_le_of_lt hs hf) reason
  restore := by
    intro s s' h start hstart
    -- the cursor is back, but what has been recorded stays
    have hcursor : (s'.restore start).cursor = s.cursor :=
      (Nat.min_eq_left (hstart ▸ s.cursor_le)).trans hstart
    exact ⟨Nat.le_of_eq hcursor.symm, fun hs ↦ hcursor ▸ hs, fun hs bound hbound hw ↦
      (h.within hs bound hbound hw).congr rfl, fun hs f hf hm ↦ (h.marked hs f hf hm).congr rfl⟩
  silently h := ⟨h.cursor_le, h.stays, fun hs bound hbound hw ↦ h.within hs bound hbound hw,
    fun hs f hf hm ↦ h.marked hs f hf hm⟩
  conclude := by
    intro s ended h name outcome
    have hcursor : (Evaluate.conclude name s.cursor s outcome ended).cursor = ended.cursor :=
      (Evaluate.conclude_same name s.cursor s outcome ended).cursor_eq
    refine ⟨hcursor ▸ h.cursor_le, fun hs ↦ hcursor ▸ h.stays hs, fun hs bound hbound hw ↦ ?_,
      fun hs f hf hm ↦ ?_⟩
    · exact hw.conclude (h.within hs bound hbound (within_of_none rfl)) name
        (Nat.le_trans hs hbound) outcome
    · have hended : ended.Within stop :=
        h.within hs stop (Nat.le_refl _) (within_of_none rfl)
      exact (hm.rejoin hended hf).conclude_of_rejoin name (Nat.lt_of_le_of_lt hs hf) outcome
  within _ s s' _ h _ _ := (noted_tethered s _).trans (h.trans (noted_tethered s' _))

end DocGrammar
