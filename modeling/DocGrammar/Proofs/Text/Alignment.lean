import DocGrammar.Proofs.Sustained
import DocGrammar.Proofs.Text.Tokens

/-!
# What a reading of text writes down

A state is *legible* if nothing that has been traced or is to be reported speaks of bytes that are
no text, and the tokens that have been traced begin and end at boundaries.  It is *aligned* if it is
also at a boundary itself, and all spans among its results are texts.

The engine leads from one legible state to another whatever bytes it consumes, as long as no token
is entered; and from one aligned state to another as long as it consumes ASCII only
(`legible_guarded`, `aligned_guarded`).  An action leads from an aligned state to an aligned one
(`actions_aligned`): those that decode a span are given a text.  What is left are the runs of bytes
in which characters beyond ASCII may stand.  Inside, they are legible; and what they come to as a
whole is a matter of their scanners (`run_sustains`).
-/

set_option autoImplicit false

namespace DocGrammar

open Utf8 (IsText IsBoundary)

variable {input : Array UInt8}

/-! ## Events and states -/

namespace TextGrammar

/-- The failure of an action that got bytes which are no text. -/
def noText : Reason := .message "invalid UTF-8 in string"

/-- The rules for strings in their three spellings. -/
def tokens : List TextRule := [identifier, quotedString, blockString]

/-- Whether a label is that of a rule for strings. -/
def isToken (label : String) : Bool := (tokens.map (Rule.label grammar)).contains label

end TextGrammar

/-- An event that does not speak of bytes which are no text; and that is at a boundary, if it is
about a token. -/
def Event.Legible (input : Array UInt8) : Event → Prop
  | .enter label offset => TextGrammar.isToken label = true → IsBoundary input offset
  | .leave label offset _ => TextGrammar.isToken label = true → IsBoundary input offset
  | .failure f => f.reason ≠ TextGrammar.noText
  | .report _ => True

namespace State

/-- Neither the trace nor the failures that might be reported speak of bytes which are no text. -/
structure Legible (s : State input Builder) : Prop where
  trace : ∀ events ∈ s.trace, ∀ event ∈ events, event.Legible input
  furthest : ∀ f ∈ s.furthest, f.reason ≠ TextGrammar.noText
  error : ∀ f ∈ s.error, f.reason ≠ TextGrammar.noText

/-- The state is at a boundary, and the spans among its results are texts. -/
structure Aligned (s : State input Builder) : Prop extends s.Legible where
  boundary : IsBoundary input s.cursor
  spans : ∀ value ∈ s.results, value.IsText

variable {s s' ended : State input Builder} {f : Failure}

/-! ### Legible states -/

namespace Legible

theorem of_eq (h : s.Legible) (htrace : s'.trace = s.trace) (hfurthest : s'.furthest = s.furthest)
    (herror : s'.error = s.error) : s'.Legible :=
  ⟨htrace ▸ h.trace, hfurthest ▸ h.furthest, herror ▸ h.error⟩

theorem of_quiet (h : s.Legible) (hs : s.Quiet s') : s'.Legible :=
  h.of_eq hs.trace_eq hs.furthest_eq hs.error_eq

theorem noted (h : s.Legible) (event : Unit → Event) (hevent : (event ()).Legible input) :
    (s.noted event).Legible := by
  unfold State.noted
  split
  · exact h
  · next events hevents =>
    refine ⟨fun events' hevents' e he ↦ ?_, h.furthest, h.error⟩
    cases hevents'
    rcases Array.mem_push.1 he with he | rfl
    · exact h.trace events hevents e he
    · exact hevent

theorem later_reason {earlier : Option Failure}
    (hearlier : ∀ f ∈ earlier, f.reason ≠ TextGrammar.noText) (hf : f.reason ≠ TextGrammar.noText) :
    ∀ f' ∈ later earlier f, f'.reason ≠ TextGrammar.noText := by
  intro f' hf'
  rcases later_cases earlier f with hlater | hlater
  · rw [hlater] at hf'
    cases hf'
    exact hf
  · exact hearlier f' (hlater ▸ hf')

theorem record (h : s.Legible) (hf : f.reason ≠ TextGrammar.noText) : (s.record f).Legible :=
  ⟨h.trace, later_reason h.furthest hf, h.error⟩

theorem commitUnlessSilenced (h : s.Legible) (hf : f.reason ≠ TextGrammar.noText) :
    (s.commitUnlessSilenced f).Legible := by
  unfold State.commitUnlessSilenced
  split
  · exact ⟨h.trace, h.furthest, later_reason h.error hf⟩
  · exact h

theorem failAt (h : s.Legible) (offset : Nat) {reason : Reason}
    (hreason : reason ≠ TextGrammar.noText) : (s.failAt offset reason).2.Legible :=
  ((h.noted (fun _ ↦ .failure ⟨offset, input[offset]?, reason⟩) hreason).record
    hreason).commitUnlessSilenced hreason

theorem rejoin (h : s.Legible) (hended : ended.Legible) :
    (Evaluate.rejoin s.furthest ended.unsilenceErrors).Legible := by
  have hmerged : State.Legible { ended.unsilenceErrors with furthest := s.furthest } :=
    ⟨hended.trace, h.furthest, hended.error⟩
  unfold Evaluate.rejoin
  split
  · next inner hinner => exact hmerged.record (hended.furthest inner hinner)
  · exact hmerged

theorem attempts (h : s.Legible) :
    State.Legible { s.silenceErrors with furthest := none } :=
  ⟨h.trace, by simp, h.error⟩

end Legible

theorem engines_ne {reason : Reason} (h : reason.isEngines = true) :
    reason ≠ TextGrammar.noText := by
  rintro rfl
  cases h

/-- If the first state is legible, so is the second. -/
def StaysLegible (s s' : State input Builder) : Prop := s.Legible → s'.Legible

/-- **Legible states stay legible** as long as no token is entered. -/
theorem legible_guarded : Guarded (fun label ↦ !TextGrammar.isToken label) (fun _ ↦ true)
    (StaysLegible : State input Builder → State input Builder → Prop) where
  refl _ h := h
  trans h h' hs := h' (h hs)
  entered s label hlabel hs := hs.noted (fun _ ↦ .enter label s.cursor)
    fun htoken ↦ by simp [htoken] at hlabel
  left s label hlabel outcome hs := hs.noted (fun _ ↦ .leave label s.cursor outcome)
    fun htoken ↦ by simp [htoken] at hlabel
  failAt s offset _ hreason hs := hs.failAt offset (engines_ne hreason)
  advance s n _ hs := hs.of_quiet (s.advance_quiet n)
  push s _ hs := hs.of_quiet (s.push_quiet _)
  span h hs := (h hs).of_quiet (push_quiet _ _)
  back h hs := (h hs).of_quiet (restore_quiet _ _)
  silently h hs := (h (hs.of_eq rfl rfl rfl)).of_eq rfl rfl rfl
  unheard h hs := (h (hs.of_eq rfl rfl rfl)).of_eq rfl rfl rfl
  rejoin h hs := hs.rejoin (h hs.attempts)
  commit h hf hs := (hs.rejoin (h hs.attempts)).commitUnlessSilenced
    ((h hs.attempts).furthest _ hf)

/-! ### Aligned states -/

/-- A byte of ASCII. -/
def isAscii (b : UInt8) : Bool := decide (b < 0x80)

theorem isBoundary_of_fitsBetween {low high : Nat} (h : IsBoundary input low) (hle : low ≤ high)
    (hsize : high ≤ input.size) (hfits : FitsBetween input isAscii low high) :
    IsBoundary input high := by
  induction high, hle using Nat.le_induction with
  | base => exact h
  | succ high hlow ih =>
    have hb : isAscii input[high] = true :=
      hfits hlow (Nat.lt_succ_self high) (Array.getElem?_eq_getElem hsize)
    exact (IsBoundary.around_ascii h.input_isText (Array.getElem?_eq_getElem hsize)
      (of_decide_eq_true hb)).2

namespace Aligned

/-- What changes neither the cursor nor the spans. -/
theorem of_legible (h : s.Aligned) (hs' : s'.Legible) (hcursor : s'.cursor = s.cursor)
    (hresults : s'.results = s.results) : s'.Aligned :=
  ⟨hs', hcursor ▸ h.boundary, hresults ▸ h.spans⟩

theorem moveTo (h : s.Aligned) {offset : Nat} (hoffset : IsBoundary input (min offset input.size)) :
    (s.moveTo offset).Aligned :=
  ⟨h.of_quiet (s.moveTo_quiet offset), hoffset, h.spans⟩

/-- Behind a text that stands there. -/
theorem advance (h : s.Aligned) {token rest : List UInt8} (hrest : s.rest = token ++ rest)
    (htoken : IsText token) : (s.advance token.length).Aligned := by
  have hboundary := h.boundary.advance (s.rest_eq ▸ hrest) htoken
  exact h.moveTo ((Nat.min_eq_left hboundary.offset_le).symm ▸ hboundary)

/-- Behind a byte of ASCII. -/
theorem advance_one (h : s.Aligned) {b : UInt8} (hpeek : s.peek = some b) (hb : b < 0x80) :
    (s.advance 1).Aligned := by
  have hboundary := (IsBoundary.around_ascii h.boundary.input_isText hpeek hb).2
  exact h.moveTo ((Nat.min_eq_left hboundary.offset_le).symm ▸ hboundary)

theorem push (h : s.Aligned) {value : Value} (hvalue : value.IsText) : (s.push value).Aligned := by
  refine ⟨h.of_quiet (s.push_quiet value), (s.push_cursor value).symm ▸ h.boundary,
    fun v hv ↦ ?_⟩
  unfold State.push at hv
  split at hv
  · rcases List.mem_append.1 hv with hv | hv
    · exact h.spans v hv
    · exact List.mem_singleton.1 hv ▸ hvalue
  · exact h.spans v hv

theorem truncate (h : s.Aligned) (start : Position) : (s.truncate start).Aligned :=
  ⟨h.of_quiet (s.truncate_quiet start), h.boundary,
    fun v hv ↦ h.spans v (List.mem_of_mem_take hv)⟩

theorem withUser (h : s.Aligned) (user : Builder) : State.Aligned { s with user } :=
  ⟨h.of_eq rfl rfl rfl, h.boundary, h.spans⟩

theorem failAt (h : s.Aligned) (offset : Nat) {reason : Reason}
    (hreason : reason ≠ TextGrammar.noText) : (s.failAt offset reason).2.Aligned :=
  h.of_legible (h.toLegible.failAt offset hreason) (failAt_cursor s offset reason)
    (failAt_results s offset reason)

/-- What has been consumed between two aligned states is a text. -/
theorem matched (h : s.Aligned) (h' : s'.Aligned) : IsText (s'.matched s.position) := by
  have hlow : IsBoundary input (min s.cursor s'.cursor) := by
    rcases Nat.le_total s.cursor s'.cursor with hle | hle
    · exact (Nat.min_eq_left hle).symm ▸ h.boundary
    · exact (Nat.min_eq_right hle).symm ▸ h'.boundary
  exact hlow.between h'.boundary (Nat.min_le_right _ _)

/-- A span among the results is a text, and so is none. -/
theorem sliceSince (h : s.Aligned) (start : Position) : IsText ((s.sliceSince start).getD []) := by
  rcases hslice : s.sliceSince start with _ | span
  · exact .nil
  · obtain ⟨value, hvalue, hspan⟩ := List.exists_of_findSome?_eq_some hslice
    exact h.spans value (List.mem_of_mem_drop (List.mem_reverse.1 hvalue)) span hspan

end Aligned

/-- If the first state is aligned, so is the second. -/
def StaysAligned (s s' : State input Builder) : Prop := s.Aligned → s'.Aligned

/-- **Aligned states stay aligned** as long as only ASCII is consumed. -/
theorem aligned_guarded : Guarded (fun _ ↦ true) isAscii
    (StaysAligned : State input Builder → State input Builder → Prop) where
  refl _ h := h
  trans h h' hs := h' (h hs)
  entered s label _ hs :=
    hs.of_legible (hs.toLegible.noted (fun _ ↦ .enter label s.cursor) fun _ ↦ hs.boundary)
      (s.noted_cursor _) (s.noted_results _)
  left s label _ outcome hs :=
    hs.of_legible
      (hs.toLegible.noted (fun _ ↦ .leave label s.cursor outcome) fun _ ↦ hs.boundary)
      (s.noted_cursor _) (s.noted_results _)
  failAt s offset _ hreason hs := hs.failAt offset (engines_ne hreason)
  advance s n hfits hs := by
    have hcursor : (s.advance n).cursor ≤ input.size := (s.advance n).cursor_le
    have hle : s.cursor ≤ (s.advance n).cursor := Nat.le_min.2 ⟨Nat.le_add_right _ _, s.cursor_le⟩
    exact hs.moveTo (isBoundary_of_fitsBetween hs.boundary hle hcursor hfits)
  push s _ hs := hs.push (Value.isText_of_slice?_eq_none rfl)
  span h hs := (h hs).push fun span hspan ↦ by
    cases hspan
    exact hs.matched (h hs)
  back {s s'} h hs := by
    have hmoved : (s'.moveTo s.cursor).Aligned :=
      (h hs).moveTo ((Nat.min_eq_left s.cursor_le).symm ▸ hs.boundary)
    exact hmoved.truncate s.position
  silently h hs := (h ⟨hs.of_eq rfl rfl rfl, hs.boundary, hs.spans⟩).of_legible
    ((h ⟨hs.of_eq rfl rfl rfl, hs.boundary, hs.spans⟩).of_eq rfl rfl rfl) rfl rfl
  unheard h hs := (h ⟨hs.of_eq rfl rfl rfl, hs.boundary, hs.spans⟩).of_legible
    ((h ⟨hs.of_eq rfl rfl rfl, hs.boundary, hs.spans⟩).of_eq rfl rfl rfl) rfl rfl
  rejoin {s ended} h hs := by
    have hended := h ⟨hs.toLegible.attempts, hs.boundary, hs.spans⟩
    have hundone := Evaluate.rejoin_undone s.furthest ended.unsilenceErrors
    exact hended.of_legible (hs.toLegible.rejoin hended.toLegible) hundone.cursor_eq
      hundone.results_eq
  commit {s ended f} h hf hs := by
    have hended := h ⟨hs.toLegible.attempts, hs.boundary, hs.spans⟩
    have hundone := Evaluate.rejoin_undone s.furthest ended.unsilenceErrors
    exact hended.of_legible
      ((hs.toLegible.rejoin hended.toLegible).commitUnlessSilenced (hended.furthest f hf))
      ((commitUnlessSilenced_cursor _ f).trans hundone.cursor_eq)
      ((commitUnlessSilenced_results _ f).trans hundone.results_eq)

end State
end DocGrammar
