import DocGrammar.Proofs.Fluff.Pieces
import DocGrammar.Proofs.Scan.Rest
import DocGrammar.Proofs.Termination.Loops

/-!
# Fluff is skipped exactly

The scan of fluff keeps a mode: between pieces, in a line, or so many comments deep.  `Taken` says
what the mode means, in terms of what the scan has taken of the piece it is in.  One round of the
scan keeps this up (`Taken.advance`), and where the scan ends, no piece of fluff follows
(`Taken.ends`).  So the scan takes all the fluff there is, whichever way it ends.

In a comment the scan counts with natural numbers, and subtracts one at every closing mark.  What
`Taken` says of a comment is that this is the count of the marks that have been taken, as an
integer: nothing has been cut off.
-/

set_option autoImplicit false

namespace DocGrammar
namespace Fluff

variable {input : Array UInt8} {U : Type}

/-! ## A round -/

/-- A round goes on: it takes a byte or two, and then the scan is in a mode. -/
inductive Advances : Mode → List UInt8 → Mode → List UInt8 → Prop
  | separator {b : UInt8} {rest : List UInt8} (hb : isSeparator b = true) :
      Advances .between (b :: rest) .between rest
  | slashes {rest : List UInt8} : Advances .between (0x2F :: 0x2F :: rest) .line rest
  | slashStar {rest : List UInt8} : Advances .between (0x2F :: 0x2A :: rest) (.block 0) rest
  | line {b : UInt8} {rest : List UInt8} :
      Advances .line (b :: rest) (if b = 0x0A then .between else .line) rest
  | opener {depth : Nat} {rest : List UInt8} :
      Advances (.block depth) (0x2F :: 0x2A :: rest) (.block (depth + 1)) rest
  | closer {depth : Nat} {rest : List UInt8} :
      Advances (.block depth) (0x2A :: 0x2F :: rest) (afterBlock depth) rest
  | within {depth : Nat} {b : UInt8} {rest : List UInt8}
      (hopener : ¬(b = 0x2F ∧ rest.head? = some 0x2A))
      (hcloser : ¬(b = 0x2A ∧ rest.head? = some 0x2F)) :
      Advances (.block depth) (b :: rest) (.block depth) rest

theorem advances_of_round {mode mode' : Mode} {offset offset' : Nat}
    (h : round input mode offset = .inr (mode', offset')) :
    Advances mode (input.toList.drop offset) mode' (input.toList.drop offset') := by
  cases hbytes : input.toList.drop offset with
  | nil =>
    rw [round, State.getElem?_of_drop_eq_nil hbytes] at h
    cases h
  | cons b rest =>
    obtain ⟨hb, hrest⟩ := State.getElem?_of_drop_eq_cons hbytes
    have hhead := State.getElem?_succ_of_drop hbytes
    -- where two bytes are taken, they are a mark
    have htwo {c : UInt8} (hc : input[offset + 1]? = some c) :
        rest = c :: input.toList.drop (offset + 2) := by
      obtain ⟨left, rfl⟩ := List.head?_eq_some_iff.1 (hhead.symm.trans hc)
      rw [(State.getElem?_of_drop_eq_cons hrest).2]
    rw [round, hb] at h
    cases mode with
    | between =>
      dsimp only at h
      split at h
      · next hseparator =>
        cases h
        exact hrest ▸ .separator hseparator
      · split at h
        · next hslash =>
          split at h
          · next hline =>
            cases h
            rw [hslash, htwo hline]
            exact .slashes
          · split at h
            · next hblock =>
              cases h
              rw [hslash, htwo hblock]
              exact .slashStar
            · cases h
        · cases h
    | line =>
      cases h
      exact hrest ▸ .line
    | block depth =>
      dsimp only at h
      split at h
      · next hopener =>
        obtain ⟨rfl, hc⟩ := hopener
        cases h
        exact htwo hc ▸ .opener
      · next hopener =>
        split at h
        · next hcloser =>
          obtain ⟨rfl, hc⟩ := hcloser
          cases h
          exact htwo hc ▸ .closer
        · next hcloser =>
          cases h
          rw [hhead] at hopener hcloser
          rw [hrest]
          exact .within hopener hcloser

/-! ## Within a piece -/

/-- In a mode, the scan has taken the beginning of a piece, and the rest is left. -/
inductive Taken (piece rest : List UInt8) : Mode → Prop
  | between (hpiece : piece = rest) : Taken piece rest .between
  | line {text : List UInt8} (htext : ∀ b ∈ text, b ≠ 0x0A)
      (hpiece : piece = 0x2F :: 0x2F :: (text ++ rest)) : Taken piece rest .line
  | block {ms : List Mark} {depth : Nat} (hhead : ms.head? = some .opener) (hopen : StaysOpen ms)
      (hpiece : piece = ms.flatMap Mark.bytes ++ rest) (hmarks : marks piece = ms ++ marks rest)
      (hnesting : nesting ms = depth + 1) : Taken piece rest (.block depth)

/-- The scan goes on with a mode and the rest: it is still in the piece, or behind it. -/
def GoesOn (piece rest : List UInt8) (mode : Mode) : Prop :=
  ∃ piece', Relation.ReflTransGen Piece piece piece' ∧ Taken piece' rest mode

theorem Taken.goesOn {piece rest : List UInt8} {mode : Mode} (h : Taken piece rest mode) :
    GoesOn piece rest mode :=
  ⟨piece, .refl, h⟩

theorem Piece.goesOn {piece rest : List UInt8} (h : Piece piece rest) :
    GoesOn piece rest .between :=
  ⟨rest, .single h, .between rfl⟩

/-- Two slashes. -/
theorem taken_line (rest : List UInt8) : Taken (0x2F :: 0x2F :: rest) rest .line :=
  have hnil : ∀ b ∈ ([] : List UInt8), b ≠ 0x0A := fun _ h ↦ absurd h List.not_mem_nil
  .line hnil rfl

/-- An opening mark. -/
theorem taken_block_zero (rest : List UInt8) :
    Taken (0x2F :: 0x2A :: rest) rest (.block 0) := by
  have hopen : StaysOpen ([] ++ [.opener]) :=
    StaysOpen.append (fun _ htaken hne ↦ absurd (List.prefix_nil.1 htaken) hne) (by decide)
  exact .block rfl hopen rfl (marks_opener rest) rfl

namespace Taken

variable {piece rest bytes : List UInt8} {depth : Nat}

/-- A line goes on up to the newline. -/
theorem line_byte {b : UInt8} (h : Taken piece (b :: rest) .line) :
    GoesOn piece rest (if b = 0x0A then .between else .line) := by
  cases h with
  | @line text htext hpiece =>
    split
    · next hb =>
      refine (Piece.line hpiece ?_).goesOn
      rw [List.dropWhile_append_of_pos (by simpa using htext), hb]
      rfl
    · next hb =>
      have htext' : ∀ c ∈ text ++ [b], c ≠ 0x0A := by
        intro c hc
        rcases List.mem_append.1 hc with hc | hc
        · exact htext c hc
        · exact List.mem_singleton.1 hc ▸ hb
      exact (Taken.line htext' (by simpa using hpiece)).goesOn

/-- In a comment one mark is taken after the other.  The comment ends if that closes it. -/
theorem block_mark (h : Taken piece bytes (.block depth)) {m : Mark}
    (hbytes : bytes = m.bytes ++ rest) (hmarks : marks bytes = m :: marks rest) {mode : Mode}
    (hmode : (mode = .between ∧ depth + 1 + m.change = 0) ∨
      ∃ depth' : Nat, mode = .block depth' ∧ depth + 1 + m.change = (depth' : Int) + 1) :
    GoesOn piece rest mode := by
  cases h with
  | @block ms _ hhead hopen hpiece hmarks' hnesting =>
    have htotal : nesting (ms ++ [m]) = depth + 1 + m.change := by
      rw [nesting_append, nesting_singleton, hnesting]
    have hpiece' : piece = (ms ++ [m]).flatMap Mark.bytes ++ rest := by
      rw [hpiece, hbytes]
      simp
    have hmarks'' : marks piece = (ms ++ [m]) ++ marks rest := by
      rw [hmarks', hmarks]
      simp
    rcases hmode with ⟨rfl, hzero⟩ | ⟨depth', rfl, hpos⟩
    · exact (Piece.block (hopen.isComment hhead (htotal.trans hzero)) hpiece' hmarks'').goesOn
    · refine (Taken.block ?_ (hopen.append ?_) hpiece' hmarks'' (htotal.trans hpos)).goesOn
      · rw [List.head?_append, hhead, Option.some_or]
      · omega

/-- **One round.**  The scan goes on in the piece, or behind it. -/
theorem advance {mode mode' : Mode} (h : Taken piece bytes mode)
    (hadvances : Advances mode bytes mode' rest) : GoesOn piece rest mode' := by
  cases hadvances with
  | separator hb =>
    obtain ⟨rfl⟩ := h
    exact (Piece.separator hb rfl).goesOn
  | slashes =>
    obtain ⟨rfl⟩ := h
    exact (taken_line rest).goesOn
  | slashStar =>
    obtain ⟨rfl⟩ := h
    exact (taken_block_zero rest).goesOn
  | line => exact h.line_byte
  | opener =>
    exact h.block_mark (m := .opener) rfl (marks_opener rest) (.inr ⟨_, rfl, by simp [Mark.change]⟩)
  | @closer depth =>
    refine h.block_mark (m := .closer) rfl (marks_closer rest) ?_
    cases depth with
    | zero => exact .inl ⟨rfl, rfl⟩
    | succ depth => exact .inr ⟨depth, rfl, by simp only [Mark.change]; omega⟩
  | @within depth b _ hopener hcloser =>
    exact h.block_mark (m := .plain b) rfl (marks_plain hopener hcloser)
      (.inr ⟨depth, rfl, by simp [Mark.change]⟩)

end Taken

/-! ## Where the scan ends -/

/-- How the scan ends, and where, if all of the fluff has been taken and this is left. -/
inductive Ends (input : Array UInt8) (left : List UInt8) : Ending × Nat → Prop
  | clean {stop : Nat} (hstop : input.toList.drop stop = left)
      (hhead : ∀ b, left.head? = some b → isSeparator b = false ∧ b ≠ 0x2F) :
      Ends input left (.clean, stop)
  | straySlash {stop : Nat} (hstop : input.toList.drop stop = left) (h : StraySlash left) :
      Ends input left (.straySlash, stop)
  | unclosed {stop : Nat} (hstop : input.toList.drop stop = []) (h : Unclosed left) :
      Ends input left (.unclosed, stop)

/-- The input ends in a piece. -/
theorem Taken.ends_nil {piece : List UInt8} {mode : Mode} {offset : Nat}
    (h : Taken piece [] mode) (hend : input.toList.drop offset = []) :
    ∃ left, Relation.ReflTransGen Piece piece left ∧ Ends input left (mode.ending, offset) := by
  cases h with
  | between hpiece => exact ⟨[], hpiece ▸ .refl, .clean hend nofun⟩
  | @line text htext hpiece =>
    refine ⟨[], .single (.line hpiece ?_), .clean hend nofun⟩
    rw [List.dropWhile_append_of_pos (by simpa using htext)]
    rfl
  | @block ms depth hhead hopen hpiece hmarks hnesting =>
    obtain ⟨ms, rfl⟩ := List.head?_eq_some_iff.1 hhead
    refine ⟨piece, .refl, .unclosed hend ⟨⟨_, hpiece⟩, ?_⟩⟩
    rw [hmarks]
    simpa [marks] using hopen

/-- **The last round.**  No piece of fluff follows. -/
theorem Taken.ends {piece : List UInt8} {mode : Mode} {offset : Nat} {result : Ending × Nat}
    (h : Taken piece (input.toList.drop offset) mode)
    (hround : Fluff.round input mode offset = .inl result) :
    ∃ left, Relation.ReflTransGen Piece piece left ∧ Ends input left result := by
  cases hbytes : input.toList.drop offset with
  | nil =>
    rw [Fluff.round, State.getElem?_of_drop_eq_nil hbytes] at hround
    cases hround
    exact (hbytes ▸ h).ends_nil hbytes
  | cons b rest =>
    rw [Fluff.round, (State.getElem?_of_drop_eq_cons hbytes).1,
      State.getElem?_succ_of_drop hbytes] at hround
    rw [hbytes] at h
    cases mode with
    | between =>
      obtain ⟨rfl⟩ := h
      dsimp only at hround
      refine ⟨b :: rest, .refl, ?_⟩
      split at hround
      · cases hround
      · next hseparator =>
        split at hround
        · next hslash =>
          split at hround
          · cases hround
          · next hline =>
            split at hround
            · cases hround
            · next hblock =>
              cases hround
              exact .straySlash hbytes ⟨rest, by rw [hslash], hline, hblock⟩
        · next hslash =>
          cases hround
          refine .clean hbytes fun c hc ↦ ?_
          cases hc
          exact ⟨by simpa using hseparator, hslash⟩
    | line => cases hround
    | block depth =>
      dsimp only at hround
      split at hround
      · cases hround
      · split at hround <;> cases hround

/-- **A scan takes all of the fluff**, round by round. -/
theorem Rounds.ends {mode : Mode} {offset : Nat} {result : Ending × Nat}
    (h : Rounds input mode offset result) {piece : List UInt8}
    (htaken : Taken piece (input.toList.drop offset) mode) :
    ∃ left, Relation.ReflTransGen Piece piece left ∧ Ends input left result := by
  induction h generalizing piece with
  | last hround => exact htaken.ends hround
  | next hround _ _ ih =>
    obtain ⟨piece', hpieces, htaken'⟩ := htaken.advance (advances_of_round hround)
    obtain ⟨left, hleft, hends⟩ := ih htaken'
    exact ⟨left, hpieces.trans hleft, hends⟩

/-- What is left begins with no piece of fluff. -/
theorem Ends.not_piece {left : List UInt8} {result : Ending × Nat} (h : Ends input left result)
    (rest : List UInt8) : ¬ Piece left rest := by
  cases h with
  | clean _ hhead =>
    intro hpiece
    cases left with
    | nil => exact hpiece.ne_nil rfl
    | cons b left =>
      obtain ⟨hseparator, hslash⟩ := hhead b rfl
      rcases hpiece.isSeparator_or_eq with hb | hb
      · cases hseparator.symm.trans hb
      · exact hslash hb
  | straySlash _ h => exact h.not_piece
  | unclosed _ h => exact h.not_piece

/-! ## Skipping -/

/-- Moving to an offset is a matter of what is left there. -/
theorem moveTo_of_drop (s : State input U) {stop : Nat} {left : List UInt8}
    (hstop : input.toList.drop stop = left) :
    s.moveTo stop = s.moveTo (input.size - left.length) := by
  have hlength := congrArg List.length hstop
  rw [List.length_drop, Array.length_toList] at hlength
  simp only [State.moveTo, State.mk.injEq, and_true]
  omega

/-- What skipping comes to, when the scan has ended. -/
theorem Ends.skip {s : State input U} (start : Position) {left : List UInt8}
    (h : Ends input left (scan input (input.size - s.cursor) .between s.cursor)) :
    ((skip s start).1 = .fail ↔ StraySlash left ∨ Unclosed left) ∧
      (skip s start = (.ok, s.moveTo (input.size - left.length)) ∨
        StraySlash left ∧
          skip s start = (s.moveTo (input.size - left.length)).failAt (input.size - left.length)
            (.message "expected comment after '/'") ∨
        Unclosed left ∧
          skip s start = (s.moveTo input.size).failAt input.size
            (.message "unterminated block comment")) := by
  have hcursor (offset : Nat) (hoffset : offset ≤ input.size) :
      (s.moveTo offset).cursor = offset := Nat.min_eq_left hoffset
  rw [Fluff.skip]
  generalize scan input (input.size - s.cursor) .between s.cursor = result at h
  cases h with
  | clean hstop hhead =>
    simp only [moveTo_of_drop s hstop]
    refine ⟨⟨nofun, fun hbad ↦ ?_⟩, .inl trivial⟩
    rcases hbad with ⟨rest, rfl, -⟩ | ⟨⟨rest, rfl⟩, -⟩
    · exact absurd rfl (hhead _ rfl).2
    · exact absurd rfl (hhead _ rfl).2
  | straySlash hstop hstray =>
    simp only [moveTo_of_drop s hstop]
    refine ⟨⟨fun _ ↦ .inl hstray, fun _ ↦ rfl⟩, .inr (.inl ⟨hstray, ?_⟩)⟩
    rw [State.fail_eq, hcursor _ (Nat.sub_le _ _)]
  | unclosed hstop hunclosed =>
    simp only [moveTo_of_drop s hstop]
    refine ⟨⟨fun _ ↦ .inr hunclosed, fun _ ↦ rfl⟩, .inr (.inr ⟨hunclosed, ?_⟩)⟩
    rw [State.fail_eq, hcursor _ (Nat.sub_le _ _)]
    rfl

/-- One round leads to the next, without a bound on their number. -/
def Leads (input : Array UInt8) (place place' : Mode × Nat) : Prop :=
  round input place.1 place.2 = .inr place'

/-- However far the scan has come, it has taken whole pieces and the beginning of one. -/
theorem goesOn_of_leads {offset offset' : Nat} {mode : Mode}
    (h : Relation.ReflTransGen (Leads input) (.between, offset) (mode, offset')) :
    GoesOn (input.toList.drop offset) (input.toList.drop offset') mode := by
  generalize hplace : (mode, offset') = place at h
  induction h generalizing mode offset' with
  | refl =>
    cases hplace
    exact (Taken.between rfl).goesOn
  | @tail place _ _ hlead ih =>
    subst hplace
    obtain ⟨piece, hpieces, htaken⟩ := ih rfl
    obtain ⟨piece', hpieces', htaken'⟩ := htaken.advance (advances_of_round hlead)
    exact ⟨piece', hpieces.trans hpieces', htaken'⟩

/-- **Fluff is skipped exactly.**  The scan ends without a bound on its rounds.  Skipping takes the
longest prefix of the rest of the input that consists of pieces of fluff, and succeeds, unless what
follows is a slash that starts no comment, where it fails, or a comment that has no end, where it
fails at the end of the input.

Wherever the scan is within a comment, the depth that it keeps is that of the marks it has taken,
counted with integers, and behind every one of these marks the comment has been open. -/
theorem skip_longest (s : State input U) (start : Position) :
    Rounds input .between s.cursor (scan input (input.size - s.cursor) .between s.cursor) ∧
      (∃ n, IsGreatest {n | IsFluff s.rest n} n ∧
        ((skip s start).1 = .fail ↔ StraySlash (s.rest.drop n) ∨ Unclosed (s.rest.drop n)) ∧
        (skip s start = (.ok, s.moveTo (s.cursor + n)) ∨
          StraySlash (s.rest.drop n) ∧
            skip s start = (s.moveTo (s.cursor + n)).failAt (s.cursor + n)
              (.message "expected comment after '/'") ∨
          Unclosed (s.rest.drop n) ∧
            skip s start = (s.moveTo input.size).failAt input.size
              (.message "unterminated block comment"))) ∧
      ∀ depth offset,
        Relation.ReflTransGen (Leads input) (.between, s.cursor) (.block depth, offset) →
        ∃ piece ms, Relation.ReflTransGen Piece s.rest piece ∧
          piece = ms.flatMap Mark.bytes ++ input.toList.drop offset ∧
          marks piece = ms ++ marks (input.toList.drop offset) ∧
          nesting ms = depth + 1 ∧ StaysOpen ms := by
  have hrounds : Rounds input .between s.cursor
      (scan input (input.size - s.cursor) .between s.cursor) :=
    scan_rounds .between (by have := s.cursor_le; omega)
  refine ⟨hrounds, ?_, fun depth offset hleads ↦ ?_⟩
  · obtain ⟨left, hpieces, hends⟩ := hrounds.ends (.between rfl)
    rw [← s.rest_eq] at hpieces
    obtain ⟨hdrop, hgreatest⟩ := isGreatest_of_pieces hpieces hends.not_piece
    have hoffset : s.cursor + (s.rest.length - left.length) = input.size - left.length := by
      have := (isSuffix_of_pieces hpieces).length_le
      have := s.length_rest
      have := s.cursor_le
      omega
    refine ⟨_, hgreatest, ?_⟩
    rw [hdrop, hoffset]
    exact hends.skip start
  · rw [s.rest_eq]
    obtain ⟨piece, hpieces, htaken⟩ := goesOn_of_leads hleads
    cases htaken with
    | @block ms _ _ hopen hpiece hmarks hnesting =>
      exact ⟨piece, ms, hpieces, hpiece, hmarks, hnesting, hopen⟩

end Fluff
end DocGrammar
