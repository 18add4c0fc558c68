import DocGrammar.Proofs.Direct.Tokens

/-!
# Fluff

The engine skips fluff by looking at offsets, the direct reader by taking bytes off a list.  Both
keep the same mode while they do, so they agree step by step.
-/

set_option autoImplicit false

namespace DocGrammar
namespace Direct

/-- A scan for fluff from an offset on ends cleanly if the direct reader comes to the end of the
fluff, and then at the same place; in no case does it end before it started. -/
structure SkipsTo (input : Array UInt8) (offset : Nat) (found : Option (List UInt8))
    (reply : Fluff.Ending × Nat) : Prop where
  offset_le : offset ≤ reply.2
  le_size : reply.2 ≤ input.size
  /-- Where the reader stops, so does the scan. -/
  of_some : ∀ rest, found = some rest → reply.1 = .clean ∧ input.toList.drop reply.2 = rest
  /-- Where the reader gives up, so does the scan. -/
  of_none : found = none → reply.1 ≠ .clean

theorem SkipsTo.mono {input : Array UInt8} {offset offset' : Nat} {found : Option (List UInt8)}
    {reply : Fluff.Ending × Nat} (h : SkipsTo input offset' found reply) (hle : offset ≤ offset') :
    SkipsTo input offset found reply :=
  { h with offset_le := Nat.le_trans hle h.offset_le }

/-- Where the reader stops, the scan ends cleanly. -/
theorem clean_skipsTo {input : Array UInt8} {offset : Nat} {rest : List UInt8}
    (hoffset : offset ≤ input.size) (hrest : input.toList.drop offset = rest) :
    SkipsTo input offset (some rest) (.clean, offset) :=
  ⟨Nat.le_refl _, hoffset, fun _ h ↦ ⟨rfl, hrest.trans (Option.some.inj h)⟩, nofun⟩

/-- Where the reader gives up, the scan ends some other way. -/
theorem unclean_skipsTo {input : Array UInt8} {offset : Nat} {ending : Fluff.Ending}
    (hoffset : offset ≤ input.size) (hending : ending ≠ .clean) :
    SkipsTo input offset none (ending, offset) :=
  ⟨Nat.le_refl _, hoffset, nofun, fun _ ↦ hending⟩

/-- At the end of the input. -/
theorem ending_skipsTo {input : Array UInt8} {offset : Nat} (hoffset : offset ≤ input.size)
    (hnil : input.toList.drop offset = []) (mode : Fluff.Mode) :
    SkipsTo input offset (fluffFrom mode []) (mode.ending, offset) := by
  cases mode with
  | block depth => exact unclean_skipsTo hoffset (by simp [Fluff.Mode.ending])
  | _ => exact clean_skipsTo hoffset hnil

/-! ## Round by round -/

/-- A scan of so many rounds skips what the reader skips, from any offset that leaves no more bytes
than that, and in any mode. -/
def SkipsIn (input : Array UInt8) (rounds : Nat) : Prop :=
  ∀ (mode : Fluff.Mode) (offset : Nat), input.size - offset ≤ rounds → offset ≤ input.size →
    SkipsTo input offset (fluffFrom mode (input.toList.drop offset))
      (Fluff.scan input rounds mode offset)

namespace SkipsIn

variable {input : Array UInt8} {rounds offset : Nat} {b : UInt8} {rest : List UInt8}

theorem zero : SkipsIn input 0 := by
  intro mode offset hrounds hoffset
  have hnil : input.toList.drop offset = [] :=
    List.drop_of_length_le (Nat.le_of_sub_eq_zero (Nat.le_zero.1 hrounds))
  rw [hnil]
  exact ending_skipsTo hoffset hnil mode

section

variable (h : SkipsIn input rounds) (hbytes : input.toList.drop offset = b :: rest)
  (hrounds : input.size - offset ≤ rounds + 1)

include h hbytes hrounds

/-- The scan goes on behind one byte, -/
theorem behind_one (mode : Fluff.Mode) :
    SkipsTo input offset (fluffFrom mode rest) (Fluff.scan input rounds mode (offset + 1)) := by
  have hlength := congrArg List.length hbytes
  simp only [List.length_drop, Array.length_toList, List.length_cons] at hlength
  have hnext := h mode (offset + 1) (by omega) (by omega)
  rw [(State.getElem?_of_drop_eq_cons hbytes).2] at hnext
  exact hnext.mono (Nat.le_succ _)

/-- or behind two. -/
theorem behind_two {c : UInt8} {rest' : List UInt8} (hrest : rest = c :: rest')
    (mode : Fluff.Mode) :
    SkipsTo input offset (fluffFrom mode rest') (Fluff.scan input rounds mode (offset + 2)) := by
  have hlength := congrArg List.length (hbytes.trans (congrArg (b :: ·) hrest))
  simp only [List.length_drop, Array.length_toList, List.length_cons] at hlength
  have hone := (State.getElem?_of_drop_eq_cons hbytes).2
  have hnext := h mode (offset + 2) (by omega) (by omega)
  rw [(State.getElem?_of_drop_eq_cons (hone.trans hrest)).2] at hnext
  exact hnext.mono (Nat.le_add_right _ _)

/-- Between separators and comments, a slash needs a mark behind it. -/
theorem between : SkipsTo input offset (fluffFrom .between (b :: rest))
    (Fluff.scan input (rounds + 1) .between offset) := by
  have hline := h.behind_one hbytes hrounds .line
  have hoffset : offset ≤ input.size := Nat.le_trans hline.offset_le hline.le_size
  rw [Fluff.scan, (State.getElem?_of_drop_eq_cons hbytes).1, State.getElem?_succ_of_drop hbytes,
    fluffFrom.eq_def]
  by_cases hseparator : Fluff.isSeparator b = true
  · simp only [hseparator, if_true]
    exact h.behind_one hbytes hrounds .between
  by_cases hslash : b = 0x2F
  · cases rest with
    | nil =>
      simp only [hslash, if_true, if_false, List.head?_nil, reduceCtorEq]
      exact unclean_skipsTo hoffset (by decide)
    | cons c rest' =>
      simp only [hslash, if_true, List.head?_cons, Option.some.injEq]
      by_cases hline : c = 0x2F
      · simp only [if_pos hline]
        exact h.behind_two hbytes hrounds rfl .line
      by_cases hblock : c = 0x2A
      · simp only [if_neg hline, if_pos hblock]
        exact h.behind_two hbytes hrounds rfl (.block 0)
      · simp only [if_neg hline, if_neg hblock]
        exact unclean_skipsTo hoffset (by decide)
  · simp only [hseparator, if_neg hslash, Bool.false_eq_true, if_false]
    exact clean_skipsTo hoffset hbytes

/-- In a comment between marks, two bytes may be a mark. -/
theorem block (depth : Nat) : SkipsTo input offset (fluffFrom (.block depth) (b :: rest))
    (Fluff.scan input (rounds + 1) (.block depth) offset) := by
  rw [Fluff.scan, (State.getElem?_of_drop_eq_cons hbytes).1, State.getElem?_succ_of_drop hbytes,
    fluffFrom.eq_def]
  cases rest with
  | nil =>
    simp only [List.head?_nil, reduceCtorEq, and_false, if_false]
    exact h.behind_one hbytes hrounds (.block depth)
  | cons c rest' =>
    simp only [List.head?_cons, Option.some.injEq]
    by_cases hopen : b = 0x2F ∧ c = 0x2A
    · simp only [if_pos hopen]
      exact h.behind_two hbytes hrounds rfl _
    by_cases hclose : b = 0x2A ∧ c = 0x2F
    · simp only [if_neg hopen, if_pos hclose]
      exact h.behind_two hbytes hrounds rfl _
    · simp only [if_neg hopen, if_neg hclose]
      exact h.behind_one hbytes hrounds (.block depth)

end

/-- One round more skips what one round skips and the rounds to come. -/
theorem succ (h : SkipsIn input rounds) : SkipsIn input (rounds + 1) := by
  intro mode offset hrounds hoffset
  cases hbytes : input.toList.drop offset with
  | nil =>
    rw [Fluff.scan, State.getElem?_of_drop_eq_nil hbytes]
    exact ending_skipsTo hoffset hbytes mode
  | cons b rest =>
    cases mode with
    | between => exact h.between hbytes hrounds
    | line =>
      rw [Fluff.scan, (State.getElem?_of_drop_eq_cons hbytes).1]
      exact h.behind_one hbytes hrounds _
    | block depth => exact h.block hbytes hrounds depth

end SkipsIn

/-- **Fluff.**  With a round for each byte, the scan skips what the reader skips. -/
theorem scan_skipsTo (input : Array UInt8) (rounds : Nat) : SkipsIn input rounds := by
  induction rounds with
  | zero => exact .zero
  | succ rounds ih => exact ih.succ

/-! ## As a rule -/

/-- The scanner of fluff. -/
def fluffScanner : Scanner := fun bytes ↦
  match fluff bytes with
  | some rest => .ok (bytes.take (bytes.length - rest.length)) rest []
  | none => .fail

theorem skip_reads {N U : Type} {g : Grammar N U} {loud : Bool} {name : Option String} :
    (⟨name, {}, .leaf (DirectAction.toAction Fluff.skip)⟩ : Rule N U).Reads g loud 1
      fluffScanner := by
  refine .leaf fun {input} s _ ↦ ?_
  have hskips := scan_skipsTo input (input.size - s.cursor) .between s.cursor (Nat.le_refl _)
    s.cursor_le
  show Fits s _ _ (Fluff.skip s s.position)
  rw [Fluff.skip, fluffScanner, fluff]
  rw [← s.rest_eq] at hskips
  generalize Fluff.scan input (input.size - s.cursor) .between s.cursor = reply at hskips ⊢
  obtain ⟨ending, offset⟩ := reply
  have hle : s.cursor ≤ offset := hskips.offset_le
  have hsize : offset ≤ input.size := hskips.le_size
  have hmoved := s.moveTo_took hle hsize
  cases hfluff : fluffFrom .between s.rest with
  | none =>
    have hfailed (reason : Reason) := hmoved.beyond.trans ((s.moveTo offset).failAt_same
      (s.moveTo offset).cursor reason).beyond
    cases ending with
    | clean => exact absurd rfl (hskips.of_none hfluff)
    | straySlash => exact .fail (hfailed _)
    | unclosed => exact .fail (hfailed _)
  | some rest =>
    obtain ⟨hclean, hrest⟩ := hskips.of_some rest hfluff
    cases hclean
    have hdrop : input.toList.drop offset = rest := hrest
    have hlength : rest.length = input.size - offset := by simp [← hdrop]
    have htoken : s.rest.length - rest.length = offset - s.cursor := by
      rw [s.length_rest, hlength]
      omega
    rw [hdrop, ← htoken] at hmoved
    exact .ok hmoved

end Direct
end DocGrammar
