import DocGrammar.Doc.Fluff
import DocGrammar.Grammar.Evaluate

/-!
# Loops without a bound

Two loops are bounded by the bytes that are left: the repetition of a rule, and the scan of fluff.
The bounds are there for the sake of the definitions only.  This file says what the two loops are
without them, as relations, and shows that the bounded loops come to the same: they end because
every round that is followed by another takes a byte at least.
-/

set_option autoImplicit false

namespace DocGrammar

variable {U : Type} {input : Array UInt8}

/-! ## Repetition -/

namespace Evaluate

/-- What repeating a body comes to.  There is a next round only if this one has consumed
something. -/
inductive Loops (body : Position → Step input U) : State input U → State input U → Prop
  /-- A round that does not succeed is undone, and is the last. -/
  | undone {s s₁ : State input U} {outcome : Outcome}
      (h : body s.position s = some (outcome, s₁)) (houtcome : outcome ≠ .ok) :
      Loops body s (s₁.restore s.position)
  /-- A round that has consumed nothing is the last. -/
  | still {s s₁ : State input U} (h : body s.position s = some (.ok, s₁))
      (hstill : s₁.cursor ≤ s.cursor) : Loops body s s₁
  /-- A round that has consumed something is followed by another. -/
  | next {s s₁ s' : State input U} (h : body s.position s = some (.ok, s₁))
      (hnext : s.cursor < s₁.cursor) (hrest : Loops body s₁ s') : Loops body s s'

variable {body : Position → Step input U}

theorem Loops.again {s s' : State input U} (h : Loops body s s') {rounds : Nat}
    (hrounds : input.size < s.cursor + rounds) : again body rounds s = some s' := by
  induction h generalizing rounds with
  | @undone s s₁ outcome h houtcome =>
    obtain ⟨rounds, rfl⟩ : ∃ r, rounds = r + 1 := ⟨rounds - 1, by have := s.cursor_le; omega⟩
    rw [Evaluate.again, h]
    rcases outcome with _ | _ | _
    · exact absurd rfl houtcome
    · rfl
    · rfl
  | @still s s₁ h hstill =>
    obtain ⟨rounds, rfl⟩ : ∃ r, rounds = r + 1 := ⟨rounds - 1, by have := s.cursor_le; omega⟩
    rw [Evaluate.again, h]
    exact if_neg (Nat.not_lt.2 hstill)
  | @next s s₁ s' h hnext _ ih =>
    obtain ⟨rounds, rfl⟩ : ∃ r, rounds = r + 1 := ⟨rounds - 1, by have := s.cursor_le; omega⟩
    rw [Evaluate.again, h]
    dsimp only
    rw [if_pos hnext]
    exact ih (by omega)

/-- The bound on the rounds never ends a loop. -/
theorem again_eq_some_iff {s s' : State input U} {rounds : Nat}
    (hrounds : input.size < s.cursor + rounds) :
    again body rounds s = some s' ↔ Loops body s s' := by
  refine ⟨fun h ↦ ?_, fun h ↦ h.again hrounds⟩
  induction rounds generalizing s with
  | zero => exact absurd s.cursor_le (Nat.not_le.2 hrounds)
  | succ rounds ih =>
    rcases hbody : body s.position s with _ | ⟨outcome, s₁⟩
    · rw [again, hbody] at h
      cases h
    rcases outcome with _ | _ | _
    all_goals
      rw [again, hbody] at h
      dsimp only at h
    · split at h
      · next hnext => exact .next hbody hnext (ih (by omega) h)
      · next hstill =>
        cases h
        exact .still hbody (Nat.not_lt.1 hstill)
    · cases h
      exact .undone hbody (by decide)
    · cases h
      exact .undone hbody (by decide)

/-! ### How often -/

/-- A loop with the offsets from which its rounds start, the first round first. -/
inductive Laps (body : Position → Step input U) :
    List Nat → State input U → State input U → Prop
  | undone {s s₁ : State input U} {outcome : Outcome}
      (h : body s.position s = some (outcome, s₁)) (houtcome : outcome ≠ .ok) :
      Laps body [s.cursor] s (s₁.restore s.position)
  | still {s s₁ : State input U} (h : body s.position s = some (.ok, s₁))
      (hstill : s₁.cursor ≤ s.cursor) : Laps body [s.cursor] s s₁
  | next {offsets : List Nat} {s s₁ s' : State input U} (h : body s.position s = some (.ok, s₁))
      (hnext : s.cursor < s₁.cursor) (hrest : Laps body offsets s₁ s') :
      Laps body (s.cursor :: offsets) s s'

theorem Laps.loops {offsets : List Nat} {s s' : State input U} (h : Laps body offsets s s') :
    Loops body s s' := by
  induction h with
  | undone h houtcome => exact .undone h houtcome
  | still h hstill => exact .still h hstill
  | next h hnext _ ih => exact .next h hnext ih

theorem Loops.laps {s s' : State input U} (h : Loops body s s') :
    ∃ offsets, Laps body offsets s s' := by
  induction h with
  | undone h houtcome => exact ⟨_, .undone h houtcome⟩
  | still h hstill => exact ⟨_, .still h hstill⟩
  | next h hnext _ ih =>
    obtain ⟨offsets, hrest⟩ := ih
    exact ⟨_, .next h hnext hrest⟩

/-- No round starts before the loop does, -/
theorem Laps.cursor_le {offsets : List Nat} {s s' : State input U} (h : Laps body offsets s s') :
    ∀ offset ∈ offsets, s.cursor ≤ offset := by
  induction h with
  | undone => simp
  | still => simp
  | next _ hnext _ ih =>
    intro offset hoffset
    rcases List.mem_cons.1 hoffset with rfl | hoffset
    · exact Nat.le_refl _
    · exact Nat.le_trans (Nat.le_of_lt hnext) (ih offset hoffset)

/-- and each starts further on than the one before. -/
theorem Laps.increasing {offsets : List Nat} {s s' : State input U} (h : Laps body offsets s s') :
    offsets.Pairwise (· < ·) := by
  induction h with
  | undone => simp
  | still => simp
  | next _ hnext hrest ih =>
    exact .cons (fun offset hoffset ↦ Nat.lt_of_lt_of_le hnext (hrest.cursor_le offset hoffset)) ih

/-- So there are no more rounds than offsets that are left. -/
theorem Laps.length_le {offsets : List Nat} {s s' : State input U} (h : Laps body offsets s s') :
    offsets.length + s.cursor ≤ input.size + 1 := by
  induction h with
  | @undone s =>
    have := s.cursor_le
    simp only [List.length_singleton]
    omega
  | @still s =>
    have := s.cursor_le
    simp only [List.length_singleton]
    omega
  | next _ hnext _ ih =>
    simp only [List.length_cons]
    omega

/-- What a repetition comes to, with the offsets from which the body is matched again after the
first time.  If it has not matched then, there is nothing to repeat. -/
inductive Repeats (body : Position → Step input U) (start : Position) :
    List Nat → State input U → Reply input U → Prop
  | refused {s s₁ : State input U} {outcome : Outcome} (h : body start s = some (outcome, s₁))
      (houtcome : outcome ≠ .ok) : Repeats body start [] s (outcome, s₁)
  | matched {offsets : List Nat} {s s₁ s₂ : State input U} (h : body start s = some (.ok, s₁))
      (hlaps : Laps body offsets s₁.silenceErrors s₂) :
      Repeats body start offsets s (.ok, s₂.unsilenceErrors)

/-- The bound on the rounds never ends a repetition. -/
theorem repeated_eq_some_iff {start : Position} {s : State input U} {reply : Reply input U} :
    repeated body start s = some reply ↔ ∃ offsets, Repeats body start offsets s reply := by
  have hrounds (s : State input U) : input.size < s.cursor + (input.size + 1 - s.cursor) := by
    have := s.cursor_le
    omega
  constructor
  · intro h
    rcases hfirst : body start s with _ | ⟨_ | _ | _, s₁⟩
    all_goals simp only [repeated, hfirst] at h
    · cases h
    · rcases hagain : again body (input.size + 1 - s₁.cursor) s₁.silenceErrors with _ | s₂
      all_goals simp only [hagain] at h
      · cases h
      · cases h
        obtain ⟨offsets, hlaps⟩ := ((again_eq_some_iff (hrounds s₁.silenceErrors)).1 hagain).laps
        exact ⟨offsets, .matched hfirst hlaps⟩
    · cases h
      exact ⟨[], .refused hfirst (by decide)⟩
    · cases h
      exact ⟨[], .refused hfirst (by decide)⟩
  · rintro ⟨offsets, h⟩
    cases h with
    | @refused _ s₁ outcome h houtcome =>
      cases outcome with
      | ok => exact absurd rfl houtcome
      | fail => simp only [repeated, h]
      | noMatch => simp only [repeated, h]
    | @matched _ _ s₁ s₂ h hlaps =>
      have hagain : again body (input.size + 1 - s₁.cursor) s₁.silenceErrors = some s₂ :=
        (again_eq_some_iff (hrounds s₁.silenceErrors)).2 hlaps.loops
      simp only [repeated, h, hagain]

/-- **A repetition matches its body twice, and once more for every byte, at most**: from the second
round on each starts further on than the one before. -/
theorem Repeats.increasing {start : Position} {offsets : List Nat} {s : State input U}
    {reply : Reply input U} (h : Repeats body start offsets s reply) :
    offsets.Pairwise (· < ·) ∧ offsets.length + 1 ≤ input.size + 2 := by
  cases h with
  | refused => exact ⟨.nil, by simp⟩
  | matched h hlaps =>
    have hlength := hlaps.length_le
    exact ⟨hlaps.increasing, by omega⟩

end Evaluate

/-! ## Fluff -/

namespace Fluff

/-- One round of the scan: either it ends there, or it goes on in some mode at some offset. -/
def round (input : Array UInt8) (mode : Mode) (offset : Nat) : Ending × Nat ⊕ Mode × Nat :=
  match input[offset]? with
  | none => .inl (mode.ending, offset)
  | some b =>
    match mode with
    | .between =>
      if isSeparator b then .inr (.between, offset + 1)
      else if b = 0x2F then
        if input[offset + 1]? = some 0x2F then .inr (.line, offset + 2)
        else if input[offset + 1]? = some 0x2A then .inr (.block 0, offset + 2)
        else .inl (.straySlash, offset)
      else .inl (.clean, offset)
    | .line => .inr (if b = 0x0A then .between else .line, offset + 1)
    | .block depth =>
      if b = 0x2F ∧ input[offset + 1]? = some 0x2A then .inr (.block (depth + 1), offset + 2)
      else if b = 0x2A ∧ input[offset + 1]? = some 0x2F then .inr (afterBlock depth, offset + 2)
      else .inr (.block depth, offset + 1)

/-- What scanning comes to, round by round.  Every round that is followed by another advances. -/
inductive Rounds (input : Array UInt8) : Mode → Nat → Ending × Nat → Prop
  | last {mode : Mode} {offset : Nat} {result : Ending × Nat}
      (h : round input mode offset = .inl result) : Rounds input mode offset result
  | next {mode mode' : Mode} {offset offset' : Nat} {result : Ending × Nat}
      (h : round input mode offset = .inr (mode', offset')) (hnext : offset < offset')
      (hrest : Rounds input mode' offset' result) : Rounds input mode offset result

theorem scan_succ (rounds : Nat) (mode : Mode) (offset : Nat) :
    scan input (rounds + 1) mode offset =
      match round input mode offset with
      | .inl result => result
      | .inr (mode', offset') => scan input rounds mode' offset' := by
  rw [scan, round]
  grind

/-- A round that goes on advances, between comments and within them. -/
theorem lt_of_round {mode mode' : Mode} {offset offset' : Nat}
    (h : round input mode offset = .inr (mode', offset')) : offset < offset' := by
  unfold round at h
  grind

/-- The bound on the rounds never ends a scan. -/
theorem scan_rounds (mode : Mode) {offset rounds : Nat} (hrounds : input.size ≤ offset + rounds) :
    Rounds input mode offset (scan input rounds mode offset) := by
  induction rounds generalizing mode offset with
  | zero =>
    have hend : input[offset]? = none := Array.getElem?_eq_none hrounds
    exact .last (by rw [round, hend, scan])
  | succ rounds ih =>
    rw [scan_succ]
    rcases hround : round input mode offset with result | ⟨mode', offset'⟩
    · exact .last hround
    · have hnext := lt_of_round hround
      exact .next hround hnext (ih mode' (by omega))

end Fluff
end DocGrammar
