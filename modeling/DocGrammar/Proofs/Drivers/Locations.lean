import DocGrammar.Proofs.Drivers.Reached

/-!
# Lines and columns

A location is counted from the place where a parse last ended, if the offset does not lie before it,
and from the start of the input otherwise.  Either way it comes to the same as counting all the line
feeds before the offset, and the bytes behind the last of them: `Location.behind` does that, and
nothing is cached.

For any state that can be reached at all, the place lies within the input and is where its line and
column say (`State.Reaches.located`), and it is where the last successful parse ended, as far as
notes were taken of that (`State.Reaches.synced_eq`).  So it does not matter how often the cursor
went back, or to where.
-/

set_option autoImplicit false

namespace DocGrammar

variable {N U : Type} {input : Array UInt8}

/-! ## Counting from the start -/

/-- The place behind some bytes: on a line for each line feed and one more, in a column for each
byte behind the last line feed and one more. -/
def Location.behind (bytes : List UInt8) : Location :=
  ⟨1 + bytes.count 0x0A, 1 + (bytes.reverse.takeWhile (· ≠ 0x0A)).length⟩

theorem Location.skip_eq_behind (bytes : List UInt8) :
    ({} : Location).skip bytes = .behind bytes := by
  induction bytes using List.reverseRecOn with
  | nil => rfl
  | append_singleton bytes b ih =>
    have hlast : ({} : Location).skip (bytes ++ [b]) = (({} : Location).skip bytes).next b := by
      rw [skip, List.foldl_append]
      rfl
    rw [hlast, ih]
    by_cases hb : b = 0x0A
    · simp [next, behind, hb, Nat.add_assoc]
    · simp [next, behind, hb, Nat.add_comm]

namespace State

/-! ## Where counting begins -/

variable {notes : U → Option Nat → Prop}

/-- Bringing the location up to the cursor leaves it where it should be. -/
theorem Located.sync {s : State input U} (hs : s.Located) : s.sync.Located := by
  refine ⟨s.cursor_le, ?_⟩
  show s.locate s.cursor = ({} : Location).skip (between input 0 s.cursor)
  rw [hs.locate_eq, Nat.min_eq_left s.cursor_le]

theorem Located.of_samePlace {s t : State input U} (hs : s.Located) (h : s.SamePlace t) :
    t.Located := by
  refine ⟨h.synced_eq ▸ hs.synced_le, ?_⟩
  rw [h.location_eq, h.synced_eq, hs.location_eq]

theorem located_kept : Kept notes (Located : State input U → Prop) where
  ofPlace _ _ := Located.of_samePlace
  withUser _ hs _ := ⟨hs.synced_le, hs.location_eq⟩
  start _ := start_located input _
  sync _ hs _ := ⟨hs.sync.synced_le, hs.sync.location_eq⟩

/-- Lines are counted from where they should be, in any state that can be reached. -/
theorem Reaches.located {user : U} {trace : Option (Array Event)} {s : State input U}
    (h : Reaches notes { start input user with trace } s) : s.Located :=
  have hstart := start_located input user
  h.keeps located_kept ⟨hstart.synced_le, hstart.location_eq⟩

theorem synced_kept {ended : U → Option Nat}
    (hended : ∀ user last, notes user last ↔ ended user = last) :
    Kept notes fun s : State input U ↦ s.synced = (ended s.user).getD 0 where
  ofPlace s t hs h := by
    dsimp only at hs ⊢
    rw [h.synced_eq, h.user_eq, hs]
  withUser user hs h := by
    dsimp only at hs ⊢
    rw [(hended user _).1 (h _ ((hended _ _).2 rfl)), hs]
  start h := by
    dsimp only [start]
    rw [(hended _ none).1 h, Option.getD_none]
  sync user _ h := by
    dsimp only [sync]
    rw [(hended user _).1 h, Option.getD_some]

/-- They are counted from where the last parse ended that succeeded. -/
theorem Reaches.synced_eq {ended : U → Option Nat}
    (hended : ∀ user last, notes user last ↔ ended user = last) {user : U}
    {trace : Option (Array Event)} {s : State input U} (huser : ended user = none)
    (h : Reaches notes { start input user with trace } s) : s.synced = (ended s.user).getD 0 :=
  h.keeps (synced_kept hended) (by rw [start, huser, Option.getD_none])

/-- **Locations are counted right** in any state that can be reached from the start of an input.
The state's own location is that of the place where the last parse ended that succeeded: `ended`
reads it from the notes, and there are none at the start. -/
theorem locations_counted (notes : U → Option Nat → Prop) (user : U)
    (trace : Option (Array Event)) (s : State input U)
    (h : Reaches notes { start input user with trace } s) :
    s.cursor ≤ input.size ∧ s.synced ≤ input.size ∧
      (∀ offset, (if s.synced ≤ offset then s.synced else 0) ≤ min offset input.size ∧
        s.locate offset = .behind (input.toList.take (min offset input.size))) ∧
      ∀ ended : U → Option Nat, (∀ u last, notes u last ↔ ended u = last) → ended user = none →
        s.location = .behind (input.toList.take ((ended s.user).getD 0)) := by
  have hs := h.located
  refine ⟨s.cursor_le, hs.synced_le, fun offset ↦ ⟨?_, ?_⟩, fun ended hended huser ↦ ?_⟩
  · split
    · next hle => exact Nat.le_min.2 ⟨hle, hs.synced_le⟩
    · exact Nat.zero_le _
  · rw [hs.locate_eq, between_eq, Location.skip_eq_behind]
    rfl
  · rw [hs.location_eq, between_eq, Location.skip_eq_behind, h.synced_eq hended huser]
    rfl

/-! ### A driver within a driver -/

/-- An action that calls a driver, which looks for a line feed, and notes where that has ended. -/
def lineFeed : Action Empty (Option Nat) := fun s _ ↦
  match s.parse Empty.elim 1 (.byte 0x0A) with
  | some (.ok _, t) => .done (.ok, { t with user := some t.cursor })
  | some (.error _, t) => .done (.fail, t)
  | none => .done (.fail, s)

/-- A line that is no more than a seven, and another that is no more than a nine. -/
def sevenNine : Rule Empty (Option Nat) := .allOf [.byte 0x37, .leaf lineFeed, .byte 0x39]

/-- The start of a text in which the second line is something else. -/
def sevenEight : State #[0x37, 0x0A, 0x38] (Option Nat) := State.start _ none

/-- Data that is nothing but the note. -/
def isNote (user last : Option Nat) : Prop := user = last

theorem lineFeed_open {input : Array UInt8} (s : State input (Option Nat)) (start : Position) :
    Program.Open isNote Empty s (lineFeed s start) := by
  have hbyte : @Rule.Open _ input isNote Empty Empty.elim (.byte 0x0A) :=
    .of_every (fun n ↦ n.elim) trivial
  unfold lineFeed
  rcases hparse : s.parse Empty.elim 1 (.byte 0x0A) with _ | ⟨e | n, t⟩
  · exact .done (.refl s)
  · exact .done (.failed (.refl s) hbyte List.mem_cons_self hparse)
  · exact .done (.passed (.refl s) hbyte List.mem_cons_self hparse rfl)

theorem sevenNine_open {input : Array UInt8} :
    @Rule.Open _ input isNote Empty Empty.elim sevenNine :=
  .of_every (fun n ↦ n.elim) ⟨trivial, lineFeed_open, trivial, trivial⟩

/-- The parse fails in the second line, but the line feed before it was parsed. -/
theorem locations_counted_nested : ∃ t : State #[0x37, 0x0A, 0x38] (Option Nat),
    t.cursor = 3 ∧ t.user = some 2 ∧ t.location = ⟨2, 1⟩ ∧ t.locate 1 = ⟨1, 2⟩ ∧
      t.locate 99 = ⟨2, 2⟩ := by
  have hanswer : (sevenEight.parse Empty.elim 2 sevenNine).map (fun answer ↦
      (match answer.1 with
      | .ok _ => none
      | .error e => some e, answer.2.user)) =
        some (some ⟨⟨2, 1⟩, "expected '9', found '8'"⟩, some 2) := by
    decide +kernel
  obtain ⟨⟨e | n, t⟩, hparse, he⟩ := Option.map_eq_some_iff.1 hanswer
  · have hreaches : State.Reaches isNote sevenEight (t.restore ⟨99, 99⟩) :=
      .operation (.failed (.refl _) sevenNine_open List.mem_cons_self hparse) (.restore t _)
    obtain ⟨-, -, hlocate, hnoted⟩ := locations_counted isNote none none _ hreaches
    have hlocation := hnoted id (fun _ _ ↦ Iff.rfl) rfl
    have huser : t.user = some 2 := congrArg Prod.snd he
    refine ⟨t.restore ⟨99, 99⟩, rfl, huser, hlocation.trans ?_, (hlocate 1).2.trans ?_,
      (hlocate 99).2.trans ?_⟩
    · show Location.behind (List.take (t.user.getD 0) _) = _
      rw [huser]
      decide
    · decide
    · decide
  · cases he

end State
end DocGrammar
