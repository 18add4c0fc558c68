import DocGrammar.Proofs.Diagnostics.Surroundings
import DocGrammar.Proofs.Printing.Documents

/-!
# Collections that are not closed

If a node is still open where the input ends, its body fails there, and no failure can lie further
on (`value_unclosed`).  So the failure at the end of the input is what is reported, whatever nodes
are around that one: the last of the nodes that are opened one inside another stands at a place of
the document (`openings_place`).
-/

set_option autoImplicit false

namespace DocGrammar

variable {input : Array UInt8}

/-- The failure of a collection that is open at the end of the input. -/
def State.unclosed (input : Array UInt8) : Failure :=
  ⟨input.size, none, .message "unclosed collection at end of input"⟩

namespace TextGrammar

open Direct (Ended Idle)

/-! ## A node that is open -/

/-- Behind the members of a document there is nothing left, and a node is not closed there. -/
theorem members_unclosed {bytes rest : List UInt8} (hbytes : Ended bytes) {docs : List Doc}
    (h : Direct.document bytes = some docs) (hlength : bytes.length ≤ input.size)
    (hfluff : Direct.fluff bytes = some rest) :
    FatalSequence input (State.unclosed input) Idle [itemsOf .node, act (collectionEnd .node)]
      rest := by
  intro budget before outcome s s' hs hidle hreply
  obtain ⟨o, s₁, hmembers, -, hreply⟩ := Evaluate.inOrder_cons_inv hreply
  obtain ⟨hne, hrest⟩ := members_reach (t := []) hbytes nofun h hlength
    (by rw [List.append_nil, hs.rest_eq, hfluff]) hs.resultsSilenced_eq hidle hmembers
  have hwithin : s₁.Within input.size :=
    (members_wordlike budget hmembers).1.within s.cursor_le _ (Nat.le_refl _) hs.within
  obtain ⟨o, s₂, hend, hlast, -⟩ := Evaluate.inOrder_cons_inv (hreply hne)
  obtain ⟨entered, left, hclosing, hsame, hentered, hleft⟩ := act_inv hend
  have hpeek : entered.peek = none := by
    rw [State.peek_eq, hsame.rest_eq, hrest]
    rfl
  have hcursor : entered.cursor = input.size :=
    Nat.le_antisymm entered.cursor_le (Array.getElem?_eq_none_iff.1 hpeek)
  have hmarked : (entered.fail (.message "unclosed collection at end of input")).2.Marked
      (State.unclosed input) := by
    have hbyte : input[entered.cursor]? = none := hpeek
    have hfailed := State.Within.marked_fail (s := entered)
      (hcursor ▸ hwithin.congr hentered.furthest_eq)
      (.message "unclosed collection at end of input")
    rwa [hbyte, hcursor] at hfailed
  simp only [collectionEnd, hpeek] at hclosing
  cases hclosing
  obtain ⟨rfl, rfl⟩ := hlast rfl
  exact ⟨rfl, hmarked.congr hleft.furthest_eq⟩

/-- **A value that is a node and left open** fails, and the failure at the end of the input is the
furthest. -/
theorem value_unclosed {gap bytes : List UInt8} (hgap : ∀ b ∈ gap, Fluff.isSeparator b = true)
    (hbytes : Ended bytes) {docs : List Doc} (h : Direct.document bytes = some docs)
    (hlength : bytes.length ≤ input.size) :
    Direct.FatalAt input (State.unclosed input) .value (0x7B :: (gap ++ bytes)) := by
  obtain ⟨rest, hfluff⟩ := fluff_of_document hbytes (t := []) nofun h
  rw [List.append_nil] at hfluff
  refine ⟨⟨_, rfl, rfl⟩, ?_⟩
  exact collection_fatal .node (by rw [Direct.fluff_append hgap, hfluff])
    (Nat.le_add_right _ _) (members_unclosed hbytes h hlength hfluff)

/-! ## Nodes inside one another -/

/-- Opens a node: its name, an equals sign and a brace. -/
def opening (name : String) : List UInt8 := Utf8.encode (name ++ " = \x7b")

theorem opening_append {name : String} (hname : Doc.isBare name = true) (rest : List UInt8) :
    opening name ++ rest =
      Utf8.encode (Doc.nameText name ++ " = ") ++ 0x7B :: rest := by
  have hopened : name ++ " = \x7b" = Doc.nameText name ++ " = " ++ "\x7b" := by
    rw [Doc.nameText, if_pos hname, String.append_assoc]
    rfl
  rw [opening, hopened, Utf8.encode_append, List.append_assoc]
  rfl

/-- Opens nodes one inside another, with blank space behind each brace. -/
def openings (openers : List (String × List UInt8)) : List UInt8 :=
  openers.flatMap fun (name, gap) ↦ opening name ++ gap

/-- The names are bare, and the blank space is blank. -/
def AreOpeners (openers : List (String × List UInt8)) : Prop :=
  ∀ name gap, (name, gap) ∈ openers →
    Doc.isBare name = true ∧ ∀ b ∈ gap, Fluff.isSeparator b = true

theorem openings_cons (name : String) (gap : List UInt8) (openers : List (String × List UInt8))
    (tail : List UInt8) :
    openings ((name, gap) :: openers) ++ tail =
      opening name ++ (gap ++ (openings openers ++ tail)) := by
  rw [openings, List.flatMap_cons, List.append_assoc, List.append_assoc]
  rfl

theorem openings_begin {openers : List (String × List UInt8)} (hne : openers ≠ [])
    (h : AreOpeners openers) (tail : List UInt8) : Doc.BeginsItem (openings openers ++ tail) := by
  obtain ⟨⟨name, gap⟩, more, rfl⟩ := List.exists_cons_of_ne_nil hne
  rw [openings_cons, opening_append (h name gap List.mem_cons_self).1, Utf8.encode_append,
    List.append_assoc]
  exact (Doc.nameText_begins name).append _

/-- The last of the nodes stands where a value has to stand. -/
theorem openings_items {openers : List (String × List UInt8)} (hne : openers ≠ [])
    (h : AreOpeners openers) (tail : List UInt8) :
    ∃ gap, (∀ b ∈ gap, Fluff.isSeparator b = true) ∧
      Direct.Place (0x7B :: (gap ++ tail)) (.items .node) (openings openers ++ tail) := by
  induction openers with
  | nil => exact absurd rfl hne
  | cons opener more ih =>
    obtain ⟨name, gap⟩ := opener
    obtain ⟨hname, hgap⟩ := h name gap List.mem_cons_self
    rw [openings_cons, opening_append hname]
    have hspace {rest : List UInt8} :
        Direct.fluff (0x20 :: 0x7B :: rest) = some (0x7B :: rest) := by
      have hsolid : Direct.IsSolid (0x7B :: rest) := by
        rintro b ⟨⟩
        decide
      rw [Direct.fluff_cons (by decide), hsolid.fluff_eq]
    rcases more with _ | ⟨next, more⟩
    · exact ⟨gap, hgap, .member (Direct.heading_nameText name _) hspace .here⟩
    · have hmore : AreOpeners (next :: more) :=
        fun name gap hmem ↦ h name gap (List.mem_cons_of_mem _ hmem)
      obtain ⟨gap', hgap', hplace⟩ := ih (List.cons_ne_nil _ _) hmore
      have hfluff : Direct.fluff (gap ++ (openings (next :: more) ++ tail)) =
          some (openings (next :: more) ++ tail) := by
        rw [Direct.fluff_append hgap,
          (openings_begin (List.cons_ne_nil _ _) hmore tail).isSolid.fluff_eq]
      exact ⟨gap', hgap', .member (Direct.heading_nameText name _) hspace (.inside hfluff hplace)⟩

theorem openings_place {openers : List (String × List UInt8)} (hne : openers ≠ [])
    (h : AreOpeners openers) (tail : List UInt8) :
    ∃ gap, (∀ b ∈ gap, Fluff.isSeparator b = true) ∧
      Direct.DocumentPlace (0x7B :: (gap ++ tail)) (openings openers ++ tail) := by
  obtain ⟨gap, hgap, hplace⟩ := openings_items hne h tail
  exact ⟨gap, hgap, _, (openings_begin hne h tail).isSolid.fluff_eq, hplace⟩

end TextGrammar
end DocGrammar
