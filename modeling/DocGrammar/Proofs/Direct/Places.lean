import DocGrammar.Proofs.Direct.Document

/-!
# Where values stand

`Place target` describes the places of a text at which a value has to be: the text is sound up to
there, and `target` is what is left of it.  A value stands behind the equals sign of a member, or
where an element of an array begins; and there may be sound members and elements before it, and
open brackets around it.

A number may stand where a value has to, or where the next component of a vector has to
(`NumberPlace`).

Nothing makes up for a value that is missing.  If none can be read at a place, there is no document
(`document_eq_none_of_place`).

The depth up to which values are read does not matter here: what is read with some depth is read
with any greater one (`value_mono`).
-/

set_option autoImplicit false

namespace DocGrammar
namespace Direct

/-! ## Depths -/

/-- What one reader reads, another reads as well. -/
def Within {α : Type} (read read' : List UInt8 → Option (α × List UInt8)) : Prop :=
  ∀ ⦃bytes found⦄, read bytes = some found → read' bytes = some found

section

variable {α : Type} {read read' : List UInt8 → Option (α × List UInt8)}

theorem Within.withFluff (h : Within read read') : Within (withFluff read) (withFluff read') := by
  intro bytes found hread
  obtain ⟨⟨x, left⟩, hx, hfluff⟩ := Option.bind_eq_some_iff.1 hread
  rw [Direct.withFluff, h hx]
  exact hfluff

theorem Within.items (h : Within read read') (closer : Option UInt8) :
    ∀ rounds, Within (items read closer rounds) (items read' closer rounds)
  | 0, _, _, hread => by cases hread
  | rounds + 1, bytes, found, hread => by
    rw [Direct.items] at hread ⊢
    split at hread
    · next hhead => rw [if_pos hhead, hread]
    · next hhead =>
      obtain ⟨⟨x, left⟩, hx, hleft⟩ := Option.bind_eq_some_iff.1 hread
      obtain ⟨more, hmore, heq⟩ := Option.map_eq_some_iff.1 hleft
      rw [if_neg hhead, h.withFluff hx]
      simp only [Option.bind_some, h.items closer rounds hmore, Option.map_some]
      exact congrArg some heq

theorem Within.enclosed (h : Within read read') (closer : Option UInt8) :
    Within (enclosed read closer) (enclosed read' closer) := by
  intro bytes found hread
  obtain ⟨rest, hrest, hitems⟩ := Option.bind_eq_some_iff.1 hread
  rw [Direct.enclosed, hrest]
  exact h.items closer _ hitems

end

section

variable {read read' : List UInt8 → Option (Content Doc × List UInt8)}

theorem Within.element (h : Within read read') : Within (element read) (element read') := by
  intro bytes found hread
  obtain ⟨x, hx, heq⟩ := Option.map_eq_some_iff.1 hread
  rw [Direct.element, h hx, Option.map_some, heq]

theorem Within.member (h : Within read read') : Within (member read) (member read') := by
  intro bytes found hread
  obtain ⟨⟨name, rest⟩, hname, hread⟩ := Option.bind_eq_some_iff.1 hread
  obtain ⟨x, hx, heq⟩ := Option.map_eq_some_iff.1 hread
  obtain ⟨left, hleft, hvalue⟩ := Option.bind_eq_some_iff.1 hx
  rw [Direct.member, hname]
  simp only [Option.bind_some, hleft, h hvalue, Option.map_some, heq]

end

theorem value_within_succ : ∀ depth, Within (value depth) (value (depth + 1))
  | 0, _, _, hread => by cases hread
  | _ + 1, [], _, hread => by cases hread
  | depth + 1, b :: rest, found, hread => by
    have ih := value_within_succ depth
    rw [value] at hread ⊢
    by_cases harray : b = 0x5B
    · rw [if_pos harray] at hread ⊢
      obtain ⟨docs, hdocs, heq⟩ := Option.map_eq_some_iff.1 hread
      rw [ih.element.enclosed _ hdocs, Option.map_some, heq]
    · rw [if_neg harray] at hread ⊢
      by_cases hnode : b = 0x7B
      · rw [if_pos hnode] at hread ⊢
        obtain ⟨docs, hdocs, heq⟩ := Option.map_eq_some_iff.1 hread
        rw [ih.member.enclosed _ hdocs, Option.map_some, heq]
      · -- nothing else goes deeper
        rw [if_neg hnode] at hread ⊢
        exact hread

theorem value_mono {depth depth' : Nat} (h : depth ≤ depth') :
    Within (value depth) (value depth') := by
  induction h with
  | refl => exact fun _ _ h ↦ h
  | step _ ih => exact fun _ _ h ↦ value_within_succ _ (ih h)

/-! ## Items -/

/-- What may stand behind the last item: the closing bracket, or the end of the document behind its
members. -/
def MayClose : Form → Option UInt8 → Prop
  | .array, closer => closer = some 0x5D
  | .node, closer => closer = some 0x7D ∨ closer = none

theorem itemOf_mono (form : Form) {depth depth' : Nat} (h : depth ≤ depth') :
    Within (itemOf form (value depth)) (itemOf form (value depth')) := by
  cases form with
  | array => exact (value_mono h).element
  | node => exact (value_mono h).member

theorem MayClose.itemOf_eq_none {form : Form} {closer : Option UInt8} (h : MayClose form closer)
    (depth : Nat) {bytes : List UInt8} (hbytes : bytes.head? = closer) :
    itemOf form (value depth) bytes = none := by
  cases form with
  | array => exact element_eq_none depth (hbytes.trans h)
  | node => exact member_eq_none _ (h.imp hbytes.trans hbytes.trans)

/-! ## Places -/

/-- What has to stand at a place: a value, or the items of a collection and what closes it. -/
inductive Stage where
  | value
  | items (form : Form)

/-- A text that is to begin with a value or with items is sound up to a target, where a value has
to stand. -/
inductive Place (target : List UInt8) : Stage → List UInt8 → Prop
  | here : Place target .value target
  /-- Behind an opening bracket and fluff, -/
  | inside {form : Form} {rest bytes : List UInt8} (hfluff : fluff rest = some bytes)
      (h : Place target (.items form) bytes) :
      Place target .value (TextGrammar.opener form :: rest)
  /-- in an element of an array, -/
  | element {bytes : List UInt8} (h : Place target .value bytes) :
      Place target (.items .array) bytes
  /-- behind the name of a member, an equals sign and fluff, -/
  | member {bytes rest left : List UInt8} {name : String}
      (hname : heading bytes = some (name, rest)) (hfluff : fluff rest = some left)
      (h : Place target .value left) :
      Place target (.items .node) bytes
  /-- or among the items behind the first and fluff. -/
  | later {form : Form} {bytes rest left : List UInt8} {depth : Nat} {doc : Doc}
      (hitem : itemOf form (value depth) bytes = some (doc, rest)) (hfluff : fluff rest = some left)
      (h : Place target (.items form) left) : Place target (.items form) bytes

/-- A place of a document. -/
def DocumentPlace (target bytes : List UInt8) : Prop :=
  ∃ rest, fluff bytes = some rest ∧ Place target (.items .node) rest

/-- A place inside what stands at a place is one itself. -/
theorem Place.trans {target middle bytes : List UInt8} {stage : Stage}
    (h : Place target .value middle) (h' : Place middle stage bytes) :
    Place target stage bytes := by
  induction h' with
  | here => exact h
  | inside hfluff _ ih => exact .inside hfluff ih
  | element _ ih => exact .element ih
  | member hname hfluff _ ih => exact .member hname hfluff ih
  | later hitem hfluff _ ih => exact .later hitem hfluff ih

theorem DocumentPlace.inside {target middle bytes : List UInt8} (h : DocumentPlace middle bytes)
    (h' : Place target .value middle) : DocumentPlace target bytes := by
  obtain ⟨rest, hfluff, hplace⟩ := h
  exact ⟨rest, hfluff, h'.trans hplace⟩

/-! ## Numbers -/

/-- The components of a vector can be read one by one up to a target, where the next one has to
stand. -/
inductive Components (target : List UInt8) : List UInt8 → Prop
  | here : Components target target
  | later {bytes rest left : List UInt8} {content : Content Doc}
      (hnumber : number bytes = some (content, rest)) (hfluff : fluff rest = some left)
      (h : Components target left) : Components target bytes

/-- A place of a document at which a number may stand: that of a value, or of a component of a
vector that is one. -/
def NumberPlace (target bytes : List UInt8) : Prop :=
  DocumentPlace target bytes ∨
    ∃ rest left, DocumentPlace (0x28 :: rest) bytes ∧ fluff rest = some left ∧
      Components target left

/-! ## Missing values -/

/-- Nothing can be read of a text: neither a value nor items. -/
def Unreadable : Stage → List UInt8 → Prop
  | .value, bytes => bytes.head? ≠ some 0x5D ∧ ∀ depth, value depth bytes = none
  | .items form, bytes => ∀ closer, MayClose form closer → ∀ depth rounds,
    items (itemOf form (value depth)) closer rounds bytes = none

/-- Items are not readable if the first is not, -/
theorem unreadable_of_item {form : Form} {bytes : List UInt8}
    (hopen : ∀ closer, MayClose form closer → bytes.head? ≠ closer)
    (h : ∀ depth, itemOf form (value depth) bytes = none) : Unreadable (.items form) bytes := by
  intro closer hcloses depth rounds
  cases rounds with
  | zero => rfl
  | succ rounds =>
    rw [items, if_neg (hopen closer hcloses), withFluff, h depth]
    rfl

/-- or if those behind it are not. -/
theorem unreadable_of_later {form : Form} {bytes rest left : List UInt8} {depth : Nat} {doc : Doc}
    (hitem : itemOf form (value depth) bytes = some (doc, rest)) (hfluff : fluff rest = some left)
    (h : Unreadable (.items form) left) : Unreadable (.items form) bytes := by
  intro closer hcloses depth' rounds
  cases rounds with
  | zero => rfl
  | succ rounds =>
    have hopen : bytes.head? ≠ closer := by
      intro hhead
      rw [hcloses.itemOf_eq_none depth hhead] at hitem
      cases hitem
    rw [items, if_neg hopen, withFluff]
    cases hread : itemOf form (value depth') bytes with
    | none => rfl
    | some found =>
      -- with either depth the same is read
      have hsame : found = (doc, rest) := by
        have hleft := itemOf_mono form (Nat.le_max_left depth depth') hitem
        have hright := itemOf_mono form (Nat.le_max_right depth depth') hread
        exact Option.some.inj (hright.symm.trans hleft)
      rw [hsame]
      simp only [Option.bind_some, hfluff, Option.map_some, h closer hcloses depth' rounds,
        Option.map_none]

theorem Place.unreadable {target : List UInt8} (htarget : Unreadable .value target) {stage : Stage}
    {bytes : List UInt8} (h : Place target stage bytes) : Unreadable stage bytes := by
  induction h with
  | here => exact htarget
  | @inside form rest bytes hfluff _ ih =>
    have hopener : TextGrammar.opener form ≠ 0x5D := by cases form <;> decide
    refine ⟨fun hhead ↦ hopener (Option.some.inj hhead), fun depth ↦ ?_⟩
    cases depth with
    | zero => rfl
    | succ depth =>
      have hnone (closer : UInt8) (hcloses : MayClose form (some closer)) :
          enclosed (itemOf form (value depth)) (some closer) rest = none := by
        rw [enclosed, hfluff, Option.bind_some, ih _ hcloses]
      rw [value_collection]
      refine congrArg _ (hnone _ ?_)
      cases form with
      | array => exact rfl
      | node => exact .inl rfl
  | @element bytes _ ih =>
    refine unreadable_of_item (fun closer hcloses hhead ↦ ih.1 (hhead.trans hcloses)) fun depth ↦ ?_
    rw [itemOf, Direct.element, ih.2 depth]
    rfl
  | @member bytes rest left name hname hfluff _ ih =>
    refine unreadable_of_item (fun closer hcloses hhead ↦ ?_) fun depth ↦ ?_
    · have hnone := string_eq_none_of_closer (hcloses.imp hhead.trans hhead.trans)
      rw [heading, hnone] at hname
      cases hname
    · rw [itemOf, Direct.member, hname, Option.bind_some]
      simp only [hfluff, Option.bind_some, ih.2 depth, Option.map_none]
  | later hitem hfluff _ ih => exact unreadable_of_later hitem hfluff ih

/-- **A missing value cannot be made up for.** -/
theorem document_eq_none_of_place {target bytes : List UInt8} (htarget : Unreadable .value target)
    (h : DocumentPlace target bytes) : document bytes = none := by
  obtain ⟨rest, hfluff, hplace⟩ := h
  have hnone := hplace.unreadable htarget none (.inr rfl) (bytes.length + 1) (rest.length + 1)
  rw [document, enclosed, hfluff, Option.bind_some]
  exact congrArg (Option.map Prod.fst) hnone

end Direct
end DocGrammar
