import DocGrammar.Proofs.Printing.Numerals
import DocGrammar.Proofs.Reading

/-!
# Reading what was printed

A document whose numbers are finite is printed as text that can be read, and this file says which
document is read (`Doc.read_print_of_isFinite`).  It is not the same: decimals settle to seven
places, components of vectors are rounded twice, elements of arrays lose their names, and
collections have the room that growing child by child leaves.  `reread` is the document with these
changes.

The induction is on the tree, and it is about values with the end of a line behind them.  For a
collection it needs to know that the space which the printer puts between lines is fluff, and that a
line never begins with a closing bracket.
-/

set_option autoImplicit false

namespace DocGrammar
namespace Doc

/-! ## Induction over contents -/

/-- Whether a content is no collection. -/
def isLeaf : Content Doc → Bool
  | .collection _ _ => false
  | _ => true

/-- What holds of leaves, and of a collection if it holds of the children, holds of every
content. -/
@[elab_as_elim]
theorem content_induction {motive : Content Doc → Prop}
    (leaf : ∀ content, isLeaf content = true → motive content)
    (collection : ∀ form (c : Collection Doc), (∀ d ∈ c.items, motive d.content) →
      motive (.collection form c)) (content : Content Doc) : motive content :=
  match content with
  | .null => leaf .null rfl
  | .integer x => leaf (.integer x) rfl
  | .decimal x => leaf (.decimal x) rfl
  | .boolean x => leaf (.boolean x) rfl
  | .string x => leaf (.string x) rfl
  | .vector v => leaf (.vector v) rfl
  | .collection form c =>
    collection form c fun d _ ↦ content_induction leaf collection d.content
termination_by sizeOf content
decreasing_by
  next hd =>
    have hlt := List.sizeOf_lt_of_mem hd
    obtain ⟨items, space⟩ := c
    obtain ⟨name, content⟩ := d
    simp only [Doc.mk.sizeOf_spec, Content.collection.sizeOf_spec,
      Collection.mk.sizeOf_spec] at hlt ⊢
    omega

/-! ## Documents with finite numbers -/

mutual

/-- Whether all numbers in a content are finite. -/
def isFinite : Content Doc → Bool
  | .decimal x => x.isFinite
  | .vector v => v.components.all Binary.isFinite
  | .collection _ c => isFiniteCollection c
  | _ => true

/-- The same for the children of a collection. -/
def isFiniteCollection : Collection Doc → Bool
  | ⟨items, _⟩ => isFiniteAll items

/-- The same for children one by one. -/
def isFiniteAll : List Doc → Bool
  | [] => true
  | ⟨_, content⟩ :: rest => isFinite content && isFiniteAll rest

end

theorem isFiniteAll_iff {docs : List Doc} :
    isFiniteAll docs = true ↔ ∀ d ∈ docs, isFinite d.content = true := by
  induction docs with
  | nil =>
    rw [isFiniteAll]
    exact ⟨fun _ _ hd ↦ absurd hd List.not_mem_nil, fun _ ↦ rfl⟩
  | cons d docs ih =>
    obtain ⟨name, content⟩ := d
    rw [isFiniteAll, Bool.and_eq_true, ih, List.forall_mem_cons]

theorem isFinite_collection {form : Form} {c : Collection Doc} :
    isFinite (.collection form c) = true ↔ ∀ d ∈ c.items, isFinite d.content = true := by
  rw [isFinite, ← isFiniteAll_iff]
  obtain ⟨items, space⟩ := c
  rw [isFiniteCollection]

/-- What is left of a child's name. -/
def rereadName (form : Form) (name : Name) : Name :=
  match form with
  | .array => .empty
  | .node => name

mutual

/-- What is read of a content that was printed. -/
def reread : Content Doc → Content Doc
  | .decimal x => .decimal (x.settled decimalPlaces)
  | .vector v => .vector v.roundedTwice
  | .collection form c => .collection form (rereadCollection form c)
  | content => content

/-- What is read of a collection. -/
def rereadCollection (form : Form) : Collection Doc → Collection Doc
  | ⟨items, _⟩ => Direct.gather (rereadAll form items)

/-- What is read of children. -/
def rereadAll (form : Form) : List Doc → List Doc
  | [] => []
  | ⟨name, content⟩ :: rest => ⟨rereadName form name, reread content⟩ :: rereadAll form rest

end

/-- What is read of a child. -/
def rereadChild (form : Form) (d : Doc) : Doc := ⟨rereadName form d.name, reread d.content⟩

theorem rereadAll_eq (form : Form) (docs : List Doc) :
    rereadAll form docs = docs.map (rereadChild form) := by
  induction docs with
  | nil => rw [rereadAll, List.map_nil]
  | cons d docs ih =>
    obtain ⟨name, content⟩ := d
    rw [rereadAll, ih, List.map_cons]
    rfl

theorem reread_collection (form : Form) (c : Collection Doc) :
    reread (.collection form c) =
      .collection form (Direct.gather (c.items.map (rereadChild form))) := by
  rw [reread, ← rereadAll_eq]
  obtain ⟨items, space⟩ := c
  rw [rereadCollection]

/-! ## Values -/

section

open Direct

/-- A byte that a value or a member may begin with. -/
def startsItem (b : UInt8) : Bool :=
  Byte.isIdentifierStart b || startsNumber b || b == 0x22 || b == 0x28 || b == 0x5B || b == 0x7B

/-- Bytes that begin like a value or a member. -/
def BeginsItem (bytes : List UInt8) : Prop := ∃ b rest, bytes = b :: rest ∧ startsItem b = true

theorem startsItem_solid {b : UInt8} (h : startsItem b = true) :
    Fluff.isSeparator b = false ∧ b ≠ 0x2F ∧ b ≠ 0x5D ∧ b ≠ 0x7D :=
  Byte.forall_of_lt
    (P := fun b ↦ startsItem b = true →
      Fluff.isSeparator b = false ∧ b ≠ 0x2F ∧ b ≠ 0x5D ∧ b ≠ 0x7D) (by decide +kernel) b h

theorem startsItem_number {b : UInt8} (h : startsNumber b = true) : startsItem b = true := by
  rw [startsItem, h, Bool.or_true]
  rfl

namespace BeginsItem

variable {bytes : List UInt8}

theorem append (h : BeginsItem bytes) (more : List UInt8) : BeginsItem (bytes ++ more) := by
  obtain ⟨b, rest, rfl, hb⟩ := h
  exact ⟨b, rest ++ more, rfl, hb⟩

theorem isSolid (h : BeginsItem bytes) : IsSolid bytes := by
  obtain ⟨b, rest, rfl, hb⟩ := h
  obtain ⟨hseparator, hslash, -⟩ := startsItem_solid hb
  rintro c ⟨⟩
  exact ⟨hseparator, hslash⟩

theorem head_ne_closer (h : BeginsItem bytes) (form : Form) :
    bytes.head? ≠ some (TextGrammar.closer form) := by
  obtain ⟨b, rest, rfl, hb⟩ := h
  obtain ⟨-, -, harray, hnode⟩ := startsItem_solid hb
  intro heq
  cases form with
  | array => exact harray (Option.some.inj heq)
  | node => exact hnode (Option.some.inj heq)

theorem head_ne_none (h : BeginsItem bytes) : bytes.head? ≠ none := by
  obtain ⟨b, rest, rfl, -⟩ := h
  exact Option.some_ne_none b

theorem length_pos (h : BeginsItem bytes) : 0 < bytes.length := by
  obtain ⟨b, rest, rfl, -⟩ := h
  exact Nat.succ_pos _

end BeginsItem

theorem nameText_begins (name : String) : BeginsItem (Utf8.encode (nameText name)) := by
  rw [nameText]
  split
  · next hname =>
    rw [isBare] at hname
    cases hencode : Utf8.encode name with
    | nil => simp [hencode] at hname
    | cons b rest =>
      rw [hencode] at hname
      refine ⟨b, rest, rfl, ?_⟩
      rw [startsItem, (Bool.and_eq_true_iff.1 hname).1]
      rfl
  · exact ⟨0x22, _, encode_quoted name, rfl⟩

theorem int_begins (i : Int) :
    ∃ b rest, Utf8.encode (Dump.int i) = b :: rest ∧ startsNumber b = true := by
  obtain ⟨digits, hdigits, ⟨-, hint⟩ | ⟨-, hint⟩⟩ := encode_int i
  · obtain ⟨b, rest, rfl⟩ := List.exists_cons_of_ne_nil hdigits.ne_nil
    refine ⟨b, rest, hint, ?_⟩
    rw [startsNumber, hdigits.isDigit b List.mem_cons_self]
    rfl
  · exact ⟨0x2D, digits, hint, rfl⟩

theorem valueText_begins (depth : Nat) {content : Content Doc} (h : isFinite content = true) :
    BeginsItem (Utf8.encode (valueText depth content)) := by
  cases content with
  | null => exact ⟨0x6E, _, by rw [valueText]; rfl, rfl⟩
  | integer x =>
    obtain ⟨b, rest, hint, hb⟩ := int_begins x.toInt
    exact ⟨b, rest, by rw [valueText, hint], startsItem_number hb⟩
  | decimal x =>
    rw [isFinite] at h
    obtain ⟨letters, hletters, hlayout⟩ := toPlaces_layout h
    obtain ⟨b, rest, hbytes, hb⟩ := layout_begins hlayout
    rw [valueText, hletters]
    exact ⟨b, rest, hbytes, startsItem_number hb⟩
  | boolean x =>
    rw [valueText]
    cases x with
    | false => exact ⟨0x66, _, rfl, rfl⟩
    | true => exact ⟨0x74, _, rfl, rfl⟩
  | string x =>
    rw [valueText]
    exact ⟨0x22, _, encode_quoted x, rfl⟩
  | vector x =>
    rw [valueText, vectorText, Utf8.encode_append, Utf8.encode_append, List.append_assoc]
    exact ⟨0x28, _, rfl, rfl⟩
  | collection form c =>
    rw [valueText, Utf8.encode_append, Utf8.encode_append, List.append_assoc]
    cases form with
    | array => exact ⟨0x5B, _, rfl, rfl⟩
    | node => exact ⟨0x7B, _, rfl, rfl⟩

/-- What is put in quotes is a string. -/
theorem value_quoted (text : String) (n : Nat) (rest : List UInt8) :
    value (n + 1) (Utf8.encode (Quoted.encode text) ++ rest) = some (.string text, rest) := by
  have hstring := string_quoted text rest
  rw [encode_quoted, List.cons_append] at hstring ⊢
  rw [value, if_neg (by decide), if_neg (by decide), if_neg (by decide), if_neg (by decide),
    if_pos (.inl rfl), hstring]
  rfl

theorem childHead_begins (form : Form) (name : Name) {bytes : List UInt8}
    (h : BeginsItem bytes) : BeginsItem (Utf8.encode (childHead form name) ++ bytes) := by
  cases form with
  | array => exact h
  | node =>
    rw [childHead, Utf8.encode_append]
    exact ((nameText_begins name.text).append _).append _

/-- An item of a collection is read if its value is. -/
theorem itemOf_read (form : Form) (name : Name) {content : Content Doc}
    {read : List UInt8 → Option (Content Doc × List UInt8)} {bytes rest : List UInt8}
    (hsolid : IsSolid bytes) (hread : read bytes = some (content, rest)) :
    itemOf form read (Utf8.encode (childHead form name) ++ bytes) =
      some (⟨rereadName form name, content⟩, rest) := by
  cases form with
  | array =>
    show (read bytes).map _ = _
    rw [hread]
    rfl
  | node =>
    show (heading (Utf8.encode (nameText name.text ++ " = ") ++ bytes)).bind _ = _
    rw [heading_nameText, Option.bind_some]
    dsimp only
    rw [fluff_cons rfl, hsolid.fluff_eq, Option.bind_some, hread, Option.map_some]
    rw [show Name.ofString name.text = name from Name.ext_text rfl]
    rfl

/-! ## Lines -/

theorem indent_separators (depth : Nat) :
    ∀ b ∈ Utf8.encode (indent depth), Fluff.isSeparator b = true := by
  intro b hb
  rw [indent, Utf8.encode_ofList, List.mem_flatMap] at hb
  obtain ⟨c, hc, hb⟩ := hb
  rw [List.eq_of_mem_replicate hc, Utf8.encodeChar_ascii (by decide), List.mem_singleton] at hb
  rw [hb]
  rfl

theorem newline_separator : ∀ b ∈ ([0x0A] : List UInt8), Fluff.isSeparator b = true :=
  List.forall_mem_singleton.2 rfl

theorem encode_opener (form : Form) : Utf8.encode (opener form) = [TextGrammar.opener form] := by
  cases form with
  | array => rfl
  | node => rfl

theorem encode_closer (form : Form) : Utf8.encode (closer form) = [TextGrammar.closer form] := by
  cases form with
  | array => rfl
  | node => rfl

/-- Nothing is read up to a closing bracket. -/
theorem enclosed_closer (form : Form) (read : List UInt8 → Option (Doc × List UInt8))
    (rest : List UInt8) :
    enclosed read (some (TextGrammar.closer form)) (TextGrammar.closer form :: rest) =
      some ([], rest) := by
  refine enclosed_nil ?_
  rintro b ⟨⟩
  cases form with
  | array => exact ⟨rfl, by decide⟩
  | node => exact ⟨rfl, by decide⟩

/-! ## The induction -/

/-- A collection between its brackets, as bytes. -/
theorem encode_collection (depth : Nat) (form : Form) (c : Collection Doc) (more : List UInt8) :
    Utf8.encode (valueText depth (.collection form c)) ++ more =
      TextGrammar.opener form :: (Utf8.encode (blockText depth form c) ++
        TextGrammar.closer form :: more) := by
  rw [valueText, Utf8.encode_append, Utf8.encode_append, encode_opener, encode_closer,
    List.append_assoc, List.append_assoc, List.singleton_append, List.singleton_append]

/-- A line of a collection, as bytes. -/
theorem encode_linesText (depth : Nat) (form : Form) (name : Name) (content : Content Doc)
    (rest : List Doc) (more : List UInt8) :
    Utf8.encode (linesText depth form (⟨name, content⟩ :: rest)) ++ more =
      Utf8.encode (indent depth) ++ (Utf8.encode (childHead form name) ++
        (Utf8.encode (valueText depth content) ++ 0x0A ::
          (Utf8.encode (linesText depth form rest) ++ more))) := by
  rw [linesText]
  simp only [Utf8.encode_append, List.append_assoc]
  rfl

/-- A value with the end of a line behind it is read, however deep it stands. -/
def IsRead (content : Content Doc) : Prop :=
  ∀ (depth n : Nat) (rest : List UInt8), (Utf8.encode (valueText depth content)).length ≤ n →
    value n (Utf8.encode (valueText depth content) ++ 0x0A :: rest) =
      some (reread content, 0x0A :: rest)

theorem isRead_leaf {content : Content Doc} (hleaf : isLeaf content = true)
    (h : isFinite content = true) : IsRead content := by
  intro depth n rest hn
  have hpos := (valueText_begins depth h).length_pos
  obtain ⟨n, rfl⟩ := Nat.exists_eq_add_one_of_ne_zero (Nat.ne_of_gt (hpos.trans_le hn))
  cases content with
  | null =>
    rw [valueText, reread.eq_def]
    rfl
  | boolean x =>
    rw [valueText, reread.eq_def]
    cases x with
    | false => rfl
    | true => rfl
  | integer x =>
    obtain ⟨b, more, hint, hb⟩ := int_begins x.toInt
    have hnumber := number_int x rest
    rw [hint] at hnumber
    rw [valueText, reread.eq_def, hint, List.cons_append, value_number hb]
    exact hnumber
  | string x =>
    rw [valueText, reread.eq_def]
    exact value_quoted x n _
  | decimal x =>
    rw [isFinite] at h
    obtain ⟨letters, hletters, hlayout⟩ := toPlaces_layout h
    obtain ⟨b, more, hbytes, hb⟩ := layout_begins hlayout
    have hnumber := number_toPlaces h (0x0A :: rest) rfl
    rw [← hletters] at hbytes
    rw [hbytes] at hnumber
    rw [valueText, reread, hbytes, List.cons_append, value_number hb]
    exact hnumber
  | vector v =>
    rw [isFinite] at h
    rw [valueText, reread]
    exact value_vectorText h n _
  | collection form c => cases hleaf

/-- Lines of children are read, if their values are, whatever closes the collection. -/
theorem enclosed_linesText {form : Form} {closer : Option UInt8} {tail left : List UInt8} {n : Nat}
    (hcloser : ∀ bytes, BeginsItem bytes → bytes.head? ≠ closer)
    (htail : enclosed (itemOf form (value n)) closer tail = some ([], left)) (depth : Nat) :
    ∀ {docs : List Doc}, (∀ d ∈ docs, isFinite d.content = true) →
      (∀ d ∈ docs, IsRead d.content) → (Utf8.encode (linesText depth form docs)).length ≤ n →
        enclosed (itemOf form (value n)) closer
          (Utf8.encode (linesText depth form docs) ++ tail) =
            some (docs.map (rereadChild form), left) := by
  intro docs
  induction docs with
  | nil =>
    rw [linesText]
    exact fun _ _ _ ↦ htail
  | cons d docs ih =>
    intro hfinite hread hn
    obtain ⟨name, content⟩ := d
    rw [List.forall_mem_cons] at hfinite hread
    have hlength := congrArg List.length (encode_linesText depth form name content docs [])
    simp only [List.append_nil, List.length_append, List.length_cons] at hlength
    have hbegins := (valueText_begins depth hfinite.1).append
      (0x0A :: (Utf8.encode (linesText depth form docs) ++ tail))
    have hcontent : IsRead content := hread.1
    have hvalue := hcontent depth n (Utf8.encode (linesText depth form docs) ++ tail) (by omega)
    have hlines := ih hfinite.2 hread.2 (by omega)
    rw [← enclosed_append newline_separator] at hlines
    have hitem := itemOf_read form name hbegins.isSolid hvalue
    have hline := childHead_begins form name hbegins
    rw [encode_linesText, enclosed_append (indent_separators depth)]
    exact enclosed_cons (itemOf_shortens form (value_shortens n)) hline.isSolid
      (hcloser _ hline) hitem hlines

/-- A collection is read, if its children are. -/
theorem isRead_collection {form : Form} {c : Collection Doc}
    (hfinite : ∀ d ∈ c.items, isFinite d.content = true) (hread : ∀ d ∈ c.items, IsRead d.content) :
    IsRead (.collection form c) := by
  intro depth n rest hn
  have hlength := congrArg List.length (encode_collection depth form c [])
  rw [List.append_nil, List.length_cons] at hlength
  obtain ⟨n, rfl⟩ : ∃ k, n = k + 1 := Nat.exists_eq_add_one_of_ne_zero (by omega)
  obtain ⟨items, space⟩ := c
  rw [encode_collection, value_collection, reread_collection]
  cases items with
  | nil =>
    rw [blockText]
    show (enclosed _ _ (TextGrammar.closer form :: 0x0A :: rest)).map _ = _
    rw [enclosed_closer]
    rfl
  | cons d docs =>
    rw [blockText, Utf8.encode_append, Utf8.encode_append] at hlength
    simp only [List.length_append] at hlength
    have htail : enclosed (itemOf form (value n)) (some (TextGrammar.closer form))
        (Utf8.encode (indent depth) ++ TextGrammar.closer form :: 0x0A :: rest) =
          some ([], 0x0A :: rest) := by
      rw [enclosed_append (indent_separators depth), enclosed_closer]
    have hle : (Utf8.encode (linesText (depth + 1) form (d :: docs))).length ≤ n := by omega
    have hlines := enclosed_linesText (fun bytes hbytes ↦ hbytes.head_ne_closer form) htail
      (depth + 1) hfinite hread hle
    rw [blockText, Utf8.encode_append, Utf8.encode_append, List.append_assoc, List.append_assoc]
    show (enclosed _ _ ([0x0A] ++ _)).map _ = _
    rw [enclosed_append newline_separator, hlines]
    rfl

/-- **Values.**  A value whose numbers are finite is read. -/
theorem isRead_of_isFinite (content : Content Doc) : isFinite content = true → IsRead content := by
  induction content using content_induction with
  | leaf content hleaf => exact isRead_leaf hleaf
  | collection form c ih =>
    intro hfinite
    rw [isFinite_collection] at hfinite
    exact isRead_collection hfinite fun d hd ↦ ih d hd (hfinite d hd)

/-- What is printed of a node is a document. -/
theorem document_print {t : Doc} {c : Collection Doc} (ht : t.content = .collection .node c)
    (hfinite : isFinite t.content = true) :
    document (Utf8.encode t.print) = some (c.items.map (rereadChild .node)) := by
  rw [ht, isFinite_collection] at hfinite
  have hprint : t.print = linesText 0 .node c.items := by
    rw [print, ht]
  have hlines : enclosed (itemOf .node (value ((Utf8.encode t.print).length + 1))) none
      (Utf8.encode (linesText 0 .node c.items) ++ []) =
        some (c.items.map (rereadChild .node), []) :=
    enclosed_linesText (fun bytes hbytes ↦ hbytes.head_ne_none) rfl 0 hfinite
      (fun d hd ↦ isRead_of_isFinite _ (hfinite d hd)) (by rw [hprint]; exact Nat.le_succ _)
  rw [List.append_nil, ← hprint] at hlines
  rw [document]
  show (enclosed (itemOf .node _) none _).map _ = _
  rw [hlines]
  rfl

end

/-! ## Documents -/

theorem content_of_tag {content : Content Doc} (h : content.tag = .node) :
    ∃ c, content = .collection .node c := by
  cases content with
  | collection form c =>
    cases form with
    | array => cases h
    | node => exact ⟨c, rfl⟩
  | vector v =>
    rw [Content.tag, Vec.tag] at h
    split at h <;> cases h
  | _ => cases h

/-- **Reading what was printed.**  What is printed of a node is read into any root, to its end. -/
theorem read_print_of_isFinite {t : Doc} (htag : t.tag = .node)
    (hfinite : isFinite t.content = true) (root : Doc) :
    root.read (Utf8.encode t.print).toArray =
      (.ok (Utf8.encode t.print).length, ⟨root.name, reread t.content⟩) := by
  obtain ⟨c, hc⟩ := content_of_tag htag
  have hdocument : Direct.document (Utf8.encode t.print).toArray.toList =
      some (c.items.map (rereadChild .node)) :=
    document_print hc hfinite
  rw [read_of_some hdocument root, hc, reread_collection, List.size_toArray]

end Doc
end DocGrammar
