import DocGrammar.Proofs.Printing.Documents

/-!
# Printed documents are read back

A document is *plain* if its leaves are null, integers, truth values and strings, and the elements
of its arrays have no names.  What is printed of a plain node is read back as the same document: the
same names, types, values and children in the same order.  Only the room in its collections may
differ, because reading lets them grow child by child; `regrown` is the document with the room that
reading leaves, and for a plain document that is all there is to what is read
(`reread_of_isPlain`).
-/

set_option autoImplicit false

namespace DocGrammar
namespace Doc

/-! ## Plain documents -/

mutual

/-- Whether a content can be read back exactly: there are no decimals and no vectors in it, and only
the children of nodes have names. -/
def isPlain : Content Doc → Bool
  | .decimal _ => false
  | .vector _ => false
  | .collection form c => isPlainCollection form c
  | _ => true

/-- The same for the children of a collection. -/
def isPlainCollection (form : Form) : Collection Doc → Bool
  | ⟨items, _⟩ => isPlainAll form items

/-- The same for children one by one. -/
def isPlainAll (form : Form) : List Doc → Bool
  | [] => true
  | ⟨name, content⟩ :: rest =>
    (decide (form = .node) || decide (name = .empty)) && isPlain content && isPlainAll form rest

end

mutual

/-- A content with the room that its collections have after growing child by child. -/
def regrown : Content Doc → Content Doc
  | .collection form c => .collection form (regrownCollection c)
  | content => content

/-- A collection that has grown child by child. -/
def regrownCollection : Collection Doc → Collection Doc
  | ⟨items, _⟩ => Direct.gather (regrownAll items)

/-- Children whose collections have grown child by child. -/
def regrownAll : List Doc → List Doc
  | [] => []
  | ⟨name, content⟩ :: rest => ⟨name, regrown content⟩ :: regrownAll rest

end

/-! ### What is read of a plain document -/

theorem isPlainAll_iff {form : Form} {docs : List Doc} : isPlainAll form docs = true ↔
    ∀ d ∈ docs, (form = .node ∨ d.name = .empty) ∧ isPlain d.content = true := by
  induction docs with
  | nil =>
    rw [isPlainAll]
    exact ⟨fun _ _ hd ↦ absurd hd List.not_mem_nil, fun _ ↦ rfl⟩
  | cons d docs ih =>
    obtain ⟨name, content⟩ := d
    rw [isPlainAll, Bool.and_eq_true, Bool.and_eq_true, Bool.or_eq_true, decide_eq_true_iff,
      decide_eq_true_iff, ih, List.forall_mem_cons]

theorem isPlain_collection {form : Form} {c : Collection Doc} :
    isPlain (.collection form c) = true ↔
      ∀ d ∈ c.items, (form = .node ∨ d.name = .empty) ∧ isPlain d.content = true := by
  rw [isPlain, ← isPlainAll_iff]
  obtain ⟨items, space⟩ := c
  rw [isPlainCollection]

theorem regrownAll_eq (docs : List Doc) :
    regrownAll docs = docs.map fun d ↦ ⟨d.name, regrown d.content⟩ := by
  induction docs with
  | nil => rw [regrownAll, List.map_nil]
  | cons d docs ih =>
    obtain ⟨name, content⟩ := d
    rw [regrownAll, ih, List.map_cons]

theorem regrown_collection (form : Form) (c : Collection Doc) :
    regrown (.collection form c) =
      .collection form (Direct.gather (c.items.map fun d ↦ ⟨d.name, regrown d.content⟩)) := by
  rw [regrown, ← regrownAll_eq]
  obtain ⟨items, space⟩ := c
  rw [regrownCollection]

/-- The numbers of a plain content are finite, for there are only integers, -/
theorem isFinite_of_isPlain (content : Content Doc) (h : isPlain content = true) :
    isFinite content = true := by
  induction content using content_induction with
  | leaf content hleaf =>
    cases content with
    | decimal x =>
      rw [isPlain] at h
      cases h
    | vector v =>
      rw [isPlain] at h
      cases h
    | collection form c => cases hleaf
    | _ => rw [isFinite.eq_def]
  | collection form c ih =>
    rw [isPlain_collection] at h
    exact isFinite_collection.2 fun d hd ↦ ih d hd (h d hd).2

/-- and reading changes nothing but the room. -/
theorem reread_of_isPlain (content : Content Doc) (h : isPlain content = true) :
    reread content = regrown content := by
  induction content using content_induction with
  | leaf content hleaf =>
    cases content with
    | decimal x =>
      rw [isPlain] at h
      cases h
    | vector v =>
      rw [isPlain] at h
      cases h
    | collection form c => cases hleaf
    | _ => rw [reread.eq_def, regrown.eq_def]
  | collection form c ih =>
    rw [isPlain_collection] at h
    have hchildren : c.items.map (rereadChild form) =
        c.items.map fun d ↦ ⟨d.name, regrown d.content⟩ := by
      refine List.map_congr_left fun d hd ↦ ?_
      obtain ⟨hname, hcontent⟩ := h d hd
      have hname : rereadName form d.name = d.name := by
        cases form with
        | array => exact (hname.resolve_left (by decide)).symm
        | node => rfl
      rw [rereadChild, hname, ih d hd hcontent]
    rw [reread_collection, regrown_collection, hchildren]

/-! ### Room does not matter -/

theorem sameCollection_eq (c c' : Collection Doc) :
    sameCollection c c' = sameAll c.items c'.items := by
  obtain ⟨items, space⟩ := c
  obtain ⟨items', space'⟩ := c'
  rw [sameCollection]

theorem copyCollection_eq (c : Collection Doc) : copyCollection c = ⟨copyAll c.items, 0⟩ := by
  obtain ⟨items, space⟩ := c
  rw [copyCollection]

mutual

/-- A plain content is the same with other room, -/
theorem same_regrown : ∀ content : Content Doc, isPlain content = true →
    sameContent (regrown content) content = true
  | .null, _ => by rw [regrown.eq_def, sameContent.eq_def]
  | .integer x, _ => by
    rw [regrown.eq_def, sameContent.eq_def]
    exact beq_self_eq_true x
  | .boolean x, _ => by
    rw [regrown.eq_def, sameContent.eq_def]
    exact beq_self_eq_true x
  | .string x, _ => by
    rw [regrown.eq_def, sameContent.eq_def]
    exact beq_self_eq_true x
  | .decimal _, h => by
    rw [isPlain] at h
    cases h
  | .vector _, h => by
    rw [isPlain] at h
    cases h
  | .collection form c, h => by
    rw [isPlain] at h
    rw [regrown, sameContent, decide_eq_true rfl, Bool.true_and]
    exact sameCollection_regrown form c h

theorem sameCollection_regrown (form : Form) : ∀ c : Collection Doc,
    isPlainCollection form c = true → sameCollection (regrownCollection c) c = true
  | ⟨items, space⟩, h => by
    rw [isPlainCollection] at h
    rw [regrownCollection, sameCollection_eq, gather_items]
    exact sameAll_regrown form items h

theorem sameAll_regrown (form : Form) : ∀ docs : List Doc, isPlainAll form docs = true →
    sameAll (regrownAll docs) docs = true
  | [], _ => by rw [regrownAll, sameAll]
  | ⟨name, content⟩ :: rest, h => by
    rw [isPlainAll, Bool.and_eq_true, Bool.and_eq_true] at h
    obtain ⟨⟨-, hcontent⟩, hrest⟩ := h
    rw [regrownAll, sameAll, same, decide_eq_true rfl, same_regrown content hcontent,
      sameAll_regrown form rest hrest]
    rfl

end

mutual

/-- and any content has the same copies. -/
theorem copy_regrown : ∀ content : Content Doc, copyContent (regrown content) = copyContent content
  | .null => by rw [regrown.eq_def]
  | .integer _ => by rw [regrown.eq_def]
  | .decimal _ => by rw [regrown.eq_def]
  | .boolean _ => by rw [regrown.eq_def]
  | .string _ => by rw [regrown.eq_def]
  | .vector _ => by rw [regrown.eq_def]
  | .collection form c => by
    rw [regrown, copyContent, copyContent, copyCollection_regrown c]

theorem copyCollection_regrown : ∀ c : Collection Doc,
    copyCollection (regrownCollection c) = copyCollection c
  | ⟨items, space⟩ => by
    rw [regrownCollection, copyCollection_eq, gather_items, copyAll_regrown items, copyCollection]

theorem copyAll_regrown : ∀ docs : List Doc, copyAll (regrownAll docs) = copyAll docs
  | [] => by rw [regrownAll]
  | ⟨name, content⟩ :: rest => by
    rw [regrownAll, copyAll, copyAll, copy, copy, copy_regrown content, copyAll_regrown rest]

end

/-! ## Documents -/

/-- What is printed of a plain node is read into any root, to its end. -/
theorem read_print {t : Doc} (htag : t.tag = .node) (hplain : isPlain t.content = true)
    (root : Doc) :
    root.read (Utf8.encode t.print).toArray =
      (.ok (Utf8.encode t.print).length, ⟨root.name, regrown t.content⟩) := by
  rw [read_print_of_isFinite htag (isFinite_of_isPlain _ hplain), reread_of_isPlain _ hplain]

/-- **The round trip.**  A plain node without a name is printed as a document.  Reading that
document takes all of it, into whatever root, and reading it into a new one gives the same node:
what is read equals what was printed, and copies of the two, in which there is no room to differ,
are one. -/
theorem parse_print (t : Doc) (hname : t.name = .empty) (htag : t.tag = .node)
    (hplain : isPlain t.content = true) :
    (∃ d, parse t.print = .ok d ∧ d.same t = true ∧ d.copy = t.copy) ∧
      ∀ root : Doc,
        (root.read (Utf8.encode t.print).toArray).1 = .ok (Utf8.encode t.print).length := by
  refine ⟨⟨⟨.empty, regrown t.content⟩, ?_, ?_, ?_⟩, fun root ↦ ?_⟩
  · rw [parse, read_print htag hplain]
    rfl
  · obtain ⟨name, content⟩ := t
    obtain rfl : name = .empty := hname
    rw [same, same_regrown _ hplain, decide_eq_true rfl]
    rfl
  · obtain ⟨name, content⟩ := t
    obtain rfl : name = .empty := hname
    rw [copy, copy, copy_regrown]
  · rw [read_print htag hplain]

/-- A document with everything in it that could go wrong. -/
def awkward : Doc where
  content := .collection .node
    ⟨[⟨.ofString "", .integer Int64.minValue⟩, ⟨.ofString "null", .string "a\"b\\c\nd"⟩,
      ⟨.ofString "null", .collection .array ⟨[⟨.empty, .integer 0⟩, ⟨.empty, .null⟩,
        ⟨.empty, .collection .node .empty⟩], 1⟩⟩, ⟨.ofString "é", .boolean true⟩], 0⟩

theorem parse_print_awkward :
    awkward.name = .empty ∧ awkward.tag = .node ∧ isPlain awkward.content = true ∧
      (∃ d, parse awkward.print = .ok d ∧ d.same awkward = true ∧ d.copy = awkward.copy) ∧
      ∀ root : Doc, (root.read (Utf8.encode awkward.print).toArray).1 =
        .ok (Utf8.encode awkward.print).length := by
  have hplain : isPlain awkward.content = true := by
    simp [awkward, isPlain, isPlainCollection, isPlainAll, Collection.empty]
  exact ⟨rfl, rfl, hplain, parse_print awkward rfl rfl hplain⟩

end Doc
end DocGrammar
