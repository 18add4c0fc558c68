import DocGrammar.Proofs.Printing.Documents

/-!
# Numbers survive as text

What becomes of the numbers in a document that is printed and read?

Decimals change, because only seven places of them are printed, but they change only once: what is
read is finite and is printed in the same way (`Doc.parse_print_decimals`).  Components of vectors
are printed with as many digits as it takes to tell them apart, and yet there is one that does not
survive, because the digits are rounded to double precision first; all others do, and so does the
text of the document (`Doc.parse_print_vectors`).

Both are said of the `leaves` of a document, its scalars, strings and vectors in order.
-/

set_option autoImplicit false

namespace DocGrammar
namespace Doc

/-! ## Leaves -/

mutual

/-- Whatever is in a content and is no collection, in order. -/
def leaves : Content Doc → List (Content Doc)
  | .collection _ c => leavesCollection c
  | content => [content]

/-- The same for a collection. -/
def leavesCollection : Collection Doc → List (Content Doc)
  | ⟨items, _⟩ => leavesAll items

/-- The same for children one after the other. -/
def leavesAll : List Doc → List (Content Doc)
  | [] => []
  | ⟨_, content⟩ :: rest => leaves content ++ leavesAll rest

end

theorem leaves_of_isLeaf {content : Content Doc} (h : isLeaf content = true) :
    leaves content = [content] := by
  cases content with
  | collection form c => cases h
  | _ => rw [leaves.eq_def]

theorem leavesAll_eq (docs : List Doc) :
    leavesAll docs = docs.flatMap fun d ↦ leaves d.content := by
  induction docs with
  | nil => rw [leavesAll, List.flatMap_nil]
  | cons d docs ih =>
    obtain ⟨name, content⟩ := d
    rw [leavesAll, ih, List.flatMap_cons]

theorem leaves_collection (form : Form) (c : Collection Doc) :
    leaves (.collection form c) = c.items.flatMap fun d ↦ leaves d.content := by
  rw [leaves, ← leavesAll_eq]
  obtain ⟨items, space⟩ := c
  rw [leavesCollection]

theorem isLeaf_reread {content : Content Doc} (h : isLeaf content = true) :
    isLeaf (reread content) = true := by
  cases content with
  | collection form c => cases h
  | _ =>
    rw [reread.eq_def]
    rfl

/-- What is read of a document has the leaves that are read of its leaves. -/
theorem leaves_reread (content : Content Doc) :
    leaves (reread content) = (leaves content).map reread := by
  induction content using content_induction with
  | leaf content h =>
    rw [leaves_of_isLeaf h, leaves_of_isLeaf (isLeaf_reread h), List.map_singleton]
  | collection form c ih =>
    rw [reread_collection, leaves_collection, leaves_collection, gather_items, List.flatMap_map,
      List.map_flatMap]
    exact List.flatMap_congr ih

/-- The numbers of a document are those of its leaves. -/
theorem isFinite_leaves (content : Content Doc) (h : isFinite content = true) :
    ∀ leaf ∈ leaves content, isFinite leaf = true := by
  induction content using content_induction with
  | leaf content hleaf =>
    rw [leaves_of_isLeaf hleaf]
    exact List.forall_mem_singleton.2 h
  | collection form c ih =>
    rw [isFinite_collection] at h
    rw [leaves_collection]
    intro leaf hmem
    obtain ⟨d, hd, hmem⟩ := List.mem_flatMap.1 hmem
    exact ih d hd (h d hd) leaf hmem

/-! ## Reading -/

theorem parse_print_of_isFinite {t : Doc} (htag : t.tag = .node)
    (hfinite : isFinite t.content = true) : parse t.print = .ok ⟨.empty, reread t.content⟩ := by
  rw [parse, read_print_of_isFinite htag hfinite]
  rfl

/-! ## Decimals -/

/-- A text with a sign or none and exactly so many digits behind a point. -/
def HasPlaces (places : Nat) (text : List Char) : Prop :=
  ∃ (negative : Bool) (whole fraction : List Char),
    text = minus negative ++ (whole ++ '.' :: fraction) ∧ whole ≠ [] ∧
      (∀ c ∈ whole, c.isDigit = true) ∧ (∀ c ∈ fraction, c.isDigit = true) ∧
        fraction.length = places

theorem toPlaces_hasPlaces {places : Nat} (hplaces : 0 < places) {x : Binary64}
    (hfinite : x.isFinite = true) : HasPlaces places (x.toPlaces places) := by
  have hunit : 0 < 10 ^ places := Nat.pow_pos (by decide)
  have hfraction : IsRun _ (Digits.padded places (x.inPlaces places % 10 ^ places)) := .padded
  exact ⟨x.negative, _, _, x.toPlaces_of_isFinite places hfinite, text_ne_nil _,
    (IsRun.text _).isDigit, hfraction.isDigit, padded_length hplaces (Nat.mod_lt _ hunit)⟩

/-- A decimal becomes a finite one that is printed in the same way, with exactly seven places. -/
def Settles (before after : Content Doc) : Prop :=
  ∀ x, before = .decimal x → ∃ y : Binary64, after = .decimal y ∧ y.isFinite = true ∧
    y.toPlaces decimalPlaces = x.toPlaces decimalPlaces ∧ HasPlaces 7 (x.toPlaces decimalPlaces)

theorem settles_reread {leaf : Content Doc} (hfinite : isFinite leaf = true) :
    Settles leaf (reread leaf) := by
  rintro x rfl
  rw [isFinite] at hfinite
  refine ⟨x.settled decimalPlaces, by rw [reread], (Binary.settled_seven x hfinite).1,
    Binary.toPlaces_settled_seven x hfinite, toPlaces_hasPlaces (by decide) hfinite⟩

theorem forall₂_leaves {R : Content Doc → Content Doc → Prop} {content : Content Doc}
    (h : ∀ leaf ∈ leaves content, R leaf (reread leaf)) :
    List.Forall₂ R (leaves content) (leaves (reread content)) := by
  rw [leaves_reread, List.forall₂_map_right_iff, List.forall₂_same]
  exact h

/-- **Decimals.**  A node whose numbers are finite is printed as a document in which each decimal is
read as one decimal again, finite and with the same text. -/
theorem parse_print_decimals (t : Doc) (htag : t.tag = .node)
    (hfinite : isFinite t.content = true) :
    ∃ d, parse t.print = .ok d ∧
      List.Forall₂ Settles (leaves t.content) (leaves d.content) :=
  ⟨_, parse_print_of_isFinite htag hfinite,
    forall₂_leaves fun leaf hleaf ↦ settles_reread (isFinite_leaves _ hfinite leaf hleaf)⟩

/-- Numbers that printing may change: the least one, which becomes zero and keeps its sign, a half
of the seventh place, and the largest number. -/
def unsettled : Doc where
  content := .collection .node
    ⟨[⟨.ofString "least", .decimal (.ofBits _ 0x8000000000000001)⟩,
      ⟨.ofString "list", .collection .array
        ⟨[⟨.empty, .decimal (.ofBits _ 0x3E6AD7F29ABCAF48)⟩,
          ⟨.empty, .decimal (.ofBits _ 0x7FEFFFFFFFFFFFFF)⟩], 0⟩⟩], 0⟩

theorem parse_print_unsettled :
    unsettled.tag = .node ∧ isFinite unsettled.content = true ∧
      ∃ d, parse unsettled.print = .ok d ∧
        List.Forall₂ Settles (leaves unsettled.content) (leaves d.content) := by
  have hfinite : isFinite unsettled.content = true := by decide +kernel
  exact ⟨rfl, hfinite, parse_print_decimals unsettled rfl hfinite⟩

/-! ## Vectors -/

/-- A vector is read back as it was, every bit of it. -/
def KeepsVector (before after : Content Doc) : Prop :=
  ∀ v, before = .vector v → after = .vector v

theorem roundedTwice_eq_iff {v : Vec} (hfinite : v.components.all Binary.isFinite = true) :
    v.roundedTwice = v ↔ ∀ x ∈ v.components, x.magnitude ≠ Binary.exceptional := by
  obtain ⟨components, hone, hfour⟩ := v
  rw [List.all_eq_true] at hfinite
  rw [Vec.roundedTwice, Vec.mk.injEq]
  conv_lhs => rhs; rw [← List.map_id components]
  rw [List.map_inj_left]
  exact forall₂_congr fun x hx ↦ Binary.roundedTwice_eq_iff (hfinite x hx)

theorem keepsVector_iff {leaf : Content Doc} (hfinite : isFinite leaf = true) :
    KeepsVector leaf (reread leaf) ↔
      ∀ v, leaf = .vector v → ∀ x ∈ v.components, x.magnitude ≠ Binary.exceptional := by
  refine forall₂_congr fun v hv ↦ ?_
  subst hv
  rw [isFinite] at hfinite
  rw [reread, Content.vector.injEq]
  exact roundedTwice_eq_iff hfinite

/-! ### The text -/

theorem rereadName_childHead (form : Form) (name : Name) :
    childHead form (rereadName form name) = childHead form name := by
  cases form with
  | array => rfl
  | node => rfl

theorem blockText_eq (depth : Nat) (form : Form) (c : Collection Doc) :
    blockText depth form c =
      if c.items = [] then "" else "\n" ++ linesText (depth + 1) form c.items ++ indent depth := by
  obtain ⟨items, space⟩ := c
  cases items with
  | nil => rw [blockText, if_pos rfl]
  | cons d rest => rw [blockText, if_neg (List.cons_ne_nil _ _)]

/-- Lines are the same again if the values on them are. -/
theorem linesText_reread (depth : Nat) (form : Form) {docs : List Doc}
    (h : ∀ d ∈ docs, valueText depth (reread d.content) = valueText depth d.content) :
    linesText depth form (docs.map (rereadChild form)) = linesText depth form docs := by
  induction docs with
  | nil => rw [List.map_nil]
  | cons d docs ih =>
    obtain ⟨name, content⟩ := d
    obtain ⟨hcontent, hdocs⟩ := List.forall_mem_cons.1 h
    dsimp only at hcontent
    rw [List.map_cons, rereadChild, linesText, linesText, ih hdocs, hcontent, rereadName_childHead]

/-- If its vectors are read back, a value is printed in the same way again. -/
theorem valueText_reread (content : Content Doc) (hfinite : isFinite content = true)
    (hkeeps : ∀ leaf ∈ leaves content, KeepsVector leaf (reread leaf)) (depth : Nat) :
    valueText depth (reread content) = valueText depth content := by
  induction content using content_induction generalizing depth with
  | leaf content hleaf =>
    cases content with
    | decimal x =>
      rw [isFinite] at hfinite
      rw [reread, valueText, valueText]
      exact congrArg String.ofList (Binary.toPlaces_settled_seven x hfinite)
    | vector v =>
      rw [leaves_of_isLeaf hleaf] at hkeeps
      rw [hkeeps _ (List.mem_singleton_self _) v rfl]
    | collection form c => cases hleaf
    | _ => rw [reread.eq_def]
  | collection form c ih =>
    rw [isFinite_collection] at hfinite
    rw [leaves_collection] at hkeeps
    have hvalues (depth : Nat) (d : Doc) (hd : d ∈ c.items) :
        valueText depth (reread d.content) = valueText depth d.content :=
      ih d hd (hfinite d hd)
        (fun leaf hleaf ↦ hkeeps leaf (List.mem_flatMap.2 ⟨d, hd, hleaf⟩)) depth
    rw [reread_collection, valueText, valueText, blockText_eq, blockText_eq, gather_items,
      linesText_reread _ form (hvalues _)]
    simp only [List.map_eq_nil_iff]

/-- If the vectors of a node are read back, it is printed in the same way again. -/
theorem print_reread {t : Doc} (htag : t.tag = .node) (hfinite : isFinite t.content = true)
    (hkeeps : ∀ leaf ∈ leaves t.content, KeepsVector leaf (reread leaf)) :
    print ⟨.empty, reread t.content⟩ = t.print := by
  obtain ⟨c, hc⟩ := content_of_tag htag
  rw [hc, isFinite_collection] at hfinite
  rw [hc, leaves_collection] at hkeeps
  rw [print, print, hc, reread_collection]
  dsimp only
  rw [gather_items, linesText_reread 0 .node fun d hd ↦ valueText_reread _ (hfinite d hd)
    (fun leaf hleaf ↦ hkeeps leaf (List.mem_flatMap.2 ⟨d, hd, hleaf⟩)) 0]

/-- **Vectors.**  A node whose numbers are finite is printed as a document that can be read.  All
its vectors are read back, and the document is printed in the same way again, exactly if no
component is of the one magnitude at which rounding twice goes wrong. -/
theorem parse_print_vectors (t : Doc) (htag : t.tag = .node)
    (hfinite : isFinite t.content = true) :
    ∃ d, parse t.print = .ok d ∧
      ((List.Forall₂ KeepsVector (leaves t.content) (leaves d.content) ∧ d.print = t.print) ↔
        ∀ v, .vector v ∈ leaves t.content →
          ∀ x ∈ v.components, x.magnitude ≠ Binary.exceptional) := by
  have hleaves := isFinite_leaves _ hfinite
  refine ⟨_, parse_print_of_isFinite htag hfinite, ?_, ?_⟩
  · rintro ⟨hkeeps, -⟩ v hv
    rw [leaves_reread, List.forall₂_map_right_iff, List.forall₂_same] at hkeeps
    exact (keepsVector_iff (hleaves _ hv)).1 (hkeeps _ hv) v rfl
  · intro hregular
    have hkeeps : ∀ leaf ∈ leaves t.content, KeepsVector leaf (reread leaf) :=
      fun leaf hleaf ↦ (keepsVector_iff (hleaves leaf hleaf)).2 fun v hv ↦
        hregular v (hv ▸ hleaf)
    exact ⟨forall₂_leaves hkeeps, print_reread htag hfinite hkeeps⟩

/-- Components that are awkward to print: a tenth, a negative zero, the least positive number and
the largest one. -/
def awkwardVector : Vec where
  components := [.ofBits _ 0x3DCCCCCD, .ofBits _ 0x80000000, .ofBits _ 1, .ofBits _ 0x7F7FFFFF]
  one_le_length := by decide
  length_le_four := by decide

/-- A document with one vector. -/
def holding (v : Vec) : Doc where
  content := .collection .node ⟨[⟨.ofString "v", .vector v⟩], 0⟩

theorem leaves_holding (v : Vec) : leaves (holding v).content = [.vector v] := by
  rw [holding, leaves_collection, List.flatMap_singleton, leaves_of_isLeaf rfl]

theorem parse_print_awkwardVector :
    (holding awkwardVector).tag = .node ∧ isFinite (holding awkwardVector).content = true ∧
      ∃ d, parse (holding awkwardVector).print = .ok d ∧
        List.Forall₂ KeepsVector (leaves (holding awkwardVector).content) (leaves d.content) ∧
          d.print = (holding awkwardVector).print := by
  have hfinite : isFinite (holding awkwardVector).content = true := by decide +kernel
  obtain ⟨d, hparse, hkeeps⟩ := parse_print_vectors (holding awkwardVector) rfl hfinite
  refine ⟨rfl, hfinite, d, hparse, hkeeps.2 ?_⟩
  rw [leaves_holding]
  rintro v hv
  obtain rfl : v = awkwardVector := Content.vector.inj (List.mem_singleton.1 hv)
  decide

/-- The component that does not survive. -/
def strayVector : Vec where
  components := [.ofBits _ 0x15AE43FD]
  one_le_length := by decide
  length_le_four := by decide

/-- It is finite and printed with as many digits as it takes, but what is read is the next number,
and that is printed with one more digit. -/
theorem parse_print_strayVector :
    (holding strayVector).tag = .node ∧ isFinite (holding strayVector).content = true ∧
      (holding strayVector).print = "v = (7.038531e-26)\n" ∧
        ∃ d, parse (holding strayVector).print = .ok d ∧
          ¬ List.Forall₂ KeepsVector (leaves (holding strayVector).content) (leaves d.content) ∧
            d.print = "v = (7.0385313e-26)\n" := by
  have hfinite : isFinite (holding strayVector).content = true := by decide +kernel
  refine ⟨rfl, hfinite, by decide +kernel, _, parse_print_of_isFinite rfl hfinite, ?_,
    by decide +kernel⟩
  rw [leaves_reread, leaves_holding, List.map_singleton, List.forall₂_cons]
  rintro ⟨hkeeps, -⟩
  have hkept := Content.vector.inj ((reread.eq_def _).symm.trans (hkeeps _ rfl))
  exact absurd hkept (by decide +kernel)

end Doc
end DocGrammar
