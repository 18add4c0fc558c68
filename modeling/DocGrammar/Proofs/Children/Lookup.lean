import DocGrammar.Doc.Lookup

/-!
# What a lookup finds

A lookup compares hashes first, and the names themselves only where the hashes agree.  That it still
finds the first child of the name is due to every name carrying the hash of its own text, which
`Name` has for a field: whatever was done to a document, there is no node in it with another hash
(`Name.hash_eq_iff`).  So equal names have equal hashes, and the comparison of the hashes never
rejects a child that was meant.

What it lets through by mistake are the `collisions`: of the children in front of the one found, or
of all of them, those whose hash is the right one all the same.  A lookup warns of these and of no
others, in their order.
-/

set_option autoImplicit false

namespace DocGrammar

theorem Name.text_ofString (text : String) : (Name.ofString text).text = text := rfl

theorem Name.hash_ofString (text : String) : (Name.ofString text).hash = hashName text := rfl

/-- The hash of a name is that of a text if and only if the texts hash to the same. -/
theorem Name.hash_eq_iff (n : Name) (text : String) :
    n.hash = (Name.ofString text).hash ↔ hashName n.text = hashName text := by
  rw [n.hash_eq, hash_ofString]

namespace Doc

/-- Whether a document has a name. -/
def hasName (name : String) (d : Doc) : Bool := d.name.text = name

/-- Whether the name of a document hashes to the same as a name. -/
def hashesLike (name : String) (d : Doc) : Bool := hashName d.name.text = hashName name

/-- The collisions that looking for a name comes across: the documents in front of the first that
has it, as far as their names hash to the same. -/
def collisions (name : String) (docs : List Doc) : List Collision :=
  ((docs.takeWhile fun d ↦ !d.hasName name).filter (hashesLike name)).map
    fun d ↦ ⟨d.name.text, name, hashName name⟩

/-! ## Searching -/

section

variable {name : String} {d : Doc}

theorem collisions_of_hasName (h : d.hasName name = true) (rest : List Doc) :
    collisions name (d :: rest) = [] := by
  rw [collisions, List.takeWhile_cons_of_neg (by simp [h])]
  rfl

theorem collisions_of_collision (h : d.hasName name = false)
    (hhash : hashName d.name.text = hashName name) (rest : List Doc) :
    collisions name (d :: rest) =
      ⟨d.name.text, name, hashName name⟩ :: collisions name rest := by
  rw [collisions, List.takeWhile_cons_of_pos (by simp [h]),
    List.filter_cons_of_pos (show hashesLike name d = true from decide_eq_true hhash),
    List.map_cons]
  rfl

theorem collisions_of_hash_ne (h : d.hasName name = false)
    (hhash : hashName d.name.text ≠ hashName name) (rest : List Doc) :
    collisions name (d :: rest) = collisions name rest := by
  rw [collisions, List.takeWhile_cons_of_pos (by simp [h]),
    List.filter_cons_of_neg (by simp [hashesLike, hhash])]
  rfl

end

/-- The search finds the first document that has the name, and comes across the collisions. -/
theorem searchName_eq (name : String) (index : Nat) (docs : List Doc) :
    searchName (.ofString name) index docs =
      ((docs.findIdx? (hasName name)).map (· + index), collisions name docs) := by
  induction docs generalizing index with
  | nil => rfl
  | cons d rest ih =>
    have hshift : ((rest.findIdx? (hasName name)).map (· + 1)).map (· + index) =
        (rest.findIdx? (hasName name)).map (· + (index + 1)) := by
      rw [Option.map_map]
      exact congrArg (Option.map · _) (funext fun i ↦ by simp only [Function.comp]; omega)
    rw [searchName, Name.text_ofString, List.findIdx?_cons]
    cases hname : d.hasName name with
    | true =>
      have htext : d.name.text = name := of_decide_eq_true hname
      rw [if_pos ((d.name.hash_eq_iff name).2 (congrArg hashName htext)), if_pos htext,
        collisions_of_hasName hname]
      simp
    | false =>
      have htext : d.name.text ≠ name := of_decide_eq_false hname
      by_cases hhash : hashName d.name.text = hashName name
      · rw [if_pos ((d.name.hash_eq_iff name).2 hhash), if_neg htext, ih,
          collisions_of_collision hname hhash, if_neg (by decide), hshift]
        rfl
      · rw [if_neg fun h ↦ hhash ((d.name.hash_eq_iff name).1 h), ih,
          collisions_of_hash_ne hname hhash, if_neg (by decide), hshift]

theorem indexOf_eq (d : Doc) (name : String) :
    d.indexOf name = (d.children.findIdx? (hasName name), collisions name d.children) := by
  rw [indexOf, searchName_eq]
  exact congrArg (·, collisions name d.children) (congrFun Option.map_id_fun' _)

/-! ## Finding and changing -/

theorem find_eq (d : Doc) (name : String) :
    d.find name = (d.children.find? (hasName name), collisions name d.children) := by
  rw [find, indexOf_eq, List.find?_eq_bind_findIdx?_getElem?]

theorem updateMember_eq (d : Doc) (name : String) (f : Doc → Doc) :
    d.updateMember name f =
      ((d.children.findIdx? (hasName name)).map (d.modifyChild · f),
        collisions name d.children) := by
  rw [updateMember, indexOf_eq]

/-- Changing the child in the middle. -/
theorem modifyChild_append {d : Doc} {before after : List Doc} {child : Doc} (f : Doc → Doc)
    (h : d.children = before ++ child :: after) :
    (d.modifyChild before.length f).children = before ++ f child :: after ∧
      (d.modifyChild before.length f).name = d.name ∧
      (d.modifyChild before.length f).tag = d.tag := by
  obtain ⟨name, content⟩ := d
  cases content with
  | collection form c =>
    have hitems : c.items = before ++ child :: after := h
    refine ⟨?_, rfl, rfl⟩
    show c.items.modify before.length f = _
    rw [hitems, List.modify_eq_take_cons_drop (by simp)]
    simp
  | _ => exact absurd h.symm (by simp [children])

/-- The first child of a name is found where it is. -/
theorem findIdx?_eq_some {d : Doc} {name : String} {before after : List Doc} {child : Doc}
    (h : d.children = before ++ child :: after) (hchild : child.name.text = name)
    (hbefore : ∀ other ∈ before, other.name.text ≠ name) :
    d.children.findIdx? (hasName name) = some before.length := by
  have hnone : before.findIdx? (hasName name) = none :=
    List.findIdx?_eq_none_iff.2 fun other hother ↦ decide_eq_false (hbefore other hother)
  rw [h, List.findIdx?_append, hnone, Option.none_or, List.findIdx?_cons,
    if_pos (show hasName name child = true from decide_eq_true hchild)]
  simp

/-- **A lookup is exact**, wherever in a document it is made: what it finds is the first child of
the name, what it changes is that child alone, and it warns of the collisions in front of it. -/
theorem lookup_exact (d : Doc) : ∀ path node, descend path d = .ok node →
    node.name.hash = hashName node.name.text ∧
      ∀ (name : String) (f : Doc → Doc),
        (node.find name).2 = collisions name node.children ∧
        (node.updateMember name f).2 = collisions name node.children ∧
        ((node.find name).1 = none ↔ ∀ child ∈ node.children, child.name.text ≠ name) ∧
        ((node.updateMember name f).1 = none ↔
          ∀ child ∈ node.children, child.name.text ≠ name) ∧
        ∀ before child after, node.children = before ++ child :: after →
          child.name.text = name → (∀ other ∈ before, other.name.text ≠ name) →
          (node.find name).1 = some child ∧
            ∃ changed, (node.updateMember name f).1 = some changed ∧
              changed.children = before ++ f child :: after ∧
              changed.name = node.name ∧ changed.tag = node.tag := by
  rintro path node -
  refine ⟨node.name.hash_eq, fun name f ↦ ?_⟩
  rw [find_eq, updateMember_eq]
  refine ⟨rfl, rfl, ?_, ?_, fun before child after hchildren hchild hbefore ↦ ⟨?_, ?_⟩⟩
  · simp [hasName]
  · simp [hasName]
  · refine List.find?_eq_some_iff_append.2
      ⟨decide_eq_true hchild, before, after, hchildren, fun other hother ↦ ?_⟩
    simpa [hasName] using hbefore other hother
  · have hindex := findIdx?_eq_some hchildren hchild hbefore
    obtain ⟨hchanged, hname, htag⟩ := modifyChild_append f hchildren
    exact ⟨_, by rw [hindex]; rfl, hchanged, hname, htag⟩

/-- Of three children whose names all hash to the same the second is meant. -/
theorem lookup_exact_collision :
    let liquid := named (ofTag .integer) "liquid"
    let costarring := named (ofTag .boolean) "costarring"
    let node : Doc :=
      { content := .collection .node ⟨[liquid, costarring, named {} "costarring"], 0⟩ }
    descend [1] { content := .collection .array ⟨[{}, node], 0⟩ } = .ok node ∧
      (node.find "costarring").1 = some costarring ∧
      (node.find "costarring").2 = [⟨"liquid", "costarring", 0x5e4daa9d⟩] := by
  intro liquid costarring node
  obtain ⟨-, hnode⟩ := lookup_exact { content := .collection .array ⟨[{}, node], 0⟩ } [1] node rfl
  obtain ⟨hcollisions, -, -, -, hfirst⟩ := hnode "costarring" id
  have hbefore : ∀ other ∈ [liquid], other.name.text ≠ "costarring" := by decide
  refine ⟨rfl, (hfirst [liquid] costarring [named {} "costarring"] rfl rfl hbefore).1, ?_⟩
  rw [hcollisions]
  decide

end Doc
end DocGrammar
